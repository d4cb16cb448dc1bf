import ScriptImage.Proofs.Handles

/-!
# Offset maps

Code keeps three things side by side: the routines, an offset for each, and an index that
leads from offsets back to routines.  Appending adds to all three, a layout builds the last
two anew, and edits change the sizes of routines without telling either.  Whatever is done,
in whatever order, the three stay consistent (`Code.Consistent`): the offsets ascend from
the base, and

    c.at? o = some id ↔ c.offsetOf? id = some o, and `id` is the greatest such handle

Two routines can still share an offset.  That takes an append to crowded code, in which the
last routine is empty or reaches beyond the offset space; in a run without such an append,
handles and offsets determine each other (`Code.run_consistent`).
-/

namespace ScriptImage

namespace Code

variable {c : Code}

/-! ## The offset after the last routine -/

theorem toNat_addOffset (o : UInt32) (n : Nat) :
    (addOffset o (UInt32.ofNat n)).toNat = min (o.toNat + n % 2 ^ 32) maxOffset := by
  unfold addOffset
  rw [toNat_ofNat_of_le (Nat.min_le_right _ _), UInt32.toNat_ofNat']

theorem addOffset_eq_iff {o : UInt32} {n : Nat} :
    addOffset o (UInt32.ofNat n) = o ↔ n % 2 ^ 32 = 0 ∨ o.toNat = maxOffset := by
  have hlt := o.toNat_lt
  rw [← UInt32.toNat_inj, toNat_addOffset]
  unfold maxOffset
  omega

theorem le_addOffset (o : UInt32) (n : Nat) : o ≤ addOffset o (UInt32.ofNat n) := by
  have hlt := o.toNat_lt
  rw [UInt32.le_iff_toNat_le, toNat_addOffset]
  unfold maxOffset
  omega

theorem endOffset_of_getLast? {r : Routine} {o : UInt32} (hr : c.routines.getLast? = some r)
    (ho : c.offsets.getLast? = some o) : c.endOffset = addOffset o (UInt32.ofNat r.size) := by
  unfold endOffset
  rw [hr, ho]

/-- The last offset is that of a routine. -/
theorem Indexed.exists_last (h : c.Indexed) {o : UInt32} (ho : c.offsets.getLast? = some o) :
    ∃ r, c.routines.getLast? = some r := by
  have hne : c.offsets ≠ [] := by
    intro hnil
    rw [hnil] at ho
    cases ho
  have hpos : 0 < c.routines.length := h.length ▸ List.length_pos_iff.2 hne
  exact ⟨_, List.getLast?_eq_some_getLast (List.length_pos_iff.1 hpos)⟩

/-- Offsets are handed out in ascending order. -/
def Ascending (c : Code) : Prop :=
  c.offsets.Pairwise (· ≤ ·)

theorem Ascending.le_last (h : c.Ascending) {last : UInt32} (hlast : c.offsets.getLast? = some last)
    {o : UInt32} (ho : o ∈ c.offsets) : o ≤ last := by
  obtain ⟨front, hfront⟩ := List.getLast?_eq_some_iff.1 hlast
  unfold Ascending at h
  rw [hfront] at h ho
  rcases List.mem_append.1 ho with ho | ho
  · exact (List.pairwise_append.1 h).2.2 o ho last (List.mem_singleton_self last)
  · rw [List.mem_singleton.1 ho]
    exact UInt32.le_refl last

/-- Offsets that are related in order stay so if a routine is handed an offset that the last one is
related to. -/
theorem Ascending.pairwise_push {R : UInt32 → UInt32 → Prop} (hc : c.Indexed) (h : c.Ascending)
    (hR : c.offsets.Pairwise R) (r : Routine)
    (hlast : ∀ r' last, c.routines.getLast? = some r' → c.offsets.getLast? = some last →
      ∀ o ≤ last, R o (addOffset last (UInt32.ofNat r'.size))) :
    (c.push r).1.offsets.Pairwise R := by
  refine List.pairwise_append.2 ⟨hR, List.pairwise_singleton _ _, fun o ho end' hend => ?_⟩
  obtain rfl := List.mem_singleton.1 hend
  obtain ⟨last, hget⟩ : ∃ last, c.offsets.getLast? = some last :=
    ⟨_, List.getLast?_eq_some_getLast (List.ne_nil_of_mem ho)⟩
  obtain ⟨r', hr'⟩ := hc.exists_last hget
  rw [endOffset_of_getLast? hr' hget]
  exact hlast r' last hr' hget o (h.le_last hget ho)

theorem Ascending.push (hc : c.Indexed) (h : c.Ascending) (r : Routine) : (c.push r).1.Ascending :=
  h.pairwise_push hc h r fun r' last _ _ _ ho => UInt32.le_trans ho (le_addOffset last r'.size)

/-- A routine that is appended now finds no room of its own: the last one is empty, or reaches beyond
the offset space. -/
def Crowded (c : Code) : Prop :=
  match c.routines.getLast?, c.offsets.getLast? with
  | some r, some o => r.size = 0 ∨ maxOffset < o.toNat + r.size
  | _, _ => False

instance (c : Code) : Decidable c.Crowded := by
  unfold Crowded
  split <;> infer_instance

/-- All offsets differ, and ascend. -/
def Spread (c : Code) : Prop :=
  c.offsets.Pairwise (· < ·)

theorem Spread.ascending (h : c.Spread) : c.Ascending :=
  List.Pairwise.imp UInt32.le_of_lt h

theorem Spread.push (hc : c.Indexed) (h : c.Spread) (hroom : ¬c.Crowded) (r : Routine) :
    (c.push r).1.Spread := by
  refine h.ascending.pairwise_push hc h r fun r' last hr' hlast o ho => ?_
  have hfits : ¬(r'.size = 0 ∨ maxOffset < last.toNat + r'.size) := by
    simpa only [Crowded, hr', hlast] using hroom
  have ho := UInt32.le_iff_toNat_le.1 ho
  rw [UInt32.lt_iff_toNat_lt, toNat_addOffset]
  unfold maxOffset at *
  omega

/-! ## Steps -/

/-- What is done to code. -/
inductive Step where
  | pushEmpty
  | push (r : Routine)
  /-- Edits one routine. -/
  | edit (id : Nat) (f : Routine → Routine)
  /-- Edits all routines, each by its handle. -/
  | rewrite (f : Nat → Routine → Routine)
  | layOut (base : UInt32)

/-- Whether a step adds a routine. -/
def Step.appends : Step → Bool
  | .pushEmpty | .push _ => true
  | .edit .. | .rewrite _ | .layOut _ => false

/-- Does one step; a layout that fails changes nothing. -/
def step (c : Code) : Step → Code
  | .pushEmpty => c.pushEmpty.1
  | .push r => (c.push r).1
  | .edit id f => c.edit id f
  | .rewrite f => { c with routines := c.routines.mapIdx f }
  | .layOut base =>
    match c.layOut base with
    | .ok c' => c'
    | .error _ => c

theorem step_layOut_cases (c : Code) (base : UInt32) :
    c.step (.layOut base) = c ∨
      (∀ r ∈ c.routines, r.size ≠ 0) ∧ base.toNat + c.size ≤ maxOffset ∧
        c.step (.layOut base) = c.laidOut base := by
  cases h : c.layOut base with
  | error e =>
    left
    simp only [step, h]
  | ok c' =>
    obtain ⟨hsizes, hfits, rfl⟩ := layOut_eq_ok_iff.1 h
    right
    exact ⟨hsizes, hfits, by simp only [step, h]⟩

/-- Does steps one after the other. -/
def run (c : Code) (steps : List Step) : Code :=
  steps.foldl step c

/-- Whether no step of a run appends to crowded code. -/
def Roomy (c : Code) : List Step → Prop
  | [] => True
  | s :: steps => (s.appends = true → ¬c.Crowded) ∧ Roomy (c.step s) steps

instance decidableRoomy : (c : Code) → (steps : List Step) → Decidable (c.Roomy steps)
  | _, [] => isTrue trivial
  | c, s :: steps =>
    have := decidableRoomy (c.step s) steps
    inferInstanceAs (Decidable ((s.appends = true → ¬c.Crowded) ∧ Roomy (c.step s) steps))

/-- Code to start from: without routines, or read from bytes. -/
inductive Origin : Code → Prop where
  | empty (base : UInt32) : Origin (.empty base)
  | read {order : ByteOrder} {base : UInt32} {expected : List UInt32} {cur cur' : Cursor} {c : Code}
      (h : Code.read order base expected cur = .ok c cur') : Origin c

/-! ## What steps keep -/

/-- What every step keeps. -/
structure Ordered (c : Code) : Prop where
  indexed : c.Indexed
  first : ∀ o, c.offsetOf? 0 = some o → o = c.base
  ascending : c.Ascending

theorem spread_laidOut {base : UInt32} (hsizes : ∀ r ∈ c.routines, r.size ≠ 0)
    (hfits : base.toNat + c.size ≤ maxOffset) : (c.laidOut base).Spread :=
  pairwise_startsFrom hsizes hfits

theorem ordered_laidOut {base : UInt32} (hsizes : ∀ r ∈ c.routines, r.size ≠ 0)
    (hfits : base.toNat + c.size ≤ maxOffset) : (c.laidOut base).Ordered where
  indexed := indexed_laidOut c base
  first := by
    intro o ho
    have hfirst : (startsFrom base.toNat c.routines)[0]? = some o := ho
    cases hrs : c.routines with
    | nil =>
      rw [hrs] at hfirst
      cases hfirst
    | cons r rs =>
      rw [hrs] at hfirst
      obtain rfl := Option.some.inj hfirst
      exact UInt32.ofNat_toNat
  ascending := (spread_laidOut hsizes hfits).ascending

theorem Ordered.push (h : c.Ordered) (r : Routine) : (c.push r).1.Ordered where
  indexed := h.indexed.push r
  first := by
    intro o ho
    have hfirst : (c.offsets ++ [c.endOffset])[0]? = some o := ho
    cases hoffsets : c.offsets with
    | nil =>
      -- the first routine is handed the base
      have hend : c.endOffset = c.base := by
        unfold endOffset
        rw [hoffsets]
        rfl
      rw [hoffsets, hend] at hfirst
      exact (Option.some.inj hfirst).symm
    | cons o' offsets =>
      rw [hoffsets] at hfirst
      refine h.first o ?_
      rw [offsetOf?, hoffsets]
      exact hfirst
  ascending := h.ascending.push h.indexed r

/-- Routines may change at will, as long as their number stays. -/
theorem Ordered.rewrite (h : c.Ordered) {rs : List Routine} (hlen : rs.length = c.routines.length) :
    ({ c with routines := rs } : Code).Ordered where
  indexed := ⟨h.indexed.length.trans hlen.symm, h.indexed.index⟩
  first := h.first
  ascending := h.ascending

/-- A step keeps what appending, rewriting and laying out keep. -/
theorem step_keeps {P : Code → Prop} {s : Step} (h : P c) (hpush : s.appends = true → ∀ r, P (c.push r).1)
    (hrewrite : ∀ rs : List Routine, rs.length = c.routines.length → P { c with routines := rs })
    (hlayOut : ∀ base : UInt32, (∀ r ∈ c.routines, r.size ≠ 0) → base.toNat + c.size ≤ maxOffset →
      P (c.laidOut base)) : P (c.step s) := by
  cases s with
  | pushEmpty => exact hpush rfl []
  | push r => exact hpush rfl r
  | edit id f => exact hrewrite _ (by simp)
  | rewrite f => exact hrewrite _ (by simp)
  | layOut base =>
    rcases step_layOut_cases c base with heq | ⟨hsizes, hfits, heq⟩
    · rw [heq]
      exact h
    · rw [heq]
      exact hlayOut base hsizes hfits

theorem Ordered.step (h : c.Ordered) (s : Step) : (c.step s).Ordered :=
  step_keeps h (fun _ r => h.push r) (fun _ hlen => h.rewrite hlen)
    fun _ hsizes hfits => ordered_laidOut hsizes hfits

theorem Spread.step (hc : c.Indexed) (h : c.Spread) {s : Step} (hroom : s.appends = true → ¬c.Crowded) :
    (c.step s).Spread :=
  step_keeps h (fun happends r => h.push hc (hroom happends) r) (fun _ _ => h)
    fun _ hsizes hfits => spread_laidOut hsizes hfits

theorem Origin.sound (h : c.Origin) : c.Ordered ∧ c.Spread := by
  cases h with
  | empty base => exact ⟨⟨⟨rfl, rfl⟩, nofun, List.Pairwise.nil⟩, List.Pairwise.nil⟩
  | read h =>
    obtain ⟨hends, -, hlaid, hfits, -⟩ := read_eq_ok_iff.1 h
    have hsizes : ∀ r ∈ c.routines, r.size ≠ 0 := fun r hr => Nat.ne_of_gt (hends r hr).size_pos
    rw [hlaid]
    exact ⟨ordered_laidOut hsizes hfits, spread_laidOut hsizes hfits⟩

/-! ## Runs -/

theorem Ordered.run (h : c.Ordered) (steps : List Step) : (c.run steps).Ordered := by
  induction steps generalizing c with
  | nil => exact h
  | cons s steps ih => exact ih (h.step s)

theorem Spread.run (hc : c.Ordered) (h : c.Spread) {steps : List Step} (hroom : c.Roomy steps) :
    (c.run steps).Spread := by
  induction steps generalizing c with
  | nil => exact h
  | cons s steps ih => exact ih (hc.step s) (h.step hc.indexed hroom.1) hroom.2

theorem Reachable.step (h : c.Reachable) (s : Step) : (c.step s).Reachable :=
  step_keeps h (fun _ r => h.push r) (fun _ hlen => h.rewrite hlen)
    fun _ hsizes hfits => h.layOut (layOut_eq_ok_iff.2 ⟨hsizes, hfits, rfl⟩)

/-- What can be reached can be reached by one more step. -/
theorem exists_run_step (h : ∃ c₀ steps, Origin c₀ ∧ c₀.run steps = c) (s : Step) :
    ∃ c₀ steps, Origin c₀ ∧ c₀.run steps = c.step s := by
  obtain ⟨c₀, steps, horigin, rfl⟩ := h
  exact ⟨c₀, steps ++ [s], horigin, by simp [run]⟩

/-- The ways to come by code are the runs. -/
theorem reachable_iff : c.Reachable ↔ ∃ c₀ steps, Origin c₀ ∧ c₀.run steps = c := by
  constructor
  · intro h
    induction h with
    | empty base => exact ⟨_, [], .empty base, rfl⟩
    | read h => exact ⟨_, [], .read h, rfl⟩
    | push _ r ih => exact exists_run_step ih (.push r)
    | @rewrite c _ rs hlen ih =>
      have hrs : c.routines.mapIdx (fun k _ => rs[k]?.getD []) = rs :=
        List.ext_getElem (by simp [hlen]) fun k hk hk' => by simp [hk']
      have h := exists_run_step ih (.rewrite fun k _ => rs[k]?.getD [])
      simp only [Code.step, hrs] at h
      exact h
    | @layOut c c' base _ hc ih =>
      have h := exists_run_step ih (.layOut base)
      simp only [Code.step, hc] at h
      exact h
  · rintro ⟨c₀, steps, horigin, rfl⟩
    have hstart : c₀.Reachable := by
      cases horigin with
      | empty base => exact .empty base
      | read h => exact .read h
    clear horigin
    induction steps generalizing c₀ with
    | nil => exact hstart
    | cons s steps ih => exact ih _ (hstart.step s)

/-- What holds of the offsets and the index of any code. -/
structure Consistent (c : Code) : Prop where
  /-- There are as many offsets as routines. -/
  length : c.offsets.length = c.routines.length
  /-- The first offset is the base. -/
  first : ∀ o, c.offsetOf? 0 = some o → o = c.base
  ascending : c.offsets.Pairwise (· ≤ ·)
  /-- The index leads to the greatest handle with an offset. -/
  at?_eq_some_iff : ∀ o id, c.at? o = some id ↔
    c.offsetOf? id = some o ∧ ∀ later, id < later → c.offsetOf? later ≠ some o
  /-- It leads nowhere exactly if there is no such handle. -/
  at?_eq_none_iff : ∀ o, c.at? o = none ↔ ∀ id, c.offsetOf? id ≠ some o
  lt_of_at? : ∀ o id, c.at? o = some id → id < c.routines.length

theorem Ordered.consistent (h : c.Ordered) : c.Consistent where
  length := h.indexed.length
  first := h.first
  ascending := h.ascending
  at?_eq_some_iff _ _ := h.indexed.at?_eq_some_iff
  at?_eq_none_iff o := by
    rw [h.indexed.at?_eq_none_iff, List.mem_iff_getElem?, not_exists]
    rfl
  lt_of_at? _ _ := h.indexed.lt_of_at?

/-- **Offset maps.** Whatever is done to code, its routines, offsets and index stay consistent. If
moreover nothing is appended to crowded code, the offsets ascend strictly, and every handle has an
offset that leads back to it. -/
theorem run_consistent (horigin : c.Origin) (steps : List Step) :
    (c.run steps).Consistent ∧
      (c.Roomy steps → (c.run steps).offsets.Pairwise (· < ·) ∧
        ∀ id < (c.run steps).routines.length,
          ∃ o, (c.run steps).offsetOf? id = some o ∧ (c.run steps).at? o = some id) := by
  obtain ⟨hordered, hspread⟩ := horigin.sound
  have hrun := hordered.run steps
  refine ⟨hrun.consistent, fun hroom => ?_⟩
  have hlast := hspread.run hordered hroom
  refine ⟨hlast, fun id hid => ?_⟩
  rw [← hrun.indexed.length] at hid
  have ho := List.getElem?_eq_getElem hid
  have hnodup : (c.run steps).offsets.Nodup := List.Pairwise.imp UInt32.ne_of_lt hlast
  exact ⟨_, ho, (hrun.indexed.at?_iff_of_nodup hnodup).2 ho⟩

/-- A run in which an empty routine is filled before the next one is appended, and in which two layouts
fail: the first for want of room, the second because the last routine is empty. -/
def grownSteps : List Step :=
  [.push [.op ⟨.pushTrue, ()⟩, .op .endRoutine], .pushEmpty, .edit 1 fun _ => [.op .endRoutine],
    .push [.op .endRoutine], .layOut 4294967295, .rewrite fun _ r => .op ⟨.pushTrue, ()⟩ :: r,
    .layOut 34, .pushEmpty, .layOut 40]

theorem run_consistent_grown :
    (empty 7).Origin ∧ (empty 7).Roomy grownSteps ∧
      ((empty 7).run grownSteps).offsets = [34, 37, 39, 41] ∧
      ((empty 7).run grownSteps).Consistent ∧
      ∀ id < 4, ∃ o, ((empty 7).run grownSteps).offsetOf? id = some o ∧
        ((empty 7).run grownSteps).at? o = some id := by
  have horigin : (empty 7).Origin := .empty 7
  have hroom : (empty 7).Roomy grownSteps := by decide +kernel
  have h := run_consistent horigin grownSteps
  exact ⟨horigin, hroom, by decide +kernel, h.1, (h.2 hroom).2⟩

end Code

end ScriptImage
