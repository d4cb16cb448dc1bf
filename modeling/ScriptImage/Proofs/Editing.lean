import ScriptImage.Proofs.Respelling

/-!
# Editing by place

The passes on jumps and branches collect places first and edit afterwards.  Here the edits
are brought into a form that follows the routines.  Setting instructions one after the other
replaces each instruction by the last one set at its place, and inserting from the back
inserts everywhere at once:

    setAll rs changes = replaceAll (edited changes) 0 rs
    insertAll rs inserts = insertEach (fun slot => (inserts.lookup slot).toList) 0 rs

`places` lists the instructions of laid-out routines with their places and positions; what
the passes collect is described in terms of it.
-/

namespace ScriptImage

open Jumps (isMarker)

/-! ## Association lists -/

section Lookup

variable {α β : Type} [BEq α] [LawfulBEq α]

/-- With distinct keys, an association list holds what can be looked up. -/
theorem lookup_eq_some_iff_mem {l : List (α × β)} (h : (l.map Prod.fst).Nodup) {k : α} {v : β} :
    l.lookup k = some v ↔ (k, v) ∈ l := by
  constructor
  · intro hv
    obtain ⟨l₁, l₂, rfl, -⟩ := List.lookup_eq_some_iff.1 hv
    exact List.mem_append_right _ List.mem_cons_self
  · intro hmem
    induction l with
    | nil => cases hmem
    | cons x l ih =>
      obtain ⟨k', v'⟩ := x
      rw [List.map_cons, List.nodup_cons] at h
      rcases List.mem_cons.1 hmem with heq | hin
      · cases heq
        exact List.lookup_cons_self
      · have hne : k ≠ k' := by
          rintro rfl
          exact h.1 (List.mem_map.2 ⟨_, hin, rfl⟩)
        rw [List.lookup_cons, beq_false_of_ne hne]
        exact ih h.2 hin

theorem mem_of_lookup {l : List (α × β)} {k : α} {v : β} (h : l.lookup k = some v) : (k, v) ∈ l := by
  obtain ⟨l₁, l₂, rfl, -⟩ := List.lookup_eq_some_iff.1 h
  exact List.mem_append_right _ List.mem_cons_self

theorem exists_lookup_of_mem {l : List (α × β)} {k : α} {v : β} (h : (k, v) ∈ l) :
    ∃ v', l.lookup k = some v' := by
  cases hl : l.lookup k with
  | some v' => exact ⟨v', rfl⟩
  | none =>
    have := List.lookup_eq_none_iff.1 hl _ h
    rw [bne_self_eq_false] at this
    cases this

theorem lookup_perm {l l' : List (α × β)} (hperm : l.Perm l') (h : (l.map Prod.fst).Nodup) (k : α) :
    l.lookup k = l'.lookup k := by
  have h' : (l'.map Prod.fst).Nodup := (hperm.map Prod.fst).nodup h
  refine Option.ext fun v => ?_
  rw [lookup_eq_some_iff_mem h, lookup_eq_some_iff_mem h']
  exact hperm.mem_iff

end Lookup

/-! ## Places -/

/-- The place after another in the same routine. -/
def Slot.next (s : Slot) : Slot :=
  { s with index := s.index + 1 }

/-- An instruction in laid-out code: its place, its position, and what follows in its routine. -/
structure Place where
  slot : Slot
  position : Int
  instr : Instr
  rest : Routine

/-- The instructions of a routine; `slot` is the place of the first and `p` its position. -/
def placesFrom : Slot → Int → Routine → List Place
  | _, _, [] => []
  | slot, p, i :: r => ⟨slot, p, i, r⟩ :: placesFrom slot.next (p + i.size) r

/-- The instructions of routines that are numbered from `k` and laid out from `p`. -/
def places : Nat → Int → List Routine → List Place
  | _, _, [] => []
  | k, p, r :: rs => placesFrom ⟨k, 0⟩ p r ++ places (k + 1) (p + r.size) rs

theorem places_single (k : Nat) (p : Int) (r : Routine) : places k p [r] = placesFrom ⟨k, 0⟩ p r :=
  List.append_nil _

theorem placesFrom_spec {slot : Slot} {p : Int} {r : Routine} {a : Place}
    (h : a ∈ placesFrom slot p r) :
    ∃ n, r.drop n = a.instr :: a.rest ∧ a.slot = ⟨slot.routine, slot.index + n⟩ ∧
      a.position = p + Routine.size (r.take n) := by
  induction r generalizing slot p with
  | nil => cases h
  | cons i r ih =>
    rcases List.mem_cons.1 h with rfl | h
    · refine ⟨0, rfl, rfl, ?_⟩
      show p = p + ((0 : Nat) : Int)
      omega
    · obtain ⟨n, hdrop, hslot, hposition⟩ := ih h
      refine ⟨n + 1, hdrop, ?_, ?_⟩
      · rw [hslot]
        show Slot.mk slot.routine (slot.index + 1 + n) = ⟨slot.routine, slot.index + (n + 1)⟩
        rw [Nat.add_comm n 1, Nat.add_assoc]
      · rw [hposition, List.take_succ_cons, Routine.size_cons]
        omega

/-- Where a place is: in which routine, at which index, and at which position. -/
theorem places_spec {k : Nat} {p : Int} {rs : List Routine} {a : Place} (h : a ∈ places k p rs) :
    ∃ j r n, rs[j]? = some r ∧ r.drop n = a.instr :: a.rest ∧ a.slot = ⟨k + j, n⟩ ∧
      a.position = p + ((rs.take j).map Routine.size).sum + Routine.size (r.take n) := by
  induction rs generalizing k p with
  | nil => cases h
  | cons r rs ih =>
    rcases List.mem_append.1 h with h | h
    · obtain ⟨n, hdrop, hslot, hposition⟩ := placesFrom_spec h
      refine ⟨0, r, n, rfl, hdrop, ?_, ?_⟩
      · rw [hslot, Nat.zero_add]
        rfl
      · rw [hposition, List.take_zero, List.map_nil, List.sum_nil]
        omega
    · obtain ⟨j, r', n, hr', hdrop, hslot, hposition⟩ := ih h
      refine ⟨j + 1, r', n, hr', hdrop, ?_, ?_⟩
      · rw [hslot, Nat.add_right_comm, Nat.add_assoc]
      · rw [hposition, List.take_succ_cons, List.map_cons, List.sum_cons]
        omega

/-- No two places are the same. -/
theorem eq_of_slot_eq {k : Nat} {p : Int} {rs : List Routine} {a b : Place} (ha : a ∈ places k p rs)
    (hb : b ∈ places k p rs) (h : a.slot = b.slot) : a = b := by
  obtain ⟨j, r, n, hr, hdrop, hslot, hposition⟩ := places_spec ha
  obtain ⟨j', r', n', hr', hdrop', hslot', hposition'⟩ := places_spec hb
  rw [hslot, hslot', Slot.mk.injEq] at h
  obtain rfl : j = j' := by omega
  obtain rfl : n = n' := h.2
  rw [hr] at hr'
  cases hr'
  rw [hdrop] at hdrop'
  obtain ⟨slot, position, instr, rest⟩ := a
  obtain ⟨slot', position', instr', rest'⟩ := b
  simp only at hslot hslot' hposition hposition' hdrop'
  cases hdrop'
  rw [hslot, hslot', hposition, hposition']

/-! ## Replacing -/

/-- Whatever works through numbered routines makes of each what its number says. -/
theorem eq_mapIdx_of_cons {β : Type} {g : Nat → List Routine → List β} {F : Nat → Routine → β}
    (hnil : ∀ k, g k [] = []) (hcons : ∀ k r rs, g k (r :: rs) = F k r :: g (k + 1) rs)
    (rs : List Routine) : g 0 rs = rs.mapIdx F := by
  have hgeneral : ∀ k, g k rs = rs.mapIdx fun j r => F (k + j) r := by
    induction rs with
    | nil => exact hnil
    | cons r rs ih =>
      intro k
      rw [hcons, ih, List.mapIdx_cons, Nat.add_zero]
      congr 2
      funext j r'
      rw [Nat.add_assoc, Nat.add_comm 1 j]
  rw [hgeneral]
  simp only [Nat.zero_add]

theorem modify_mapIdx {α β : Type} (F : Nat → α → β) (l : List α) (j : Nat) (f : β → β) :
    (l.mapIdx F).modify j f = l.mapIdx fun i a => if i = j then f (F i a) else F i a := by
  refine List.ext_getElem? fun i => ?_
  rw [List.getElem?_modify, List.getElem?_mapIdx, List.getElem?_mapIdx]
  cases l[i]? with
  | none => rfl
  | some a =>
    show some (if j = i then f (F i a) else F i a) = some (if i = j then f (F i a) else F i a)
    simp only [eq_comm]

/-- Replaces instructions by place; `slot` is the place of the first. -/
def replaceFrom (f : Slot → Instr → Instr) : Slot → Routine → Routine
  | _, [] => []
  | slot, i :: r => f slot i :: replaceFrom f slot.next r

/-- Replaces instructions by place in routines that are numbered from `k`. -/
def replaceAll (f : Slot → Instr → Instr) : Nat → List Routine → List Routine
  | _, [] => []
  | k, r :: rs => replaceFrom f ⟨k, 0⟩ r :: replaceAll f (k + 1) rs

/-- What stands at a place after changes, of which later ones count. -/
def edited (changes : List (Slot × Instr)) (slot : Slot) (i : Instr) : Instr :=
  (changes.reverse.lookup slot).getD i

theorem replaceFrom_congr {f g : Slot → Instr → Instr} {slot : Slot} {r : Routine}
    (h : ∀ n, slot.index ≤ n → f ⟨slot.routine, n⟩ = g ⟨slot.routine, n⟩) :
    replaceFrom f slot r = replaceFrom g slot r := by
  induction r generalizing slot with
  | nil => rfl
  | cons i r ih =>
    have hrest : replaceFrom f slot.next r = replaceFrom g slot.next r :=
      ih fun n hn => h n (Nat.le_of_succ_le hn)
    rw [replaceFrom, replaceFrom, hrest, h slot.index (Nat.le_refl _)]

theorem replaceAll_congr {f g : Slot → Instr → Instr} {k : Nat} {rs : List Routine}
    (h : ∀ j n, k ≤ j → f ⟨j, n⟩ = g ⟨j, n⟩) : replaceAll f k rs = replaceAll g k rs := by
  induction rs generalizing k with
  | nil => rfl
  | cons r rs ih =>
    rw [replaceAll, replaceAll, ih fun j n hj => h j n (Nat.le_of_succ_le hj),
      replaceFrom_congr fun n _ => h k n (Nat.le_refl _)]

theorem replaceFrom_id (slot : Slot) (r : Routine) : replaceFrom (fun _ i => i) slot r = r := by
  induction r generalizing slot with
  | nil => rfl
  | cons i r ih => rw [replaceFrom, ih]

theorem replaceAll_id (k : Nat) (rs : List Routine) : replaceAll (fun _ i => i) k rs = rs := by
  induction rs generalizing k with
  | nil => rfl
  | cons r rs ih => rw [replaceAll, replaceFrom_id, ih]

theorem set_replaceFrom (f : Slot → Instr → Instr) (slot : Slot) (r : Routine) (n : Nat) (x : Instr) :
    (replaceFrom f slot r).set n x =
      replaceFrom (fun s i => if s = ⟨slot.routine, slot.index + n⟩ then x else f s i) slot r := by
  induction r generalizing slot n with
  | nil => rfl
  | cons i r ih =>
    cases n with
    | zero =>
      rw [replaceFrom, replaceFrom, List.set_cons_zero,
        if_pos (show slot = ⟨slot.routine, slot.index + 0⟩ from rfl)]
      congr 1
      refine replaceFrom_congr fun n hn => ?_
      funext i
      rw [if_neg]
      intro heq
      have hindex := congrArg Slot.index heq
      simp only [Slot.next] at hn hindex
      omega
    | succ n =>
      rw [replaceFrom, replaceFrom, List.set_cons_succ, ih, if_neg]
      · congr 1
        refine replaceFrom_congr fun m _ => ?_
        funext i
        simp only [Slot.next, Slot.mk.injEq, Nat.add_assoc, Nat.add_comm 1 n]
      · intro heq
        have hindex := congrArg Slot.index heq
        simp only at hindex
        omega

theorem replaceAll_eq_mapIdx (f : Slot → Instr → Instr) (rs : List Routine) :
    replaceAll f 0 rs = rs.mapIdx fun j r => replaceFrom f ⟨j, 0⟩ r :=
  eq_mapIdx_of_cons (fun _ => rfl) (fun _ _ _ => rfl) rs

theorem modify_replaceAll (f : Slot → Instr → Instr) (rs : List Routine) (slot : Slot) (x : Instr) :
    (replaceAll f 0 rs).modify slot.routine (fun r => r.set slot.index x) =
      replaceAll (fun s i => if s = slot then x else f s i) 0 rs := by
  rw [replaceAll_eq_mapIdx, replaceAll_eq_mapIdx, modify_mapIdx]
  congr 1
  funext j r
  by_cases hj : j = slot.routine
  · rw [if_pos hj, hj, set_replaceFrom]
    simp only [Nat.zero_add]
  · rw [if_neg hj]
    refine replaceFrom_congr fun n _ => ?_
    funext i
    rw [if_neg]
    rintro rfl
    exact hj rfl

/-- Setting instructions one after the other replaces each by the last one set at its place. -/
theorem setAll_eq (rs : List Routine) (changes : List (Slot × Instr)) :
    Targets.setAll rs changes = replaceAll (edited changes) 0 rs := by
  have hfold : ∀ (changes : List (Slot × Instr)) (f : Slot → Instr → Instr),
      Targets.setAll (replaceAll f 0 rs) changes =
        replaceAll (fun s i => (changes.reverse.lookup s).getD (f s i)) 0 rs := by
    intro changes
    induction changes with
    | nil => intro f; rfl
    | cons c changes ih =>
      intro f
      obtain ⟨slot, x⟩ := c
      have hone := modify_replaceAll f rs slot x
      show Targets.setAll ((replaceAll f 0 rs).modify slot.routine fun r => r.set slot.index x) changes = _
      rw [hone, ih]
      refine replaceAll_congr fun j n _ => ?_
      funext i
      rw [List.reverse_cons, List.lookup_append, List.lookup_cons]
      cases changes.reverse.lookup ⟨j, n⟩ with
      | some y => rfl
      | none =>
        by_cases heq : (⟨j, n⟩ : Slot) = slot
        · rw [if_pos heq, heq, beq_self_eq_true]
          rfl
        · rw [if_neg heq, beq_false_of_ne heq]
          rfl
  have h := hfold changes fun _ i => i
  rw [replaceAll_id] at h
  exact h

/-- What stands at a place is one of the changes, or nothing was changed there. -/
theorem edited_cases (changes : List (Slot × Instr)) (slot : Slot) (i : Instr) :
    (slot, edited changes slot i) ∈ changes ∨
      ((∀ x, (slot, x) ∉ changes) ∧ edited changes slot i = i) := by
  unfold edited
  cases h : changes.reverse.lookup slot with
  | some x => exact Or.inl (List.mem_reverse.1 (mem_of_lookup h))
  | none =>
    refine Or.inr ⟨fun x hx => ?_, rfl⟩
    obtain ⟨y, hy⟩ := exists_lookup_of_mem (List.mem_reverse.2 hx)
    rw [h] at hy
    cases hy

/-! ## Inserting -/

/-- Inserts instructions before each place and at the end; `slot` is the first place. -/
def insertFrom (new : Slot → List Instr) : Slot → Routine → Routine
  | slot, [] => new slot
  | slot, i :: r => new slot ++ i :: insertFrom new slot.next r

/-- Inserts instructions by place into routines that are numbered from `k`. -/
def insertEach (new : Slot → List Instr) : Nat → List Routine → List Routine
  | _, [] => []
  | k, r :: rs => insertFrom new ⟨k, 0⟩ r :: insertEach new (k + 1) rs

theorem insertFrom_congr {f g : Slot → List Instr} {slot : Slot} {r : Routine}
    (h : ∀ n, slot.index ≤ n → f ⟨slot.routine, n⟩ = g ⟨slot.routine, n⟩) :
    insertFrom f slot r = insertFrom g slot r := by
  induction r generalizing slot with
  | nil => exact h slot.index (Nat.le_refl _)
  | cons i r ih =>
    have hrest : insertFrom f slot.next r = insertFrom g slot.next r :=
      ih fun n hn => h n (Nat.le_of_succ_le hn)
    rw [insertFrom, insertFrom, hrest, h slot.index (Nat.le_refl _)]

theorem insertEach_congr {f g : Slot → List Instr} {k : Nat} {rs : List Routine}
    (h : ∀ j n, k ≤ j → f ⟨j, n⟩ = g ⟨j, n⟩) : insertEach f k rs = insertEach g k rs := by
  induction rs generalizing k with
  | nil => rfl
  | cons r rs ih =>
    rw [insertEach, insertEach, ih fun j n hj => h j n (Nat.le_of_succ_le hj),
      insertFrom_congr fun n _ => h k n (Nat.le_refl _)]

theorem insertFrom_nil (slot : Slot) (r : Routine) : insertFrom (fun _ => []) slot r = r := by
  induction r generalizing slot with
  | nil => rfl
  | cons i r ih => rw [insertFrom, ih, List.nil_append]

theorem insertEach_nil (k : Nat) (rs : List Routine) : insertEach (fun _ => []) k rs = rs := by
  induction rs generalizing k with
  | nil => rfl
  | cons r rs ih => rw [insertEach, insertFrom_nil, ih]

/-- One insertion, with nothing inserted up to there. -/
theorem insertIdx_insertFrom {new : Slot → List Instr} {slot : Slot} {n : Nat} (r : Routine)
    (x : Instr) (h : ∀ m ≤ n, new ⟨slot.routine, slot.index + m⟩ = []) :
    (insertFrom new slot r).insertIdx n x =
      insertFrom (fun s => if s = ⟨slot.routine, slot.index + n⟩ then [x] else new s) slot r := by
  have hfirst : new slot = [] := h 0 (Nat.zero_le _)
  induction r generalizing slot n with
  | nil =>
    rw [insertFrom, insertFrom, hfirst]
    cases n with
    | zero => rw [if_pos (show slot = ⟨slot.routine, slot.index + 0⟩ from rfl), List.insertIdx_zero]
    | succ n =>
      rw [if_neg]
      · rfl
      · intro heq
        have hindex := congrArg Slot.index heq
        simp only at hindex
        omega
  | cons i r ih =>
    rw [insertFrom, insertFrom, hfirst, List.nil_append]
    cases n with
    | zero =>
      rw [if_pos (show slot = ⟨slot.routine, slot.index + 0⟩ from rfl), List.insertIdx_zero]
      show x :: i :: _ = x :: i :: _
      congr 2
      refine insertFrom_congr fun n hn => ?_
      rw [if_neg]
      intro heq
      have hindex := congrArg Slot.index heq
      simp only [Slot.next] at hn hindex
      omega
    | succ n =>
      have hrest := @ih slot.next n (fun m hm => by
        have := h (m + 1) (Nat.succ_le_succ hm)
        rw [Nat.add_comm m 1, ← Nat.add_assoc] at this
        exact this) (h 1 (Nat.succ_le_succ (Nat.zero_le _)))
      rw [if_neg, List.nil_append, List.insertIdx_succ_cons, hrest]
      · congr 1
        refine insertFrom_congr fun m _ => ?_
        simp only [Slot.next, Slot.mk.injEq, Nat.add_assoc, Nat.add_comm 1 n]
      · intro heq
        have hindex := congrArg Slot.index heq
        simp only at hindex
        omega

theorem insertEach_eq_mapIdx (new : Slot → List Instr) (rs : List Routine) :
    insertEach new 0 rs = rs.mapIdx fun j r => insertFrom new ⟨j, 0⟩ r :=
  eq_mapIdx_of_cons (fun _ => rfl) (fun _ _ _ => rfl) rs

theorem modify_insertEach {new : Slot → List Instr} {slot : Slot}
    (h : ∀ m ≤ slot.index, new ⟨slot.routine, m⟩ = []) (rs : List Routine) (x : Instr) :
    (insertEach new 0 rs).modify slot.routine (fun r => r.insertIdx slot.index x) =
      insertEach (fun s => if s = slot then [x] else new s) 0 rs := by
  rw [insertEach_eq_mapIdx, insertEach_eq_mapIdx, modify_mapIdx]
  congr 1
  funext j r
  by_cases hj : j = slot.routine
  · rw [if_pos hj, hj, insertIdx_insertFrom]
    · simp only [Nat.zero_add]
    · intro m hm
      simp only [Nat.zero_add]
      exact h m hm
  · rw [if_neg hj]
    refine insertFrom_congr fun n _ => ?_
    rw [if_neg]
    rintro rfl
    exact hj rfl

theorem Slot.before_iff {a b : Slot} :
    a.before b = true ↔ a.routine < b.routine ∨ (a.routine = b.routine ∧ a.index < b.index) := by
  simp [Slot.before]

/-- Insertions from the back, the later places first. -/
theorem foldl_insertEach {l : List (Slot × Instr)} (hsorted : l.Pairwise fun a b => b.1.before a.1 = true)
    {new : Slot → List Instr}
    (hnew : ∀ a ∈ l, ∀ s, s = a.1 ∨ s.before a.1 = true → new s = []) (rs : List Routine) :
    l.foldl (fun rs a => rs.modify a.1.routine fun r => r.insertIdx a.1.index a.2) (insertEach new 0 rs) =
      insertEach (fun s => ((l.lookup s).map fun x => [x]).getD (new s)) 0 rs := by
  induction l generalizing new with
  | nil => rfl
  | cons a l ih =>
    obtain ⟨slot, x⟩ := a
    obtain ⟨hafter, hsorted⟩ := List.pairwise_cons.1 hsorted
    have hempty : ∀ m ≤ slot.index, new ⟨slot.routine, m⟩ = [] := by
      intro m hm
      refine hnew _ List.mem_cons_self _ ?_
      rcases Nat.lt_or_eq_of_le hm with hlt | rfl
      · exact Or.inr (Slot.before_iff.2 (Or.inr ⟨rfl, hlt⟩))
      · exact Or.inl rfl
    have hone := modify_insertEach hempty rs x
    rw [List.foldl_cons, hone, ih hsorted]
    · refine insertEach_congr fun j n _ => ?_
      rw [List.lookup_cons]
      by_cases heq : (⟨j, n⟩ : Slot) = slot
      · -- the place just filled comes after the remaining ones
        have hnone : l.lookup slot = none := by
          refine List.lookup_eq_none_iff.2 fun b hb => bne_iff_ne.2 ?_
          intro hslot
          have hbefore := Slot.before_iff.1 (hafter b hb)
          rw [← hslot] at hbefore
          simp only at hbefore
          omega
        rw [heq, beq_self_eq_true, hnone, if_pos rfl]
        rfl
      · rw [beq_false_of_ne heq, if_neg heq]
    · intro b hb s hs
      have hb' := Slot.before_iff.1 (hafter b hb)
      rw [if_neg]
      · exact hnew b (List.mem_cons_of_mem _ hb) s hs
      · rintro rfl
        rcases hs with rfl | hs
        · simp only at hb'
          omega
        · have := Slot.before_iff.1 hs
          simp only at hb'
          omega

/-- Inserting from the back inserts everywhere at once. -/
theorem insertAll_eq (rs : List Routine) {inserts : List (Slot × Instr)}
    (hnodup : (inserts.map Prod.fst).Nodup) :
    Targets.insertAll rs inserts = insertEach (fun slot => (inserts.lookup slot).toList) 0 rs := by
  let later (a b : Slot × Instr) : Bool := !a.1.before b.1
  have hperm : (inserts.mergeSort later).Perm inserts := List.mergeSort_perm _ _
  have htrans : ∀ a b c, later a b = true → later b c = true → later a c = true := by
    intro a b c hab hbc
    simp only [later, Bool.not_eq_true', ← Bool.not_eq_true, Slot.before_iff] at hab hbc ⊢
    omega
  have htotal : ∀ a b, (later a b || later b a) = true := by
    intro a b
    simp only [later, Bool.or_eq_true, Bool.not_eq_true', ← Bool.not_eq_true, Slot.before_iff]
    omega
  have hnodup' : ((inserts.mergeSort later).map Prod.fst).Nodup := (hperm.map Prod.fst).nodup_iff.2 hnodup
  have hsorted : (inserts.mergeSort later).Pairwise fun a b => b.1.before a.1 = true := by
    refine (List.Pairwise.and (List.pairwise_mergeSort htrans htotal inserts)
      (List.pairwise_map.1 hnodup')).imp ?_
    intro a b h
    obtain ⟨hle, hne⟩ := h
    simp only [later, Bool.not_eq_true', ← Bool.not_eq_true, Slot.before_iff] at hle ⊢
    have hne' : a.1.routine ≠ b.1.routine ∨ a.1.index ≠ b.1.index := by
      by_cases hr : a.1.routine = b.1.routine
      · refine Or.inr fun hi => hne ?_
        obtain ⟨⟨r, i⟩, x⟩ := a
        obtain ⟨⟨r', i'⟩, y⟩ := b
        simp only at hr hi
        rw [hr, hi]
      · exact Or.inl hr
    omega
  have hfold := foldl_insertEach hsorted (fun _ _ _ _ => rfl) rs
  rw [insertEach_nil] at hfold
  refine hfold.trans (insertEach_congr fun j n _ => ?_)
  rw [lookup_perm hperm hnodup']
  cases inserts.lookup ⟨j, n⟩ <;> rfl

section Count

variable (pick : Instr → Option UInt32) (id : UInt32)

theorem count_filterMap_insertIdx (r : Routine) (n : Nat) (x : Instr) :
    ((r.insertIdx n x).filterMap pick).count id ≤
      (r.filterMap pick).count id + ((pick x).toList).count id := by
  by_cases hn : n ≤ r.length
  · rw [((List.perm_insertIdx x r hn).filterMap pick).count_eq, List.filterMap_cons]
    cases pick x with
    | none => exact Nat.le_add_right _ _
    | some id' =>
      refine Nat.le_of_eq ?_
      rw [List.count_cons, Option.toList_some, List.count_singleton]
  · rw [List.insertIdx_of_length_lt (Nat.lt_of_not_le hn)]
    exact Nat.le_add_right _ _

theorem count_ids_modify (rs : List Routine) (k n : Nat) (x : Instr) :
    (Routine.ids pick (rs.modify k fun r => r.insertIdx n x)).count id ≤
      (Routine.ids pick rs).count id + ((pick x).toList).count id := by
  induction rs generalizing k with
  | nil =>
    rw [List.modify_nil]
    exact Nat.le_add_right _ _
  | cons r rs ih =>
    cases k with
    | zero =>
      have hfirst := count_filterMap_insertIdx pick id r n x
      rw [List.modify_zero_cons]
      simp only [Routine.ids, List.flatMap_cons, List.count_append]
      omega
    | succ k =>
      have hrest := ih k
      rw [List.modify_succ_cons]
      simp only [Routine.ids, List.flatMap_cons, List.count_append] at hrest ⊢
      omega

theorem count_ids_foldl (inserts : List (Slot × Instr)) (rs : List Routine) :
    (Routine.ids pick (inserts.foldl (fun rs a => rs.modify a.1.routine fun r =>
      r.insertIdx a.1.index a.2) rs)).count id ≤
      (Routine.ids pick rs).count id + (inserts.filterMap fun a => pick a.2).count id := by
  induction inserts generalizing rs with
  | nil => exact Nat.le_add_right _ _
  | cons a inserts ih =>
    have hrest := ih (rs.modify a.1.routine fun r => r.insertIdx a.1.index a.2)
    have hfirst := count_ids_modify pick id rs a.1.routine a.1.index a.2
    rw [List.foldl_cons, List.filterMap_cons]
    cases hpick : pick a.2 with
    | none =>
      rw [hpick] at hfirst
      simp only [Option.toList_none, List.count_nil] at hfirst ⊢
      omega
    | some id' =>
      rw [hpick, Option.toList_some, List.count_singleton] at hfirst
      simp only
      rw [List.count_cons]
      omega

/-- Insertions add at most the identifiers that are inserted. -/
theorem count_ids_insertAll (rs : List Routine) (inserts : List (Slot × Instr)) :
    (Routine.ids pick (Targets.insertAll rs inserts)).count id ≤
      (Routine.ids pick rs).count id + (inserts.filterMap fun a => pick a.2).count id := by
  have hperm := List.mergeSort_perm inserts fun a b => !a.1.before b.1
  have h := count_ids_foldl pick id (inserts.mergeSort fun a b => !a.1.before b.1) rs
  rw [(hperm.filterMap fun a => pick a.2).count_eq] at h
  exact h

end Count

/-! ## Edits as respellings -/

namespace Respelled

variable {step : Spelling} {gone fresh : Instr → Prop} {p : Int} {r r' : Routine}

theorem insert_append {ms : List Instr} (hms : ∀ m ∈ ms, isMarker m = true ∧ fresh m)
    (h : Respelled step gone fresh p r r') : Respelled step gone fresh p r (ms ++ r') := by
  induction ms with
  | nil => exact h
  | cons m ms ih =>
    obtain ⟨hm, hfresh⟩ := hms m List.mem_cons_self
    exact insert hm hfresh (ih fun m' hm' => hms m' (List.mem_cons_of_mem _ hm'))

theorem insertFrom {new : Slot → List Instr} (hnew : ∀ s, ∀ m ∈ new s, isMarker m = true ∧ fresh m)
    (h : Respelled step gone fresh p r r') (slot : Slot) :
    Respelled step gone fresh p r (insertFrom new slot r') := by
  induction h generalizing slot with
  | nil =>
    rw [ScriptImage.insertFrom, ← List.append_nil (new slot)]
    exact insert_append (hnew slot) nil
  | keep hm hkept _ ih => exact insert_append (hnew slot) (keep hm hkept (ih _))
  | drop hm hg _ ih => exact drop hm hg (ih slot)
  | insert hm hf _ ih => exact insert_append (hnew slot) (insert hm hf (ih _))
  | instr hi hs _ ih => exact insert_append (hnew slot) (instr hi hs (ih _))

end Respelled

theorem respelled_replaceFrom {step : Spelling} {f : Slot → Instr → Instr} {slot : Slot} {p : Int}
    {r : Routine}
    (hmarker : ∀ a ∈ placesFrom slot p r, isMarker a.instr = true → f a.slot a.instr = a.instr)
    (hinstr : ∀ a ∈ placesFrom slot p r, isMarker a.instr = false →
      step a.position a.rest.feedsJump a.instr (f a.slot a.instr)) :
    Respelled step (fun _ => False) (fun _ => False) p r (replaceFrom f slot r) := by
  induction r generalizing slot p with
  | nil => exact Respelled.nil
  | cons i r ih =>
    have hrest := @ih slot.next (p + i.size) (fun a ha => hmarker a (List.mem_cons_of_mem _ ha))
      (fun a ha => hinstr a (List.mem_cons_of_mem _ ha))
    rw [replaceFrom]
    by_cases hm : isMarker i = true
    · rw [hmarker _ List.mem_cons_self hm]
      rw [size_eq_zero_of_isMarker hm] at hrest
      exact Respelled.keep hm (fun hf => hf) (by simpa using hrest)
    · rw [Bool.not_eq_true] at hm
      exact Respelled.instr hm (hinstr _ List.mem_cons_self hm) hrest

theorem along_replaceAll {P : Int → Routine → Routine → Prop} {step : Spelling}
    {f : Slot → Instr → Instr} {k : Nat} {p : Int} {rs : List Routine}
    (hP : ∀ {start r r'}, Respelled step (fun _ => False) (fun _ => False) start r r' → P start r r')
    (hmarker : ∀ a ∈ places k p rs, isMarker a.instr = true → f a.slot a.instr = a.instr)
    (hinstr : ∀ a ∈ places k p rs, isMarker a.instr = false →
      step a.position a.rest.feedsJump a.instr (f a.slot a.instr)) :
    Along P p rs (replaceAll f k rs) := by
  induction rs generalizing k p with
  | nil => exact Along.nil
  | cons r rs ih =>
    refine Along.cons (hP (respelled_replaceFrom ?_ ?_)) (ih ?_ ?_)
    · exact fun a ha => hmarker a (List.mem_append_left _ ha)
    · exact fun a ha => hinstr a (List.mem_append_left _ ha)
    · exact fun a ha => hmarker a (List.mem_append_right _ ha)
    · exact fun a ha => hinstr a (List.mem_append_right _ ha)

theorem Along.insertEach {P Q : Int → Routine → Routine → Prop} {new : Slot → List Instr} {p : Int}
    {rs rs' : List Routine}
    (hPQ : ∀ {start r r'} (k : Nat), P start r r' → Q start r (insertFrom new ⟨k, 0⟩ r'))
    (h : Along P p rs rs') (k : Nat) : Along Q p rs (insertEach new k rs') := by
  induction h generalizing k with
  | nil => exact Along.nil
  | cons hP _ ih => exact Along.cons (hPQ k hP) (ih _)

/-! ## Markers after insertions -/

section Marks

variable {pick : Instr → Option UInt32} {new : Slot → List Instr}

theorem marksFrom_append (pick : Instr → Option UInt32) (p : Int) (r r' : Routine) :
    Routine.marksFrom pick p (r ++ r') =
      Routine.marksFrom pick p r ++ Routine.marksFrom pick (p + r.size) r' := by
  induction r generalizing p with
  | nil =>
    show _ = Routine.marksFrom pick (p + ((0 : Nat) : Int)) r'
    simp
  | cons i r ih =>
    have hp : p + (i.size : Int) + (Routine.size r : Int) = p + (Routine.size (i :: r) : Int) := by
      rw [Routine.size_cons]
      omega
    rw [List.cons_append, Routine.marksFrom, Routine.marksFrom, ih, List.append_assoc, hp]

theorem size_of_markers {ms : Routine} (h : ∀ m ∈ ms, isMarker m = true) : ms.size = 0 := by
  induction ms with
  | nil => rfl
  | cons m ms ih =>
    rw [Routine.size_cons, size_eq_zero_of_isMarker (h m List.mem_cons_self),
      ih fun m' hm' => h m' (List.mem_cons_of_mem _ hm')]

theorem size_insertFrom (hnew : ∀ s, ∀ m ∈ new s, isMarker m = true) (slot : Slot) (r : Routine) :
    Routine.size (insertFrom new slot r) = r.size := by
  have happend : ∀ xs ys : Routine, Routine.size (xs ++ ys) = xs.size + ys.size := by
    intro xs ys
    unfold Routine.size
    rw [List.map_append, List.sum_append_nat]
  induction r generalizing slot with
  | nil => exact size_of_markers (hnew slot)
  | cons i r ih =>
    rw [insertFrom, happend, size_of_markers (hnew slot), Nat.zero_add, Routine.size_cons, ih,
      Routine.size_cons]

theorem mem_marksFrom_of_mem {ms : Routine} (h : ∀ m ∈ ms, isMarker m = true) {m : Instr} (hm : m ∈ ms)
    {id : UInt32} (hid : pick m = some id) (p : Int) : (id, p) ∈ Routine.marksFrom pick p ms := by
  induction ms with
  | nil => cases hm
  | cons m' ms ih =>
    rw [Routine.marksFrom]
    rcases List.mem_cons.1 hm with rfl | hm
    · rw [hid]
      exact List.mem_append_left _ List.mem_cons_self
    · refine List.mem_append_right _ ?_
      rw [size_eq_zero_of_isMarker (h m' List.mem_cons_self)]
      simpa using ih (fun m hm => h m (List.mem_cons_of_mem _ hm)) hm

/-- Inserted markers do not move the others. -/
theorem mem_marksFrom_insertFrom (hnew : ∀ s, ∀ m ∈ new s, isMarker m = true) {slot : Slot} {p : Int}
    {r : Routine} {x : UInt32 × Int} (hx : x ∈ Routine.marksFrom pick p r) :
    x ∈ Routine.marksFrom pick p (insertFrom new slot r) := by
  induction r generalizing slot p with
  | nil => cases hx
  | cons i r ih =>
    rw [insertFrom, marksFrom_append, size_of_markers (hnew slot)]
    refine List.mem_append_right _ ?_
    have hp : p + ((0 : Nat) : Int) = p := by omega
    rw [hp, Routine.marksFrom]
    rcases List.mem_append.1 hx with hx | hx
    · exact List.mem_append_left _ hx
    · exact List.mem_append_right _ (ih hx)

/-- An inserted marker has the position of its place. -/
theorem mem_marksFrom_of_new (hnew : ∀ s, ∀ m ∈ new s, isMarker m = true) {slot : Slot} {p : Int}
    {r : Routine} {n : Nat} (hn : n ≤ r.length) {m : Instr}
    (hm : m ∈ new ⟨slot.routine, slot.index + n⟩) {id : UInt32} (hid : pick m = some id) :
    (id, p + Routine.size (r.take n)) ∈ Routine.marksFrom pick p (insertFrom new slot r) := by
  induction r generalizing slot p n with
  | nil =>
    obtain rfl : n = 0 := Nat.le_zero.1 hn
    have := mem_marksFrom_of_mem (hnew slot) hm hid p
    simpa [insertFrom, Routine.size_nil] using this
  | cons i r ih =>
    have hp : p + ((0 : Nat) : Int) = p := by omega
    rw [insertFrom, marksFrom_append, size_of_markers (hnew slot), hp]
    cases n with
    | zero =>
      refine List.mem_append_left _ ?_
      have := mem_marksFrom_of_mem (hnew slot) hm hid p
      simpa [Routine.size_nil] using this
    | succ n =>
      refine List.mem_append_right _ ?_
      rw [Routine.marksFrom]
      refine List.mem_append_right _ ?_
      have hm' : m ∈ new ⟨slot.next.routine, slot.next.index + n⟩ := by
        show m ∈ new ⟨slot.routine, slot.index + 1 + n⟩
        rw [Nat.add_assoc, Nat.add_comm 1 n]
        exact hm
      have hrest := @ih slot.next (p + i.size) n (Nat.le_of_succ_le_succ hn) hm'
      have hq : p + (Routine.size ((i :: r).take (n + 1)) : Int) =
          p + (i.size : Int) + (Routine.size (r.take n) : Int) := by
        rw [List.take_succ_cons, Routine.size_cons]
        omega
      rw [hq]
      exact hrest

end Marks

end ScriptImage
