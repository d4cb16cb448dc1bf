import ScriptImage.Proofs.Placement

/-!
# Where destinations land

Sized instructions tile the code.  So a destination between the beginning and the end lands some
bytes into exactly one of them, or at the end, and `snap` finds which and how far:

    p ≤ t ≤ finish p rs → ∃ slot adjust, Lands rs … slot adjust ∧ position p rs slot + adjust = t
    Lands rs … slot adjust → snap … (position p rs slot + adjust) = some (position p rs slot, adjust)

A routine by itself is tiled in the same way, with positions that are counted from its beginning.
-/

namespace ScriptImage

open Targets

/-- The place at the end of a routine. -/
def routineEnd (rs : List Routine) (j : Nat) : Slot :=
  ⟨j, (rs[j]?.getD []).length⟩

/-- The place at the end of the last routine. -/
def codeEnd (rs : List Routine) : Slot :=
  routineEnd rs (rs.length - 1)

/-- What is some bytes after the beginning of a place lands there: the place holds an instruction that
is larger than that, or it is the last place, and nothing is left to go. -/
def Lands (rs : List Routine) (last slot : Slot) (adjust : UInt32) : Prop :=
  (∃ i, instrAt? rs slot = some i ∧ adjust.toNat < i.size) ∨ (slot = last ∧ adjust = 0)

variable {rs : List Routine} {r : Routine} {slot : Slot} {k : Nat} {p t : Int} {adjust : UInt32} {a : Place}

theorem Lands.start {last : Slot} (h : Lands rs last slot adjust) : Lands rs last slot 0 := by
  rcases h with ⟨i, hi, hlt⟩ | ⟨hslot, -⟩
  · exact Or.inl ⟨i, hi, Nat.zero_lt_of_lt hlt⟩
  · exact Or.inr ⟨hslot, rfl⟩

/-! ## Tiling -/

theorem Instr.size_le (i : Instr) : i.size ≤ 5 := by
  have hop : ∀ o : Opcode, o.size ≤ 5 := fun o =>
    (by decide : ∀ o ∈ Opcode.all, o.size ≤ 5) o o.mem_all
  cases i with
  | op o => exact hop o.code
  | symbolic s =>
    show s.kind.size ≤ 5
    unfold SymbolicKind.size
    cases s.kind.standsFor with
    | none => exact Nat.zero_le _
    | some o => exact hop o

theorem placesFrom_bounds (ha : a ∈ placesFrom slot p r) :
    p ≤ a.position ∧ a.position + a.instr.size ≤ p + r.size := by
  induction r generalizing slot p with
  | nil => cases ha
  | cons i r ih =>
    rw [Routine.size_cons]
    rcases List.mem_cons.1 ha with rfl | ha
    · show p ≤ p ∧ p + i.size ≤ _
      omega
    · have := ih ha
      omega

theorem finish_cons (p : Int) (r : Routine) (rs : List Routine) :
    finish p (r :: rs) = finish (p + r.size) rs := by
  rw [finish, finish, List.map_cons, List.sum_cons]
  omega

theorem le_finish (p : Int) (rs : List Routine) : p ≤ finish p rs := by
  rw [finish]
  omega

theorem places_bounds (ha : a ∈ places k p rs) :
    p ≤ a.position ∧ a.position + a.instr.size ≤ finish p rs := by
  induction rs generalizing k p with
  | nil => cases ha
  | cons r rs ih =>
    rw [finish_cons]
    rcases List.mem_append.1 ha with ha | ha
    · have hbounds := placesFrom_bounds ha
      have hle := le_finish (p + r.size) rs
      omega
    · have := ih ha
      omega

theorem pairwise_places (k : Nat) (p : Int) (rs : List Routine) :
    (places k p rs).Pairwise fun a b : Place => a.position + a.instr.size ≤ b.position := by
  have hroutine : ∀ (slot : Slot) (p : Int) (r : Routine),
      (placesFrom slot p r).Pairwise fun a b : Place => a.position + a.instr.size ≤ b.position := by
    intro slot p r
    induction r generalizing slot p with
    | nil => exact List.Pairwise.nil
    | cons i r ih => exact List.Pairwise.cons (fun b hb => (placesFrom_bounds hb).1) (ih _ _)
  induction rs generalizing k p with
  | nil => exact List.Pairwise.nil
  | cons r rs ih =>
    refine List.pairwise_append.2 ⟨hroutine _ _ _, ih _ _, fun a ha b hb => ?_⟩
    exact Int.le_trans (placesFrom_bounds ha).2 (places_bounds hb).1

/-- Nothing is left out. -/
theorem exists_covering (k : Nat) (hlow : p ≤ t) (hhigh : t < finish p rs) :
    ∃ a ∈ places k p rs, a.position ≤ t ∧ t < a.position + a.instr.size := by
  have hroutine : ∀ (slot : Slot) (p : Int) (r : Routine), p ≤ t → t < p + r.size →
      ∃ a ∈ placesFrom slot p r, a.position ≤ t ∧ t < a.position + a.instr.size := by
    intro slot p r
    induction r generalizing slot p with
    | nil =>
      intro hlow hhigh
      rw [Routine.size_nil] at hhigh
      omega
    | cons i r ih =>
      intro hlow hhigh
      rw [Routine.size_cons] at hhigh
      by_cases hi : t < p + i.size
      · exact ⟨_, List.mem_cons_self, hlow, hi⟩
      · obtain ⟨a, ha, h⟩ := ih slot.next (p + i.size) (by omega) (by omega)
        exact ⟨a, List.mem_cons_of_mem _ ha, h⟩
  induction rs generalizing k p with
  | nil =>
    have : finish p ([] : List Routine) = p := by simp [finish]
    omega
  | cons r rs ih =>
    rw [finish_cons] at hhigh
    by_cases hr : t < p + r.size
    · obtain ⟨a, ha, h⟩ := hroutine ⟨k, 0⟩ p r hlow hr
      exact ⟨a, List.mem_append_left _ ha, h⟩
    · obtain ⟨a, ha, h⟩ := ih (k + 1) (by omega) hhigh
      exact ⟨a, List.mem_append_right _ ha, h⟩

/-- The distance into an instruction is a word. -/
theorem Place.exists_adjust (a : Place) (hlow : a.position ≤ t) (hhigh : t < a.position + a.instr.size) :
    ∃ adjust : UInt32, a.position + (adjust.toNat : Int) = t := by
  have hsize := a.instr.size_le
  refine ⟨UInt32.ofNat (t - a.position).toNat, ?_⟩
  rw [Code.toNat_ofNat_of_le (by rw [maxOffset]; omega)]
  omega

/-! ## Snapping to a boundary -/

theorem boundaries_eq (k : Nat) (p : Int) (rs : List Routine) : boundaries k p rs =
    ((places k p rs).filter fun a => 0 < a.instr.size).map fun a => (a.position, a.slot) := by
  have hroutine : ∀ (slot : Slot) (p : Int) (r : Routine), routineBoundaries slot p r =
      ((placesFrom slot p r).filter fun a => 0 < a.instr.size).map fun a => (a.position, a.slot) := by
    intro slot p r
    induction r generalizing slot p with
    | nil => rfl
    | cons i r ih =>
      have hrest := ih slot.next (p + i.size)
      rw [routineBoundaries, placesFrom]
      by_cases hi : 0 < i.size
      · rw [if_pos hi, List.filter_cons_of_pos (by simpa using hi), List.map_cons, ← hrest]
        rfl
      · rw [if_neg hi, List.filter_cons_of_neg (by simpa using hi), ← hrest]
        rfl
  induction rs generalizing k p with
  | nil => rfl
  | cons r rs ih =>
    rw [boundaries, places, List.filter_append, List.map_append, hroutine, ih]

theorem lastBoundary?_eq {l₁ l₂ : List (Int × Slot)} {b : Int × Slot} (hb : b.1 ≤ t)
    (hafter : ∀ b' ∈ l₂, t < b'.1) : lastBoundary? (l₁ ++ b :: l₂) t = some b.1 := by
  have hkeep : ∀ last : Option Int,
      l₂.foldl (fun last b => if b.1 ≤ t then some b.1 else last) last = last := by
    induction l₂ with
    | nil => exact fun _ => rfl
    | cons b' l₂ ih =>
      intro last
      have hb' := hafter b' List.mem_cons_self
      rw [List.foldl_cons, if_neg (by omega)]
      exact ih (fun c hc => hafter c (List.mem_cons_of_mem _ hc)) last
  rw [lastBoundary?, List.foldl_append, List.foldl_cons, if_pos hb, hkeep]

/-- What is covered by an instruction is moved back to its beginning. -/
theorem snap_of_mem_places (ha : a ∈ places k p rs) (h : adjust.toNat < a.instr.size) :
    snap (boundaries k p rs) (finish p rs) (a.position + adjust.toNat) = some (a.position, adjust) := by
  obtain ⟨l₁, l₂, hsplit⟩ := List.append_of_mem ha
  have hlast : lastBoundary? (boundaries k p rs) (a.position + adjust.toNat) = some a.position := by
    have hpairwise := pairwise_places k p rs
    rw [boundaries_eq, hsplit, List.filter_append, List.filter_cons_of_pos (by simp; omega),
      List.map_append, List.map_cons]
    rw [hsplit, List.pairwise_append, List.pairwise_cons] at hpairwise
    obtain ⟨-, ⟨hafter, -⟩, -⟩ := hpairwise
    -- the boundaries after this one are past all that it covers
    refine lastBoundary?_eq (Int.le_add_of_nonneg_right (Int.natCast_nonneg _)) fun b hb => ?_
    obtain ⟨c, hc, rfl⟩ := List.mem_map.1 hb
    have := hafter c (List.mem_filter.1 hc).1
    simp only
    omega
  have hbounds := (places_bounds ha).2
  have hsize := a.instr.size_le
  have hdistance : a.position + (adjust.toNat : Int) - a.position = adjust.toNat := by omega
  rw [snap, if_neg (by omega), hlast]
  show (if 0 ≤ a.position + (adjust.toNat : Int) - a.position ∧ _ then _ else _) = _
  rw [hdistance, if_pos (by rw [maxOffset]; omega), Int.toNat_natCast, UInt32.ofNat_toNat]

theorem snap_finish (bs : List (Int × Slot)) (q : Int) : snap bs q q = some (q, 0) := by
  rw [snap, if_pos rfl]
  show (if 0 ≤ q - q ∧ _ then _ else _) = _
  rw [Int.sub_self, if_pos (by decide)]
  rfl

/-- The boundary at a sized instruction is found again. -/
theorem lookup_boundaries (ha : a ∈ places k p rs) (h : 0 < a.instr.size) :
    (boundaries k p rs).lookup a.position = some a.slot := by
  refine (lookup_eq_some_iff_mem ?_).2 (mem_boundaries.2 ⟨a, ha, h, rfl⟩)
  rw [boundaries_eq, List.map_map, List.Nodup, List.pairwise_map, List.pairwise_filter]
  refine (pairwise_places k p rs).imp fun {a b} hab ha _ => ?_
  rw [decide_eq_true_eq] at ha
  simp only [Function.comp_apply]
  omega

/-! ## Landing in the code -/

theorem position_codeEnd (p : Int) (rs : List Routine) : position p rs (codeEnd rs) = finish p rs := by
  rcases List.eq_nil_or_concat rs with rfl | ⟨rs, r, rfl⟩
  · simp [position, finish, codeEnd, routineEnd]
  · simp [position, finish, codeEnd, routineEnd]
    omega

/-- Where a destination lands is at the start of what covers it. -/
theorem Lands.snap_eq (p : Int) (h : Lands rs (codeEnd rs) slot adjust) :
    snap (boundaries 0 p rs) (finish p rs) (position p rs slot + adjust.toNat) =
      some (position p rs slot, adjust) := by
  rcases h with ⟨i, hi, hlt⟩ | ⟨rfl, rfl⟩
  · obtain ⟨a, ha, rfl, rfl⟩ := exists_place p hi
    rw [← position_of_mem_places ha]
    exact snap_of_mem_places ha hlt
  · rw [position_codeEnd, UInt32.toNat_zero, Int.natCast_zero, Int.add_zero]
    exact snap_finish _ _

theorem exists_lands (hlow : p ≤ t) (hhigh : t ≤ finish p rs) :
    ∃ slot adjust, Lands rs (codeEnd rs) slot adjust ∧ position p rs slot + adjust.toNat = t := by
  by_cases ht : t = finish p rs
  · refine ⟨codeEnd rs, 0, Or.inr ⟨rfl, rfl⟩, ?_⟩
    rw [position_codeEnd, ht, UInt32.toNat_zero, Int.natCast_zero, Int.add_zero]
  · obtain ⟨a, ha, hlow, hhigh⟩ := exists_covering 0 hlow (by omega : t < finish p rs)
    obtain ⟨adjust, hadjust⟩ := a.exists_adjust hlow hhigh
    refine ⟨a.slot, adjust, Or.inl ⟨a.instr, instrAt?_of_mem_places ha, ?_⟩, ?_⟩
    · omega
    · rw [← position_of_mem_places ha]
      omega

/-! ## Landing in a routine -/

theorem finish_single (r : Routine) : finish 0 [r] = r.size := by
  simp [finish]

section Single

variable (hr : rs[k]? = some r)

include hr

theorem offset_eq (n : Nat) : offset rs ⟨k, n⟩ = Routine.size (r.take n) := by
  simp only [offset, hr, Option.getD_some]

theorem extent_eq (n : Nat) : extent rs ⟨k, n⟩ = r.size := by
  simp only [extent, hr, Option.getD_some]

/-- The places of a routine by itself, as places of the code. -/
theorem mem_single_iff : a ∈ places k 0 [r] ↔
    a.slot.routine = k ∧ r.drop a.slot.index = a.instr :: a.rest ∧ a.position = offset rs a.slot := by
  rw [places_single, mem_placesFrom_iff]
  constructor
  · rintro ⟨n, hdrop, hslot, hposition⟩
    simp only [Nat.zero_add, Int.zero_add] at hslot hposition
    rw [hslot, hposition, offset_eq hr]
    exact ⟨rfl, hdrop, rfl⟩
  · rintro ⟨rfl, hdrop, hposition⟩
    refine ⟨a.slot.index, hdrop, ?_, ?_⟩
    · simp only [Nat.zero_add]
    · rw [hposition, Int.zero_add, ← offset_eq hr]

theorem instrAt?_of_mem_single (ha : a ∈ places k 0 [r]) : instrAt? rs a.slot = some a.instr := by
  obtain ⟨rfl, hdrop, -⟩ := (mem_single_iff hr).1 ha
  rw [instrAt?_of_getElem? hr, (drop_eq_cons_iff.1 hdrop).1]

theorem exists_single {i : Instr} (hroutine : slot.routine = k) (h : instrAt? rs slot = some i) :
    ∃ a ∈ places k 0 [r], a.slot = slot ∧ a.instr = i ∧ a.position = offset rs slot := by
  subst hroutine
  rw [instrAt?_of_getElem? hr] at h
  refine ⟨⟨slot, offset rs slot, i, r.drop (slot.index + 1)⟩, ?_, rfl, rfl, rfl⟩
  exact (mem_single_iff hr).2 ⟨rfl, drop_eq_cons_iff.2 ⟨h, rfl⟩, rfl⟩

theorem offset_routineEnd : offset rs (routineEnd rs k) = r.size := by
  simp only [offset, routineEnd, hr, Option.getD_some, List.take_length]

theorem Lands.within (hroutine : slot.routine = k) (h : Lands rs (routineEnd rs k) slot adjust) :
    Within rs slot := by
  subst hroutine
  refine ⟨r, hr, ?_⟩
  rcases h with ⟨i, hi, -⟩ | ⟨heq, -⟩
  · rw [instrAt?_of_getElem? hr] at hi
    exact Nat.le_of_lt (List.getElem?_eq_some_iff.1 hi).1
  · rw [heq, routineEnd, hr]
    exact Nat.le_refl _

theorem Lands.le_size (hroutine : slot.routine = k) (h : Lands rs (routineEnd rs k) slot adjust) :
    offset rs slot + adjust.toNat ≤ r.size := by
  rcases h with ⟨i, hi, hlt⟩ | ⟨rfl, rfl⟩
  · obtain ⟨a, ha, rfl, rfl, hposition⟩ := exists_single hr hroutine hi
    have hbounds := (places_bounds ha).2
    rw [finish_single] at hbounds
    omega
  · rw [offset_routineEnd hr]
    exact Nat.le_refl _

/-- Where a destination in a routine lands is at the start of what covers it. -/
theorem Lands.snap_eq_offset (hroutine : slot.routine = k) (h : Lands rs (routineEnd rs k) slot adjust) :
    snap (boundaries k 0 [r]) r.size (offset rs slot + adjust.toNat) =
      some ((offset rs slot : Int), adjust) := by
  rw [← finish_single r]
  rcases h with ⟨i, hi, hlt⟩ | ⟨rfl, rfl⟩
  · obtain ⟨a, ha, rfl, rfl, hposition⟩ := exists_single hr hroutine hi
    rw [← hposition]
    exact snap_of_mem_places ha hlt
  · rw [offset_routineEnd hr, finish_single r, UInt32.toNat_zero, Int.natCast_zero, Int.add_zero]
    exact snap_finish _ _

theorem exists_lands_in (hlow : 0 ≤ t) (hhigh : t ≤ r.size) : ∃ slot adjust, slot.routine = k ∧
    Lands rs (routineEnd rs k) slot adjust ∧ offset rs slot + (adjust.toNat : Int) = t := by
  by_cases ht : t = r.size
  · refine ⟨routineEnd rs k, 0, rfl, Or.inr ⟨rfl, rfl⟩, ?_⟩
    rw [offset_routineEnd hr, ht, UInt32.toNat_zero, Int.natCast_zero, Int.add_zero]
  · have hhigh' : t < finish 0 [r] := by
      rw [finish_single r]
      omega
    obtain ⟨a, ha, hlow, hhigh⟩ := exists_covering k hlow hhigh'
    obtain ⟨hroutine, -, hposition⟩ := (mem_single_iff hr).1 ha
    obtain ⟨adjust, hadjust⟩ := a.exists_adjust hlow hhigh
    refine ⟨a.slot, adjust, hroutine, Or.inl ⟨a.instr, instrAt?_of_mem_single hr ha, ?_⟩, ?_⟩
    · omega
    · omega

end Single

end ScriptImage
