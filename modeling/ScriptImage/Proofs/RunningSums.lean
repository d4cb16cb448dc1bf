import ScriptImage.Proofs.OffsetMap

/-!
# Layouts as running sums

A layout goes through the routines once and adds up their sizes.  What it stores is where each
routine starts if all lie back to back from the base:

    startOf base rs k = base + (sizes of the routines before `k`)

It is found exactly if no routine is empty and the last one ends within the offset space; that
the last one starts there is not enough.  On the way two things can go wrong, and the one that
is met first decides the error: a routine without a position of its own, or a start beyond
the offset space.
-/

namespace ScriptImage

namespace Code

/-- Where a routine starts if all lie back to back from a position. -/
def startOf (p : Nat) (rs : List Routine) (k : Nat) : Nat :=
  p + ((rs.take k).map Routine.size).sum

/-- In order of the routines, an empty one comes no later than the first that starts beyond the offset
space. -/
def MeetsEmpty (p : Nat) (rs : List Routine) : Prop :=
  ∃ k r, rs[k]? = some r ∧ r.size = 0 ∧ ∀ j < rs.length, maxOffset < startOf p rs j → k ≤ j

/-- Code with the routines of `c` laid out from a base. -/
structure RunningSums (c : Code) (base : UInt32) (c' : Code) : Prop where
  routines : c'.routines = c.routines
  base_eq : c'.base = base
  length : c'.offsets.length = c.routines.length
  offset : ∀ k < c.routines.length, ∃ o, c'.offsetOf? k = some o ∧
    o.toNat = startOf base.toNat c.routines k
  ascending : c'.offsets.Pairwise (· < ·)
  /-- The index is the inverse of the offsets. -/
  at?_iff : ∀ o id, c'.at? o = some id ↔ c'.offsetOf? id = some o
  /-- The end is no greatest offset that stands for a greater one. -/
  endOffset : c'.endOffset.toNat = base.toNat + c.size

/-! ## Starts -/

section

variable {p k : Nat} {r : Routine} {rs : List Routine}

theorem startOf_zero (p : Nat) (rs : List Routine) : startOf p rs 0 = p := by
  rw [startOf, List.take_zero, List.map_nil, List.sum_nil, Nat.add_zero]

theorem startOf_succ (p k : Nat) (r : Routine) (rs : List Routine) :
    startOf p (r :: rs) (k + 1) = startOf (p + r.size) rs k := by
  rw [startOf, startOf, List.take_succ_cons, List.map_cons, List.sum_cons, Nat.add_assoc]

/-- A routine ends where the sizes up to it lead. -/
theorem startOf_concat (p : Nat) (front : List Routine) (r : Routine) :
    startOf p (front ++ [r]) front.length + r.size = p + ((front ++ [r]).map Routine.size).sum := by
  rw [startOf, List.take_left', List.map_append, List.sum_append, List.map_singleton, List.sum_singleton,
    Nat.add_assoc]
  rfl

theorem meetsEmpty_of_empty (h : r.size = 0) : MeetsEmpty p (r :: rs) :=
  ⟨0, r, rfl, h, fun _ _ _ => Nat.zero_le _⟩

/-- If the first routine starts beyond the offset space, only that one can be met. -/
theorem not_meetsEmpty_of_beyond (hsize : r.size ≠ 0) (hp : maxOffset < p) : ¬MeetsEmpty p (r :: rs) := by
  rintro ⟨k, r', hr', hempty, hfirst⟩
  have hk := hfirst 0 (Nat.succ_pos _) (by rw [startOf_zero]; exact hp)
  obtain rfl := Nat.le_zero.1 hk
  cases hr'
  exact hsize hempty

/-- A routine that takes room and starts in the offset space decides nothing. -/
theorem meetsEmpty_cons_iff (hsize : r.size ≠ 0) (hp : p ≤ maxOffset) :
    MeetsEmpty p (r :: rs) ↔ MeetsEmpty (p + r.size) rs := by
  constructor
  · rintro ⟨k, r', hr', hempty, hfirst⟩
    cases k with
    | zero =>
      cases hr'
      exact absurd hempty hsize
    | succ k =>
      refine ⟨k, r', hr', hempty, fun j hj hlt => Nat.le_of_succ_le_succ ?_⟩
      exact hfirst (j + 1) (Nat.succ_lt_succ hj) (by rw [startOf_succ]; exact hlt)
  · rintro ⟨k, r', hr', hempty, hfirst⟩
    refine ⟨k + 1, r', hr', hempty, fun j hj hlt => ?_⟩
    cases j with
    | zero =>
      rw [startOf_zero] at hlt
      omega
    | succ j =>
      rw [startOf_succ] at hlt
      exact Nat.succ_le_succ (hfirst j (Nat.lt_of_succ_lt_succ hj) hlt)

theorem not_meetsEmpty_of_sizes (hsizes : ∀ r ∈ rs, r.size ≠ 0) : ¬MeetsEmpty p rs := by
  rintro ⟨k, r, hr, hempty, -⟩
  exact hsizes r (List.mem_of_getElem? hr) hempty

end

/-! ## Layouts that fail -/

theorem kind_of_offsetsFrom {k p : Nat} {rs : List Routine} {e : Error} (h : offsetsFrom k p rs = .error e) :
    (MeetsEmpty p rs → e.kind = .subroutine) ∧ (¬MeetsEmpty p rs → e.kind = .range) := by
  induction rs generalizing k p with
  | nil => cases h
  | cons r rs ih =>
    rw [offsetsFrom] at h
    split at h
    · next hsize =>
      cases h
      exact ⟨fun _ => rfl, fun hnot => absurd (meetsEmpty_of_empty hsize) hnot⟩
    · next hsize =>
      split at h
      · next hp =>
        cases h
        exact ⟨fun hmeets => absurd hmeets (not_meetsEmpty_of_beyond hsize hp), fun _ => rfl⟩
      · next hp =>
        rw [meetsEmpty_cons_iff hsize (Nat.le_of_not_lt hp)]
        rcases Run.except_bind_eq_error_iff.1 h with hrest | ⟨⟨offsets, finish⟩, -, h⟩
        · exact ih hrest
        · cases h

theorem kind_of_layOut {c : Code} {base : UInt32} {e : Error} (h : c.layOut base = .error e) :
    (MeetsEmpty base.toNat c.routines → e.kind = .subroutine) ∧
      (¬MeetsEmpty base.toNat c.routines → e.kind = .range) := by
  rcases Run.except_bind_eq_error_iff.1 h with hoffsets | ⟨⟨offsets, finish⟩, hoffsets, h⟩
  · exact kind_of_offsetsFrom hoffsets
  · -- all routines have been gone through, and the last of them ends too far behind
    obtain ⟨hsizes, -, -⟩ := eq_of_offsetsFrom hoffsets
    refine ⟨fun hmeets => absurd hmeets (not_meetsEmpty_of_sizes hsizes), fun _ => ?_⟩
    simp only at h
    split at h
    · cases h
      rfl
    · cases h

/-! ## Layouts that succeed -/

theorem toNat_endOffset_laidOut {c : Code} {base : UInt32} (hfits : base.toNat + c.size ≤ maxOffset) :
    (c.laidOut base).endOffset.toNat = base.toNat + c.size := by
  rcases List.eq_nil_or_concat c.routines with hnil | ⟨front, r, hrs⟩
  · have hend : (c.laidOut base).endOffset = base := by
      unfold endOffset laidOut
      rw [hnil]
      rfl
    rw [hend, size, hnil]
    rfl
  · rw [List.concat_eq_append] at hrs
    have hlast : (c.laidOut base).routines.getLast? = some r := by
      show c.routines.getLast? = some r
      rw [hrs, List.getLast?_concat]
    obtain ⟨o, ho, hstart⟩ := (backToBack_laidOut hfits).offset front.length (by
      show front.length < c.routines.length
      rw [hrs, List.length_append]
      exact Nat.lt_succ_self _)
    have hoffset : (c.laidOut base).offsets.getLast? = some o := by
      rw [List.getLast?_eq_getElem?, (backToBack_laidOut hfits).length]
      show (c.laidOut base).offsets[c.routines.length - 1]? = some o
      rw [hrs, List.length_append]
      exact ho
    have hend : startOf base.toNat c.routines front.length + r.size = base.toNat + c.size := by
      rw [size, hrs]
      exact startOf_concat _ _ _
    change o.toNat = startOf base.toNat c.routines front.length at hstart
    rw [endOffset_of_getLast? hlast hoffset, toNat_addOffset]
    unfold maxOffset at *
    omega

theorem runningSums_laidOut {c : Code} {base : UInt32} (hsizes : ∀ r ∈ c.routines, r.size ≠ 0)
    (hfits : base.toNat + c.size ≤ maxOffset) : RunningSums c base (c.laidOut base) where
  routines := rfl
  base_eq := rfl
  length := (backToBack_laidOut hfits).length
  offset := (backToBack_laidOut hfits).offset
  ascending := pairwise_startsFrom hsizes hfits
  at?_iff _ _ := at?_laidOut_iff hsizes hfits
  endOffset := toNat_endOffset_laidOut hfits

/-- **Layouts are running sums.**  Code is laid out exactly if no routine is empty and all end within the
offset space.  Then offsets, index and end are those of the running sums; otherwise the error tells
which of the two conditions was found broken first. -/
theorem layOut_runningSums (c : Code) (base : UInt32) :
    ((∃ c', c.layOut base = .ok c') ↔
      (∀ r ∈ c.routines, r.size ≠ 0) ∧ base.toNat + c.size ≤ maxOffset) ∧
    (∀ c', c.layOut base = .ok c' → RunningSums c base c') ∧
    ∀ e, c.layOut base = .error e →
      (MeetsEmpty base.toNat c.routines → e.kind = .subroutine) ∧
        (¬MeetsEmpty base.toNat c.routines → e.kind = .range) := by
  refine ⟨⟨?_, ?_⟩, fun c' h => ?_, fun e h => kind_of_layOut h⟩
  · rintro ⟨c', h⟩
    obtain ⟨hsizes, hfits, -⟩ := layOut_eq_ok_iff.1 h
    exact ⟨hsizes, hfits⟩
  · rintro ⟨hsizes, hfits⟩
    exact ⟨_, layOut_eq_ok_iff.2 ⟨hsizes, hfits, rfl⟩⟩
  · obtain ⟨hsizes, hfits, rfl⟩ := layOut_eq_ok_iff.1 h
    exact runningSums_laidOut hsizes hfits

/-- The last place at which a routine of one byte fits is the last but one. -/
example (c : Code) (h : c.routines = [[.op .endRoutine]]) :
    c.layOut 4294967295 = .error (.codeEndBeyondSpace 4294967296) ∧
      (c.layOut 4294967294).map endOffset = .ok 4294967295 := by
  unfold layOut
  rw [h]
  exact ⟨rfl, rfl⟩

end Code

end ScriptImage
