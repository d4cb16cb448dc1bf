import Mathlib.Data.List.Induction
import ScriptImage.Proofs.CodeStream

/-!
# Handles and offsets

A routine is named by its place, and the index of a code leads from a stored offset back to
a place.  `Code.Reachable` lists all ways to come by code; each of them stores one offset per
routine and indexes the routines by these offsets, which is `Code.Indexed`:

    c.Reachable → c.Indexed                                            (Reachable.indexed)
    c.Indexed → (c.at? o = some id ↔ c.offsetOf? id = some o ∧
      ∀ later, id < later → c.offsetOf? later ≠ some o)                (Indexed.at?_eq_some_iff)

So an offset that two routines share belongs to the later one.  A layout gives every routine
an offset of its own, and then handles and offsets determine each other.
-/

namespace ScriptImage

namespace Code

/-! ## The index -/

/-- There is an offset for each routine, and the index is the one of these offsets. -/
structure Indexed (c : Code) : Prop where
  length : c.offsets.length = c.routines.length
  index : c.index = indexOf c.offsets

theorem indexOf_concat (offsets : List UInt32) (o : UInt32) :
    indexOf (offsets ++ [o]) = (o, offsets.length) :: indexOf offsets := by
  simp [indexOf, List.zipIdx_append]

/-- An index of offsets names the last routine that has the offset. -/
theorem lookup_indexOf_eq_some_iff {offsets : List UInt32} {o : UInt32} {id : Nat} :
    (indexOf offsets).lookup o = some id ↔
      offsets[id]? = some o ∧ ∀ later, id < later → offsets[later]? ≠ some o := by
  induction offsets using List.reverseRecOn with
  | nil => simp [indexOf]
  | append_singleton offsets last ih =>
    rw [indexOf_concat, List.lookup_cons]
    by_cases ho : o = last
    · subst ho
      rw [beq_self_eq_true]
      constructor
      · intro h
        obtain rfl := Option.some.inj h
        refine ⟨by simp, fun later hlater => ?_⟩
        rw [List.getElem?_eq_none (by simp; omega)]
        exact Option.some_ne_none o |>.symm
      · rintro ⟨hid, hlater⟩
        have hlt : id < (offsets ++ [o]).length := (List.getElem?_eq_some_iff.1 hid).1
        have hlast : ¬id < offsets.length := fun h => hlater offsets.length h (by simp)
        have : id = offsets.length := by
          simp at hlt
          omega
        rw [this]
    · have hbeq : (o == last) = false := beq_false_of_ne ho
      have hget : ∀ k : Nat, (offsets ++ [last])[k]? = some o ↔ offsets[k]? = some o := by
        intro k
        rcases Nat.lt_trichotomy k offsets.length with hk | rfl | hk
        · rw [List.getElem?_append_left hk]
        · simp [Ne.symm ho]
        · rw [List.getElem?_eq_none (by simp; omega), List.getElem?_eq_none (by omega)]
      simp only [hbeq, ih, hget, ne_eq]

theorem Indexed.at?_eq_some_iff {c : Code} (h : c.Indexed) {o : UInt32} {id : Nat} :
    c.at? o = some id ↔
      c.offsetOf? id = some o ∧ ∀ later, id < later → c.offsetOf? later ≠ some o := by
  unfold at? offsetOf?
  rw [h.index]
  exact lookup_indexOf_eq_some_iff

theorem Indexed.lt_of_at? {c : Code} (h : c.Indexed) {o : UInt32} {id : Nat}
    (hat : c.at? o = some id) : id < c.routines.length := by
  have hid : c.offsets[id]? = some o := (h.at?_eq_some_iff.1 hat).1
  rw [← h.length]
  exact (List.getElem?_eq_some_iff.1 hid).1

/-- If no two routines share an offset, handles and offsets determine each other. -/
theorem Indexed.at?_iff_of_nodup {c : Code} (h : c.Indexed) (hnodup : c.offsets.Nodup) {o : UInt32}
    {id : Nat} : c.at? o = some id ↔ c.offsetOf? id = some o := by
  rw [h.at?_eq_some_iff]
  constructor
  · rintro ⟨hid, -⟩
    exact hid
  · intro hid
    refine ⟨hid, fun later hlater hsame => ?_⟩
    have hlt : id < c.offsets.length := (List.getElem?_eq_some_iff.1 hid).1
    have heq : id = later := (List.getElem?_inj hlt hnodup).1 (hid.trans hsame.symm)
    omega

theorem Indexed.at?_eq_none_iff {c : Code} (h : c.Indexed) {o : UInt32} :
    c.at? o = none ↔ o ∉ c.offsets := by
  unfold at?
  rw [h.index]
  constructor
  · intro hnone ho
    obtain ⟨id, hid⟩ := exists_lookup_indexOf ho
    rw [hnone] at hid
    cases hid
  · intro ho
    cases hl : (indexOf c.offsets).lookup o with
    | none => rfl
    | some id => exact absurd (List.mem_of_getElem? (getElem?_of_lookup_indexOf hl)) ho

/-! ## Ways to come by code -/

/-- Code that starts out empty or is read, is then appended to, has its routines rewritten, and
is laid out, any number of times and in any order. -/
inductive Reachable : Code → Prop where
  | empty (base : UInt32) : Reachable (.empty base)
  | read {order : ByteOrder} {base : UInt32} {expected : List UInt32} {cur cur' : Cursor} {c : Code}
      (h : Code.read order base expected cur = .ok c cur') : Reachable c
  | push {c : Code} (h : Reachable c) (r : Routine) : Reachable (c.push r).1
  /-- Routines change at will, their number does not. -/
  | rewrite {c : Code} (h : Reachable c) {rs : List Routine} (hlen : rs.length = c.routines.length) :
      Reachable { c with routines := rs }
  | layOut {c c' : Code} {base : UInt32} (h : Reachable c) (hc : c.layOut base = .ok c') :
      Reachable c'

theorem Indexed.push {c : Code} (h : c.Indexed) (r : Routine) : (c.push r).1.Indexed where
  length := by simp [Code.push, h.length]
  index := by simp [Code.push, indexOf_concat, h.index, h.length]

theorem indexed_laidOut (c : Code) (base : UInt32) : (c.laidOut base).Indexed where
  length := length_startsFrom _ _
  index := rfl

theorem Reachable.indexed {c : Code} (h : c.Reachable) : c.Indexed := by
  induction h with
  | empty base => exact ⟨rfl, rfl⟩
  | read h =>
    obtain ⟨-, -, hlaid, -⟩ := read_eq_ok_iff.1 h
    rw [hlaid]
    exact indexed_laidOut _ _
  | push _ r ih => exact ih.push r
  | rewrite _ hlen ih => exact ⟨ih.length.trans hlen.symm, ih.index⟩
  | layOut _ hc _ =>
    obtain ⟨-, -, rfl⟩ := layOut_eq_ok_iff.1 hc
    exact indexed_laidOut _ _

/-! ## Laid-out code -/

/-- The stored offsets are the running sums of the sizes of the routines, from a position. -/
structure BackToBack (c : Code) (p : Nat) : Prop where
  length : c.offsets.length = c.routines.length
  offset : ∀ id < c.routines.length, ∃ o, c.offsetOf? id = some o ∧
    o.toNat = p + ((c.routines.take id).map Routine.size).sum

theorem getElem?_startsFrom {p id : Nat} {rs : List Routine} (h : id < rs.length) :
    (startsFrom p rs)[id]? = some (UInt32.ofNat (p + ((rs.take id).map Routine.size).sum)) := by
  induction rs generalizing p id with
  | nil => cases h
  | cons r rs ih =>
    cases id with
    | zero => rfl
    | succ id =>
      rw [startsFrom, List.getElem?_cons_succ, ih (Nat.lt_of_succ_lt_succ h), List.take_succ_cons,
        List.map_cons, List.sum_cons, Nat.add_assoc]

theorem sum_take_le (sizes : List Nat) (id : Nat) : (sizes.take id).sum ≤ sizes.sum := by
  conv => rhs; rw [← List.take_append_drop id sizes, List.sum_append]
  omega

theorem backToBack_laidOut {c : Code} {base : UInt32} (hfits : base.toNat + c.size ≤ maxOffset) :
    (c.laidOut base).BackToBack base.toNat := by
  refine ⟨length_startsFrom _ _, fun id hid => ⟨_, getElem?_startsFrom hid, ?_⟩⟩
  have hle := sum_take_le (c.routines.map Routine.size) id
  rw [← List.map_take] at hle
  unfold size at hfits
  exact toNat_ofNat_of_le (by omega)

/-- Routines that take room start at ascending offsets. -/
theorem pairwise_startsFrom {p : Nat} {rs : List Routine} (hsizes : ∀ r ∈ rs, r.size ≠ 0)
    (hfits : p + (rs.map Routine.size).sum ≤ maxOffset) : (startsFrom p rs).Pairwise (· < ·) := by
  induction rs generalizing p with
  | nil => exact List.Pairwise.nil
  | cons r rs ih =>
    rw [List.map_cons, List.sum_cons] at hfits
    have hr := hsizes r List.mem_cons_self
    refine List.pairwise_cons.2 ⟨fun o ho => ?_, ih (fun r' hr' => hsizes r' ?_) (by omega)⟩
    · have hle := le_of_mem_startsFrom (by omega) ho
      rw [UInt32.lt_iff_toNat_lt, toNat_ofNat_of_le (by omega)]
      omega
    · exact List.mem_cons_of_mem r hr'

/-- In laid-out code, handles and offsets determine each other. -/
theorem at?_laidOut_iff {c : Code} {base o : UInt32} {id : Nat}
    (hsizes : ∀ r ∈ c.routines, r.size ≠ 0) (hfits : base.toNat + c.size ≤ maxOffset) :
    (c.laidOut base).at? o = some id ↔ (c.laidOut base).offsetOf? id = some o :=
  (indexed_laidOut c base).at?_iff_of_nodup ((pairwise_startsFrom hsizes hfits).imp UInt32.ne_of_lt)

end Code

end ScriptImage
