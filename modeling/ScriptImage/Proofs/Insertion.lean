import ScriptImage.Proofs.Plans

/-!
# Insertion at places that are meant beforehand

Markers are inserted one after the other, and each one moves what stands behind it.  As the last place
is served first, no place is moved before its turn, and the outcome is as if all were inserted at
once:

    insertAll rs inserts = rs.mapIdx (woven inserts)

So the order in which the insertions are listed does not matter, and in place every one of them finds
the room it counts on.
-/

namespace ScriptImage

open Targets (insertAll Within)

namespace Targets

/-- Routine `j` with the instruction that is given for a place right before the one that stands there, or
at the end. -/
def woven (inserts : List (Slot × Instr)) (j : Nat) (r : Routine) : Routine :=
  (List.range (r.length + 1)).flatMap fun n => (inserts.lookup ⟨j, n⟩).toList ++ r[n]?.toList

end Targets

open Targets (woven)

variable {rs : List Routine} {inserts : List (Slot × Instr)}

/-! ## All at once -/

theorem insertFrom_eq_flatMap (new : Slot → List Instr) (slot : Slot) (r : Routine) :
    insertFrom new slot r =
      (List.range (r.length + 1)).flatMap fun n => new ⟨slot.routine, slot.index + n⟩ ++ r[n]?.toList := by
  induction r generalizing slot with
  | nil =>
    rw [List.length_nil, List.range_one, List.flatMap_singleton, List.getElem?_nil, Option.toList_none,
      List.append_nil]
    rfl
  | cons i r ih =>
    rw [insertFrom, ih, List.length_cons, List.range_succ_eq_map (n := r.length + 1), List.flatMap_cons,
      List.flatMap_map, List.getElem?_cons_zero, Option.toList_some, List.append_assoc]
    congr 2
    refine List.flatMap_congr fun n _ => ?_
    rw [List.getElem?_cons_succ, Slot.next, Nat.add_assoc, Nat.add_comm 1 n]

theorem insertAll_eq_woven (hslots : (inserts.map Prod.fst).Nodup) :
    insertAll rs inserts = rs.mapIdx (woven inserts) := by
  rw [insertAll_eq rs hslots, insertEach_eq_mapIdx]
  congr 1
  funext j r
  rw [insertFrom_eq_flatMap, woven]
  simp only [Nat.zero_add]

/-! ## Nothing is lost or added -/

theorem flatten_modify_perm {j n : Nat} {r : Routine} (hr : rs[j]? = some r) (hn : n ≤ r.length)
    (x : Instr) : (rs.modify j fun r => r.insertIdx n x).flatten.Perm (x :: rs.flatten) := by
  induction rs generalizing j with
  | nil => cases hr
  | cons r' rs ih =>
    cases j with
    | zero =>
      obtain rfl : r' = r := Option.some.inj hr
      exact (List.perm_insertIdx x r' hn).append_right rs.flatten
    | succ j => exact ((ih hr).append_left r').trans List.perm_middle

theorem foldl_insert_perm {l : List (Slot × Instr)} (h : ∀ x ∈ l, Within rs x.1) :
    (l.foldl (fun rs x => rs.modify x.1.routine fun r => r.insertIdx x.1.index x.2) rs).flatten.Perm
      (l.map Prod.snd ++ rs.flatten) := by
  induction l generalizing rs with
  | nil => exact List.Perm.refl _
  | cons x l ih =>
    obtain ⟨r, hr, hn⟩ := h x List.mem_cons_self
    -- no place is lost when a routine grows
    have hroom : ∀ y ∈ l, Within (rs.modify x.1.routine fun r => r.insertIdx x.1.index x.2) y.1 :=
      fun y hy =>
        InPlace.room_of_modify (InPlace.le_length_insertIdx x.1.index x.2) (h y (List.mem_cons_of_mem _ hy))
    refine (ih hroom).trans (((flatten_modify_perm hr hn x.2).append_left _).trans ?_)
    exact List.perm_middle

theorem insertAll_perm (h : ∀ x ∈ inserts, Within rs x.1) :
    (insertAll rs inserts).flatten.Perm (inserts.map Prod.snd ++ rs.flatten) := by
  have hsort := List.mergeSort_perm inserts fun a b => !a.1.before b.1
  refine (foldl_insert_perm fun x hx => h x (hsort.mem_iff.1 hx)).trans ?_
  exact (hsort.map Prod.snd).append_right _

/-! ## Order -/

theorem insertAll_of_perm {inserts' : List (Slot × Instr)} (hslots : (inserts.map Prod.fst).Nodup)
    (hperm : inserts.Perm inserts') : insertAll rs inserts' = insertAll rs inserts := by
  have hlookup : ∀ slot, inserts'.lookup slot = inserts.lookup slot := fun slot =>
    (lookup_perm hperm hslots slot).symm
  have hslots' : (inserts'.map Prod.fst).Nodup := (hperm.map Prod.fst).nodup_iff.1 hslots
  rw [insertAll_eq_woven hslots, insertAll_eq_woven hslots']
  unfold woven
  simp only [hlookup]

/-- **Insertion all at once.**  If the places are distinct and there, one insertion after the other leaves
each routine with its instructions in order and each given one right before what stood at its place,
or at the end.  Nothing is lost and nothing else is added, the order of the list does not matter, and
in place every insertion finds its place. -/
theorem insertAll_simultaneous (hslots : (inserts.map Prod.fst).Nodup)
    (hwithin : ∀ x ∈ inserts, Within rs x.1) :
    insertAll rs inserts = rs.mapIdx (woven inserts) ∧
      (insertAll rs inserts).flatten.Perm (inserts.map Prod.snd ++ rs.flatten) ∧
      (∀ inserts', inserts.Perm inserts' → insertAll rs inserts' = insertAll rs inserts) ∧
      ∀ image : Image, image.code.routines = rs →
        (inserts.mergeSort fun a b => !a.1.before b.1).forM InPlace.insert image =
          .ok ⟨⟩ (image.withRoutines (insertAll rs inserts)) := by
  refine ⟨insertAll_eq_woven hslots, insertAll_perm hwithin, fun _ => insertAll_of_perm hslots, ?_⟩
  rintro image rfl
  exact InPlace.forM_insert hwithin

/-- A marker with an identifier, at a place. -/
def markAt (j n : Nat) (id : UInt32) : Slot × Instr :=
  (⟨j, n⟩, .symbolic (.jumpTarget id))

/-- Code with an empty routine in the middle. -/
def threeRoutines : List Routine :=
  [[.op .jumpRelative, .op .endRoutine], [], [.op .endRoutine]]

/-- Places at the beginning, in the middle, at the end and in the empty routine, in no order. -/
def jumbled : List (Slot × Instr) :=
  [markAt 0 1 4, markAt 2 1 5, markAt 1 0 6, markAt 0 0 7, markAt 0 2 8]

theorem insertAll_jumbled :
    insertAll threeRoutines jumbled =
        [[(markAt 0 0 7).2, .op .jumpRelative, (markAt 0 1 4).2, .op .endRoutine, (markAt 0 2 8).2],
          [(markAt 1 0 6).2], [.op .endRoutine, (markAt 2 1 5).2]] ∧
      insertAll threeRoutines jumbled.reverse = insertAll threeRoutines jumbled := by
  have hslots : (jumbled.map Prod.fst).Nodup := by decide +kernel
  have hwithin : ∀ x ∈ jumbled, Within threeRoutines x.1 := by
    simp only [jumbled, markAt, List.forall_mem_cons]
    exact ⟨⟨_, rfl, by decide⟩, ⟨_, rfl, by decide⟩, ⟨_, rfl, by decide⟩, ⟨_, rfl, by decide⟩,
      ⟨_, rfl, by decide⟩, nofun⟩
  obtain ⟨hwoven, -, horder, -⟩ := insertAll_simultaneous hslots hwithin
  exact ⟨hwoven.trans (by decide +kernel), horder _ (List.reverse_perm jumbled).symm⟩

end ScriptImage
