import Mathlib.Data.Set.Card
import ScriptImage.Proofs.BranchPasses
import ScriptImage.Proofs.JumpPasses
import ScriptImage.Proofs.Placement

/-!
# New markers

New markers take the identifiers above all that occur.  Each target position takes one, at its first
use, so handing them out fails exactly if the last one would not be a 32-bit word:

    (∃ ids', ids.takeAll targets = .ok ids') ↔ ids.next + (ids.missing targets).card ≤ maxOffset

Markers that are inserted stand before the instruction of their place, or at the end of a routine, and
move nothing.  Since their identifiers are new, they can be told from the old ones and dropped again.
-/

namespace ScriptImage

open Jumps (isMarker)
open Targets
open Branches (Ids Grows)

variable {rs : List Routine} {targets : List Int}

/-! ## The first free identifier -/

/-- One more than the highest identifier of a marker or a reference, and 0 without any. -/
def firstFree (rs : List Routine) : Nat :=
  match (Routine.ids Instr.targetId? rs).max? with
  | none => 0
  | some highest => highest.toNat + 1

theorem nextId_eq_ok_iff {next : UInt32} :
    nextId rs = .ok next ↔ firstFree rs ≤ maxOffset ∧ next.toNat = firstFree rs := by
  have hids : (rs.flatMap fun r => r.filterMap Instr.targetId?) = Routine.ids Instr.targetId? rs := rfl
  rw [nextId, firstFree, hids]
  cases (Routine.ids Instr.targetId? rs).max? with
  | none =>
    simp only [Except.ok.injEq]
    refine ⟨?_, fun h => (UInt32.toNat_inj.1 h.2).symm⟩
    rintro rfl
    exact ⟨Nat.zero_le _, rfl⟩
  | some highest => exact successor_eq_ok_iff

theorem exists_nextId_of_le (h : firstFree rs ≤ maxOffset) : ∃ next, nextId rs = .ok next :=
  ⟨UInt32.ofNat (firstFree rs), nextId_eq_ok_iff.2 ⟨h, Code.toNat_ofNat_of_le h⟩⟩

/-- No identifier of a marker is free. -/
theorem lt_firstFree {pick : Instr → Option UInt32}
    (hpick : ∀ i id, pick i = some id → i.targetId? = some id) {id : UInt32}
    (hid : id ∈ Routine.ids pick rs) : id.toNat < firstFree rs := by
  have hmem : id ∈ Routine.ids Instr.targetId? rs := by
    obtain ⟨r, hr, hid⟩ := List.mem_flatMap.1 hid
    obtain ⟨i, hi, hid⟩ := List.mem_filterMap.1 hid
    exact List.mem_flatMap.2 ⟨r, hr, List.mem_filterMap.2 ⟨i, hi, hpick i id hid⟩⟩
  unfold firstFree
  cases hmax : (Routine.ids Instr.targetId? rs).max? with
  | none =>
    rw [List.max?_eq_none_iff.1 hmax] at hmem
    cases hmem
  | some highest => exact Nat.lt_succ_of_le (le_of_max? hmax hmem)

/-! ## Handing out identifiers -/

/-- An identifier for each of some target positions, in order. -/
def Branches.Ids.takeAll : Ids → List Int → Except Error Ids
  | ids, [] => .ok ids
  | ids, target :: rest => do
    let (ids', _) ← ids.of target
    ids'.takeAll rest

/-- The target positions that have an identifier. -/
def Branches.Ids.known (ids : Ids) : Finset Int :=
  (ids.assigned.map Prod.fst).toFinset

/-- The target positions that are still to get an identifier. -/
def Branches.Ids.missing (ids : Ids) (targets : List Int) : Finset Int :=
  targets.toFinset \ ids.known

theorem mem_known_iff {ids : Ids} {target : Int} :
    target ∈ ids.known ↔ ∃ id, (target, id) ∈ ids.assigned := by
  simp [Ids.known]

theorem not_mem_known_of_lookup {ids : Ids} {target : Int} (h : ids.assigned.lookup target = none) :
    target ∉ ids.known := by
  intro hmem
  obtain ⟨id, hid⟩ := mem_known_iff.1 hmem
  have := List.lookup_eq_none_iff.1 h _ hid
  simp at this

/-- One step: a known position costs nothing, and a new one takes the next identifier. -/
theorem of_eq_ok_iff {ids ids' : Ids} {target : Int} {id : UInt32} :
    ids.of target = .ok (ids', id) ↔
      (ids.assigned.lookup target = some id ∧ ids' = ids) ∨
        (ids.assigned.lookup target = none ∧ ids.next.toNat + 1 ≤ maxOffset ∧
          ids'.next.toNat = ids.next.toNat + 1 ∧
          ids'.assigned = ids.assigned ++ [(target, ids.next)] ∧ id = ids.next) := by
  unfold Ids.of
  cases hlookup : ids.assigned.lookup target with
  | some id' =>
    simp only [Except.ok.injEq, Prod.mk.injEq, Option.some.injEq]
    constructor
    · rintro ⟨rfl, rfl⟩
      exact Or.inl ⟨rfl, rfl⟩
    · rintro (⟨rfl, rfl⟩ | ⟨h, -⟩)
      · exact ⟨rfl, rfl⟩
      · cases h
  | none =>
    simp only [reduceCtorEq, false_and, true_and, false_or]
    rw [Run.except_bind_eq_ok_iff]
    constructor
    · rintro ⟨next, hnext, h⟩
      cases h
      obtain ⟨hle, hsucc⟩ := successor_eq_ok_iff.1 hnext
      exact ⟨hle, hsucc, rfl, rfl⟩
    · rintro ⟨hle, hsucc, hassigned, rfl⟩
      obtain ⟨next, assigned⟩ := ids'
      obtain rfl : assigned = _ := hassigned
      exact ⟨next, successor_eq_ok_iff.2 ⟨hle, hsucc⟩, rfl⟩

/-- A step reduces what is missing by what it costs. -/
theorem of_spec_known {ids ids' : Ids} {target : Int} {id : UInt32} (h : ids.of target = .ok (ids', id))
    (rest : List Int) : ids'.known = insert target ids.known ∧
      ids.next.toNat + (ids.missing (target :: rest)).card = ids'.next.toNat + (ids'.missing rest).card := by
  rcases of_eq_ok_iff.1 h with ⟨hlookup, rfl⟩ | ⟨hlookup, -, hsucc, hassigned, -⟩
  · have hmem : target ∈ ids'.known := mem_known_iff.2 ⟨id, mem_of_lookup hlookup⟩
    rw [Finset.insert_eq_of_mem hmem, Ids.missing, List.toFinset_cons, Finset.insert_sdiff_of_mem _ hmem]
    exact ⟨rfl, rfl⟩
  · have hnew := not_mem_known_of_lookup hlookup
    have hknown : ids'.known = insert target ids.known := by
      rw [Ids.known, hassigned, List.map_append, List.toFinset_append, Finset.union_comm]
      rfl
    have hsplit : insert target rest.toFinset \ ids.known =
        insert target (rest.toFinset \ insert target ids.known) := by
      ext q
      simp only [Finset.mem_sdiff, Finset.mem_insert, not_or]
      by_cases hq : q = target
      · simp [hq, hnew]
      · simp [hq]
    refine ⟨hknown, ?_⟩
    rw [Ids.missing, Ids.missing, hknown, List.toFinset_cons, hsplit,
      Finset.card_insert_of_notMem (by simp)]
    omega

theorem Branches.Ids.takeAll_spec {ids ids' : Ids} (h : ids.takeAll targets = .ok ids') :
    Grows ids ids' ∧ ids'.known = ids.known ∪ targets.toFinset ∧
      ids'.next.toNat = ids.next.toNat + (ids.missing targets).card := by
  induction targets generalizing ids with
  | nil =>
    cases h
    simp [Grows.refl, Ids.missing]
  | cons target targets ih =>
    obtain ⟨⟨ids₁, id⟩, hof, h⟩ := Run.except_bind_eq_ok_iff.1 h
    obtain ⟨hgrows, hknown, hnext⟩ := ih h
    obtain ⟨hfirst, hcost⟩ := of_spec_known hof targets
    refine ⟨(Branches.of_spec hof).1.trans hgrows, ?_, by omega⟩
    rw [hknown, hfirst, List.toFinset_cons, Finset.insert_union, Finset.union_insert]

theorem Branches.Ids.exists_takeAll (ids : Ids)
    (h : ids.next.toNat + (ids.missing targets).card ≤ maxOffset) :
    ∃ ids', ids.takeAll targets = .ok ids' := by
  induction targets generalizing ids with
  | nil => exact ⟨ids, rfl⟩
  | cons target targets ih =>
    have hstep : ∃ x, ids.of target = .ok x := by
      cases hlookup : ids.assigned.lookup target with
      | some id => exact ⟨(ids, id), of_eq_ok_iff.2 (Or.inl ⟨hlookup, rfl⟩)⟩
      | none =>
        have hnew : target ∈ ids.missing (target :: targets) :=
          Finset.mem_sdiff.2 ⟨by simp, not_mem_known_of_lookup hlookup⟩
        have hpos := Finset.card_pos.2 ⟨target, hnew⟩
        have hle : ids.next.toNat + 1 ≤ maxOffset := by omega
        exact ⟨(⟨UInt32.ofNat (ids.next.toNat + 1), ids.assigned ++ [(target, ids.next)]⟩, ids.next),
          of_eq_ok_iff.2 (Or.inr ⟨hlookup, hle, Code.toNat_ofNat_of_le hle, rfl, rfl⟩)⟩
    obtain ⟨⟨ids₁, id⟩, hof⟩ := hstep
    obtain ⟨ids', hrest⟩ := ih ids₁ (by rw [← (of_spec_known hof targets).2]; exact h)
    exact ⟨ids', Run.except_bind_eq_ok_iff.2 ⟨_, hof, hrest⟩⟩

/-- As many identifiers are handed out as there are targets. -/
theorem Branches.Ids.ncard_eq (next : UInt32) {s : Set Int} (h : ∀ q, q ∈ targets ↔ q ∈ s) :
    s.ncard = ((Ids.mk next []).missing targets).card := by
  have hset : s = ((Ids.mk next []).missing targets : Set Int) := by
    ext q
    rw [← h]
    simp [Ids.missing, Ids.known]
  rw [hset, Set.ncard_coe_finset]

/-- Handing out identifiers for jumps does the same. -/
theorem Jumps.assignIds_eq_ok_iff {next : UInt32} {assigned assigned' : List (Int × UInt32)} :
    Jumps.assignIds next assigned targets = .ok assigned' ↔
      ∃ next', (Ids.mk next assigned).takeAll targets = .ok ⟨next', assigned'⟩ := by
  induction targets generalizing next assigned with
  | nil =>
    rw [Jumps.assignIds, Ids.takeAll, Except.ok.injEq]
    constructor
    · rintro rfl
      exact ⟨next, rfl⟩
    · rintro ⟨next', h⟩
      cases h
      rfl
  | cons target targets ih =>
    rw [Jumps.assignIds, Ids.takeAll, Ids.of]
    cases hlookup : assigned.lookup target with
    | some id => exact ih
    | none =>
      simp only
      cases hnext : successor next with
      | error e =>
        refine iff_of_false nofun ?_
        rintro ⟨next', h⟩
        cases h
      | ok next' => exact ih

/-- The number of the members of a set that a list enumerates. -/
theorem ncard_eq_length {α : Type} [DecidableEq α] {l : List α} {s : Set α} (hl : l.Nodup)
    (hmem : ∀ x, x ∈ l ↔ x ∈ s) : s.ncard = l.length := by
  have hs : s = (l.toFinset : Set α) := by
    ext x
    rw [Finset.mem_coe, List.mem_toFinset, hmem]
  rw [hs, Set.ncard_coe_finset, List.toFinset_card_of_nodup hl]

/-- What is determined can be given as a function. -/
theorem exists_partial {α β : Type} {P : α → β → Prop} (h : ∀ a b b', P a b → P a b' → b = b') :
    ∃ f : α → Option β, ∀ a b, f a = some b ↔ P a b := by
  classical
  refine ⟨fun a => if ha : ∃ b, P a b then some ha.choose else none, fun a b => ?_⟩
  by_cases ha : ∃ b, P a b
  · simp only [dif_pos ha, Option.some.injEq]
    constructor
    · rintro rfl
      exact ha.choose_spec
    · exact h a _ _ ha.choose_spec
  · simp only [dif_neg ha, reduceCtorEq, false_iff]
    exact fun hb => ha ⟨b, hb⟩

/-! ## Markers by place -/

/-- What is put before a place. -/
def newMarkers (mark : UInt32 → Instr) (marks : List (Slot × UInt32)) (slot : Slot) : List Instr :=
  ((marks.lookup slot).map mark).toList

/-- Markers for code: at most one before a place, with different identifiers that do not occur. -/
structure Fresh (rs : List Routine) (marks : List (Slot × UInt32)) : Prop where
  slots : (marks.map Prod.fst).Nodup
  ids : (marks.map Prod.snd).Nodup
  free : ∀ m ∈ marks, firstFree rs ≤ m.2.toNat

section Markers

variable {mark : UInt32 → Instr} {marks : List (Slot × UInt32)}

theorem mem_newMarkers_iff (hslots : (marks.map Prod.fst).Nodup) {slot : Slot} {m : Instr} :
    m ∈ newMarkers mark marks slot ↔ ∃ id, (slot, id) ∈ marks ∧ mark id = m := by
  rw [newMarkers, Option.mem_toList, Option.map_eq_some_iff]
  refine exists_congr fun id => and_congr_left fun _ => ?_
  exact lookup_eq_some_iff_mem hslots

/-- All at once, the markers are inserted each before its place. -/
theorem insertAll_eq_newMarkers (mark : UInt32 → Instr) (hslots : (marks.map Prod.fst).Nodup)
    (rs : List Routine) :
    insertAll rs (marks.map fun m => (m.1, mark m.2)) = insertEach (newMarkers mark marks) 0 rs := by
  have hfst : (marks.map fun m => (m.1, mark m.2)).map Prod.fst = marks.map Prod.fst := by
    rw [List.map_map]
    rfl
  rw [insertAll_eq rs (by rwa [hfst])]
  congr 1
  funext slot
  rw [newMarkers]
  congr 1
  clear hslots hfst
  induction marks with
  | nil => rfl
  | cons m marks ih =>
    rw [List.map_cons, List.lookup_cons, List.lookup_cons, ih]
    split <;> rfl

/-- Markers for target positions, each at the place that is found for its position. -/
theorem exists_marks_of_mapM (mark : UInt32 → Instr) {find : Int → Except Error Slot}
    {locate : Slot → Int} {fits : Slot → Prop} {low next : UInt32} {ids : List (Int × UInt32)}
    {inserts : List (Slot × Instr)}
    (hfind : ∀ slot, fits slot → find (locate slot) = .ok slot) (hids : Assigned low next ids)
    (hfits : ∀ x ∈ ids, ∃ slot, fits slot ∧ locate slot = x.1)
    (h : ids.mapM (fun x => do
      let slot ← find x.1
      return (slot, mark x.2)) = .ok inserts) :
    ∃ marks : List (Slot × UInt32), inserts = marks.map (fun m => (m.1, mark m.2)) ∧
      marks.length = ids.length ∧ (marks.map Prod.fst).Nodup ∧ (marks.map Prod.snd).Nodup ∧
      (∀ m ∈ marks, low.toNat ≤ m.2.toNat ∧ m.2.toNat < next.toNat) ∧
      ∀ slot id, (slot, id) ∈ marks ↔ fits slot ∧ (locate slot, id) ∈ ids := by
  -- what is found for a position, made total
  let place := fun q => (find q).toOption.getD ⟨0, 0⟩
  have hplace : ∀ slot, fits slot → place (locate slot) = slot := by
    intro slot hslot
    simp only [place, hfind slot hslot]
    rfl
  have hmark : ∀ x ∈ ids, fits (place x.1) ∧ locate (place x.1) = x.1 := by
    intro x hx
    obtain ⟨slot, hslot, hlocate⟩ := hfits x hx
    rw [← hlocate, hplace slot hslot]
    exact ⟨hslot, rfl⟩
  refine ⟨ids.map fun x => (place x.1, x.2), ?_, List.length_map _, ?_, ?_, ?_, fun slot id => ?_⟩
  · have hmap := Run.map_eq_of_mapM (k := id) (g := fun x : Int × UInt32 => (place x.1, mark x.2)) ?_ h
    · rw [List.map_map]
      rwa [List.map_id] at hmap
    · intro x y hy
      obtain ⟨slot, hslot, hlast⟩ := Run.except_bind_eq_ok_iff.1 hy
      cases hlast
      simp only [place, hslot]
      rfl
  · refine List.Nodup.of_map locate ?_
    have hpositions : ((ids.map fun x => (place x.1, x.2)).map Prod.fst).map locate = ids.map Prod.fst := by
      rw [List.map_map, List.map_map]
      exact List.map_congr_left fun x hx => (hmark x hx).2
    rw [hpositions]
    exact hids.targets
  · rw [List.map_map]
    exact hids.distinct
  · intro m hm
    obtain ⟨x, hx, rfl⟩ := List.mem_map.1 hm
    exact hids.range x hx
  · rw [List.mem_map]
    constructor
    · rintro ⟨x, hx, heq⟩
      cases heq
      obtain ⟨hslot, hlocate⟩ := hmark x hx
      rw [hlocate]
      exact ⟨hslot, hx⟩
    · rintro ⟨hslot, hid⟩
      exact ⟨_, hid, by rw [hplace slot hslot]⟩

/-- Dropping what was inserted leaves the rest. -/
theorem filter_insertEach {new : Slot → List Instr} {q : Instr → Bool}
    (hnew : ∀ slot, ∀ m ∈ new slot, q m = false) (hold : ∀ r ∈ rs, ∀ i ∈ r, q i = true)
    (k : Nat) :
    (insertEach new k rs).map (List.filter q) = rs := by
  have hgone : ∀ slot, (new slot).filter q = [] := fun slot =>
    List.filter_eq_nil_iff.2 fun m hm => by simp [hnew slot m hm]
  have hroutine : ∀ (r : Routine) slot, (∀ i ∈ r, q i = true) →
      (insertFrom new slot r).filter q = r := by
    intro r
    induction r with
    | nil => exact fun slot _ => hgone slot
    | cons i r ih =>
      intro slot hr
      rw [insertFrom, List.filter_append, hgone, List.nil_append,
        List.filter_cons_of_pos (hr i List.mem_cons_self), ih _ fun j hj => hr j (List.mem_cons_of_mem _ hj)]
  induction rs generalizing k with
  | nil => rfl
  | cons r rs ih =>
    rw [insertEach, List.map_cons, hroutine r _ (hold r List.mem_cons_self),
      ih fun r' hr' => hold r' (List.mem_cons_of_mem _ hr')]

theorem getElem?_insertEach (new : Slot → List Instr) (rs : List Routine) (j : Nat) :
    (insertEach new 0 rs)[j]? = rs[j]?.map (insertFrom new ⟨j, 0⟩) := by
  rw [insertEach_eq_mapIdx, List.getElem?_mapIdx]

/-- In the result, a marker is as far from the beginning of its routine as its place was. -/
theorem mem_marksFrom_insertEach {pick : Instr → Option UInt32} (hmark : ∀ id, isMarker (mark id) = true)
    (hpick : ∀ id, pick (mark id) = some id) (hslots : (marks.map Prod.fst).Nodup) {slot : Slot} {id : UInt32}
    (hm : (slot, id) ∈ marks) (hwithin : Within rs slot) : (id, (offset rs slot : Int)) ∈
      Routine.marksFrom pick 0 ((insertEach (newMarkers mark marks) 0 rs)[slot.routine]?.getD []) := by
  obtain ⟨r, hr, hn⟩ := hwithin
  have hnew : ∀ s, ∀ m ∈ newMarkers mark marks s, isMarker m = true := by
    intro s m hm
    obtain ⟨id, -, rfl⟩ := (mem_newMarkers_iff hslots).1 hm
    exact hmark id
  have hin : mark id ∈ newMarkers mark marks ⟨slot.routine, 0 + slot.index⟩ := by
    rw [Nat.zero_add]
    exact (mem_newMarkers_iff hslots).2 ⟨id, hm, rfl⟩
  have hposition :=
    @mem_marksFrom_of_new pick _ hnew ⟨slot.routine, 0⟩ 0 r slot.index hn _ hin id (hpick id)
  rw [getElem?_insertEach, hr, Option.map_some, Option.getD_some, offset, hr, Option.getD_some]
  rwa [Int.zero_add] at hposition

end Markers

end ScriptImage
