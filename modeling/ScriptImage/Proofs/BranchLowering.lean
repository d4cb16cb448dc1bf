import Mathlib.Data.List.Nodup
import ScriptImage.Proofs.BranchPasses
import ScriptImage.Proofs.Placement

/-!
# References to branch markers become displacements

A branch and its marker are in one routine, so positions are counted from the beginning of the
routine; only the identifiers of markers must differ in all of the code.  `Lowerable` says, place
by place, when there is a displacement for every reference:

    (∃ answer, remove rs = .ok answer) ↔ Lowerable rs

The markers go, everything else stays in order, and the branch goes to where the marker stood:

    offset rs' branch' + size + d = offset rs marker + adjust

where `branch'` is the place of the branch after the removal.
-/

namespace ScriptImage.Branches

open Jumps (isMarker)
open Targets

/-- The position after the branch at a place, counted from the beginning of the routine. -/
def branchEnd (rs : List Routine) (slot : Slot) : Int :=
  offset rs slot + Opcode.branch.size

/-- Whether an instruction is a branch that refers to a marker. -/
def isReference : Instr → Bool
  | .symbolic s => s.branch?.isSome
  | .op _ => false

/-- What it takes to replace references by displacements. -/
structure Lowerable (rs : List Routine) : Prop where
  /-- No two branch markers share an identifier, also in different routines. -/
  distinct : (Routine.ids Instr.branchId? rs).Nodup
  /-- Every reference leads to a marker in its routine. The destination is not past the end of the
  routine, and a 16-bit word holds the distance to it. -/
  leads : ∀ slot c target adjust, instrAt? rs slot = some (.symbolic (.branchTo c target adjust)) →
    ∃ marker : Slot, marker.routine = slot.routine ∧
      instrAt? rs marker = some (.symbolic (.branchTarget target)) ∧
      offset rs marker + adjust.toNat ≤ extent rs slot ∧
      -2 ^ 15 ≤ offset rs marker + adjust.toNat - branchEnd rs slot ∧
      offset rs marker + adjust.toNat - branchEnd rs slot < 2 ^ 15

def lowered (d : Slot → Int16) (slot : Slot) : Instr → Instr
  | .symbolic s =>
    match s.branch? with
    | some (c, _, _) => .op (.branch c (d slot))
    | none => .symbolic s
  | .op o => .op o

variable {rs : List Routine}

theorem lowered_branchTo (d : Slot → Int16) (slot : Slot) (c : Condition) (target adjust : UInt32) :
    lowered d slot (.symbolic (.branchTo c target adjust)) = .op (.branch c (d slot)) := by
  simp only [lowered, branch?_branchTo]

theorem lowered_of_ne (d : Slot → Int16) (slot : Slot) {i : Instr} (h : isReference i = false) :
    lowered d slot i = i := by
  cases i with
  | op o => rfl
  | symbolic s =>
    rw [isReference, Option.isSome_eq_false_iff, Option.isNone_iff_eq_none] at h
    simp only [lowered, h]

theorem exists_of_isReference {i : Instr} (h : isReference i = true) :
    ∃ c target adjust, i = .symbolic (.branchTo c target adjust) := by
  cases i with
  | op o => cases h
  | symbolic s =>
    obtain ⟨⟨c, target, adjust⟩, hbranch⟩ := Option.isSome_iff_exists.1 h
    exact ⟨c, target, adjust, by rw [Symbolic.of_branch? hbranch]⟩

theorem isReference_branchTo (c : Condition) (target adjust : UInt32) :
    isReference (.symbolic (.branchTo c target adjust)) = true := by
  cases c <;> rfl

/-- The references are the instructions of the pass that are no markers. -/
theorem isReference_iff {i : Instr} :
    isReference i = true ↔ i.subject? = some .branches ∧ isMarker i = false := by
  constructor
  · intro h
    obtain ⟨c, target, adjust, rfl⟩ := exists_of_isReference h
    cases c <;> exact ⟨rfl, rfl⟩
  · rintro ⟨hs, hm⟩
    cases i with
    | op o => cases hs
    | symbolic s =>
      obtain ⟨c, target, adjust, hbranch⟩ := exists_branch? (Option.some.inj hs) hm
      rw [isReference, hbranch, Option.isSome_some]

theorem remaining_eq (rs : List Routine) :
    Routine.remaining .branches rs = rs.flatten.countP isReference := by
  rw [Routine.remaining_eq]
  congr 1
  funext i
  rw [Bool.eq_iff_iff, isReference_iff]
  simp

/-- What the instructions of the code by itself can refer to. -/
def frames (rs : List Routine) : Int → Routine → Frame :=
  (Image.bare 0 rs).frame

/-- A reference stands for the displacement from its end to the destination. -/
theorem denotes_iff (hdistinct : (Routine.ids Instr.branchId? rs).Nodup) {a : Place}
    (ha : a ∈ places 0 0 rs) {c : Condition} {target adjust : UInt32}
    (hi : a.instr = .symbolic (.branchTo c target adjust)) {o : Op} :
    Denotes (frameAt (frames rs) 0 rs a.slot.routine) a.position a.rest.feedsJump a.instr o ↔
      ∃ (d : Int16) (marker : Slot), o = .branch c d ∧ marker.routine = a.slot.routine ∧
        instrAt? rs marker = some (.symbolic (.branchTarget target)) ∧
        offset rs marker + adjust.toNat ≤ extent rs a.slot ∧
        branchEnd rs a.slot + d.toInt = offset rs marker + adjust.toNat := by
  have hF := framed (Image.bare 0 rs)
  have hsize : ∀ d, ((Op.branch c d).size : Int) = Opcode.branch.size := by
    intro d
    cases c <;> rfl
  have hposition : a.position = position 0 rs ⟨a.slot.routine, 0⟩ + offset rs a.slot := by
    rw [position_of_mem_places ha, position_eq_offset]
  have hnodup : ((Routine.marksFrom Instr.branchId? 0 (rs[a.slot.routine]?.getD [])).map Prod.fst).Nodup := by
    rw [Routine.map_fst_marksFrom]
    cases hr : rs[a.slot.routine]? with
    | none => exact List.nodup_nil
    | some r => exact (List.nodup_flatMap.1 hdistinct).1 r (List.mem_of_getElem? hr)
  rw [hi]
  constructor
  · intro h
    obtain ⟨c', target', adjust', q, d, hbranch, hmark, hend, hsum, rfl⟩ :=
      h.branch_of_subject (Symbolic.subject_of_branch? (branch?_branchTo c target adjust))
    cases (branch?_branchTo c target adjust).symm.trans hbranch
    rw [frameAt, frames, hF.branches] at hmark
    rw [frameAt, frames, hF.size] at hend
    rw [frameAt, frames, hF.start, hposition, hsize] at hsum
    obtain ⟨marker, hroutine, hmarker, rfl⟩ := (mem_marksFrom_iff _).1 (mem_of_lookup hmark)
    refine ⟨d, marker, rfl, hroutine, hmarker, ?_, ?_⟩
    · show _ ≤ Routine.size (rs[a.slot.routine]?.getD [])
      omega
    · rw [branchEnd]
      omega
  · rintro ⟨d, marker, rfl, hroutine, hmarker, hend, hsum⟩
    have hmark : (frameAt (frames rs) 0 rs a.slot.routine).branches.lookup target =
        some (offset rs marker : Int) := by
      rw [frameAt, frames, hF.branches]
      exact (lookup_eq_some_iff_mem hnodup).2 ((mem_marksFrom_iff _).2 ⟨marker, hroutine, hmarker, rfl⟩)
    refine Denotes.branch (branch?_branchTo c target adjust) hmark ?_ ?_
    · rw [frameAt, frames, hF.size]
      rw [extent] at hend
      omega
    · rw [frameAt, frames, hF.start, hposition, hsize]
      rw [branchEnd] at hsum
      omega

/-- Code is lowerable exactly if every reference stands for something. -/
theorem lowerable_iff : Lowerable rs ↔ (Routine.ids Instr.branchId? rs).Nodup ∧
    ∀ a ∈ places 0 0 rs, isReference a.instr = true → ∃ o,
      Denotes (frameAt (frames rs) 0 rs a.slot.routine) a.position a.rest.feedsJump a.instr o := by
  constructor
  · intro h
    refine ⟨h.distinct, fun a ha hi => ?_⟩
    obtain ⟨c, target, adjust, hi⟩ := exists_of_isReference hi
    obtain ⟨marker, hroutine, hmarker, hend, hlow, hhigh⟩ :=
      h.leads a.slot c target adjust (by rw [instrAt?_of_mem_places ha, hi])
    let d := Int16.ofInt (offset rs marker + adjust.toNat - branchEnd rs a.slot)
    refine ⟨.branch c d, (denotes_iff h.distinct ha hi).2 ⟨d, marker, rfl, hroutine, hmarker, hend, ?_⟩⟩
    rw [Int16.toInt_ofInt_of_le (by omega) (by omega)]
    omega
  · rintro ⟨hdistinct, h⟩
    refine ⟨hdistinct, fun slot c target adjust hslot => ?_⟩
    obtain ⟨a, ha, rfl, hi⟩ := exists_place 0 hslot
    obtain ⟨o, ho⟩ := h a ha (by rw [hi, isReference_branchTo])
    obtain ⟨d, marker, -, hroutine, hmarker, hend, hsum⟩ := (denotes_iff hdistinct ha hi).1 ho
    have hlow := d.le_toInt
    have hhigh := d.toInt_lt
    exact ⟨marker, hroutine, hmarker, hend, by omega, by omega⟩

/-- Every reference stands for the branch of its kind with the displacement given for its place. -/
def Displaced (rs : List Routine) (d : Slot → Int16) : Prop :=
  ∀ a ∈ places 0 0 rs, ∀ c target adjust, a.instr = .symbolic (.branchTo c target adjust) →
    Denotes (frameAt (frames rs) 0 rs a.slot.routine) a.position a.rest.feedsJump a.instr
      (.branch c (d a.slot))

theorem Lowerable.exists_displaced (h : Lowerable rs) : ∃ d, Displaced rs d := by
  obtain ⟨hdistinct, hdenotes⟩ := lowerable_iff.1 h
  have hplace : ∀ a ∈ places 0 0 rs, True → ∃ d : Int16, ∀ c target adjust,
      a.instr = .symbolic (.branchTo c target adjust) →
        Denotes (frameAt (frames rs) 0 rs a.slot.routine) a.position a.rest.feedsJump a.instr
          (.branch c d) := by
    intro a ha _
    by_cases hi : isReference a.instr = true
    · obtain ⟨o, ho⟩ := hdenotes a ha hi
      obtain ⟨c, target, adjust, hi⟩ := exists_of_isReference hi
      obtain ⟨d, -, rfl, -⟩ := (denotes_iff hdistinct ha hi).1 ho
      refine ⟨d, fun c' target' adjust' hi' => ?_⟩
      rw [hi, Instr.symbolic.injEq] at hi'
      have hbranch := congrArg Symbolic.branch? hi'
      rw [branch?_branchTo, branch?_branchTo] at hbranch
      cases hbranch
      exact ho
    · exact ⟨0, fun c target adjust hi' => absurd (hi' ▸ isReference_branchTo c target adjust) hi⟩
  obtain ⟨d, hd⟩ := exists_by_slot hplace
  exact ⟨d, fun a ha => hd a ha trivial⟩

section Displaced

variable {d : Slot → Int16} (hdistinct : (Routine.ids Instr.branchId? rs).Nodup) (h : Displaced rs d)

include hdistinct h

theorem remove_of_displaced : remove rs = .ok (rs.flatten.countP isReference,
    (replaceAll (lowered d) 0 rs).map fun r => r.filter fun i => !isTarget i) := by
  refine (remove_eq_ok_iff (framed (Image.bare 0 rs)) 0).2 ⟨hdistinct, (remaining_eq rs).symm, ?_⟩
  refine along_lowered (fun _ => isMarker_of_isTarget) isTarget_iff ?_ ?_
  · intro slot m hm
    refine lowered_of_ne d slot ?_
    rw [← Bool.not_eq_true, isReference_iff, hm]
    exact fun hi => nomatch hi.2
  · intro a ha hm
    by_cases hi : isReference a.instr = true
    · obtain ⟨c, target, adjust, hbranch⟩ := exists_of_isReference hi
      refine Or.inr ⟨(isReference_iff.1 hi).1, _, h a ha c target adjust hbranch, ?_⟩
      rw [hbranch, lowered_branchTo]
    · refine Or.inl ⟨fun hs => hi (isReference_iff.2 ⟨hs, hm⟩), ?_⟩
      exact lowered_of_ne d _ (by simpa using hi)

/-- The branch goes to where the marker stood, plus the adjustment. -/
theorem lands_of_displaced {slot marker : Slot} {c : Condition} {target adjust : UInt32}
    (hslot : instrAt? rs slot = some (.symbolic (.branchTo c target adjust)))
    (hmarker : instrAt? rs marker = some (.symbolic (.branchTarget target))) :
    branchEnd rs slot + (d slot).toInt = offset rs marker + adjust.toNat := by
  obtain ⟨a, ha, rfl, hi⟩ := exists_place 0 hslot
  obtain ⟨d', marker', hd, -, hmarker', -, hsum⟩ :=
    (denotes_iff hdistinct ha hi).1 (h a ha c target adjust hi)
  obtain rfl : marker = marker' := eq_of_nodup_ids hdistinct hmarker rfl hmarker' rfl
  obtain rfl : d a.slot = d' := by cases c <;> cases hd <;> rfl
  exact hsum

end Displaced

theorem size_lowered (d : Slot → Int16) (slot : Slot) (i : Instr) : (lowered d slot i).size = i.size := by
  by_cases hi : isReference i = true
  · obtain ⟨c, target, adjust, rfl⟩ := exists_of_isReference hi
    rw [lowered_branchTo]
    exact (size_branchTo c target adjust (d slot)).symm
  · rw [lowered_of_ne d slot (by simpa using hi)]

theorem isTarget_lowered (d : Slot → Int16) (slot : Slot) (i : Instr) :
    isTarget (lowered d slot i) = isTarget i := by
  by_cases hi : isReference i = true
  · obtain ⟨c, target, adjust, rfl⟩ := exists_of_isReference hi
    rw [lowered_branchTo]
    cases c <;> rfl
  · rw [lowered_of_ne d slot (by simpa using hi)]

/-- What a removal does that goes through: it answers the number of references, and the code that
results has a branch of the same kind in the place of each and no branch markers; all else is
unchanged and in order. -/
structure Removed (rs : List Routine) (d : Slot → Int16) (n : Nat) (rs' : List Routine) : Prop where
  count : n = rs.flatten.countP isReference
  result : rs' = (replaceAll (lowered d) 0 rs).map fun r => r.filter fun i => !isTarget i
  /-- In the result, the branch goes to the position at which the marker stood, plus the adjustment. -/
  lands : ∀ slot c target adjust marker,
    instrAt? rs slot = some (.symbolic (.branchTo c target adjust)) →
    instrAt? rs marker = some (.symbolic (.branchTarget target)) →
    instrAt? rs' (slot.without isTarget rs) = some (.op (.branch c (d slot))) ∧
      branchEnd rs' (slot.without isTarget rs) + (d slot).toInt = offset rs marker + adjust.toNat

/-- **Removing lowers edited branches correctly.** Whatever the code is, the markers of branches can be
removed exactly if it is `Lowerable`, and the result is what `Removed` says. -/
theorem remove_lowers_branches (rs : List Routine) :
    ((∃ answer, remove rs = .ok answer) ↔ Lowerable rs) ∧
      ∀ n rs', remove rs = .ok (n, rs') → ∃ d, Removed rs d n rs' := by
  have hlowerable : (∃ answer, remove rs = .ok answer) → Lowerable rs := by
    rintro ⟨⟨n, rs'⟩, h⟩
    obtain ⟨hdistinct, -, halong⟩ := (remove_eq_ok_iff (framed (Image.bare 0 rs)) 0).1 h
    refine lowerable_iff.2 ⟨hdistinct, fun a ha hi => ?_⟩
    obtain ⟨hs, hm⟩ := isReference_iff.1 hi
    exact exists_denotes_of_along halong ha hm hs
  refine ⟨⟨hlowerable, fun h => ?_⟩, ?_⟩
  · obtain ⟨d, hd⟩ := h.exists_displaced
    exact ⟨_, remove_of_displaced h.distinct hd⟩
  · intro n rs' hrun
    have h := hlowerable ⟨_, hrun⟩
    obtain ⟨d, hd⟩ := h.exists_displaced
    rw [remove_of_displaced h.distinct hd] at hrun
    cases hrun
    refine ⟨d, rfl, rfl, ?_⟩
    intro slot c target adjust marker hslot hmarker
    rw [← without_replaceAll (isTarget_lowered d)]
    constructor
    · refine instrAt?_without ?_ ?_
      · rw [instrAt?_replaceAll, hslot, Option.map_some, lowered_branchTo]
      · cases c <;> rfl
    · -- neither the replacing nor the dropping changes how far a place is from the beginning
      rw [branchEnd, offset_without fun _ => isMarker_of_isTarget, offset_replaceAll (size_lowered d)]
      exact lands_of_displaced h.distinct hd hslot hmarker

/-- A branch back over a jump marker to the beginning of its routine, and in the next routine one to
the end, past a marker that shares its identifier with a jump marker. -/
def editedSample : List Routine :=
  [[.symbolic (.branchTarget 7), .op .jumpRelative, .symbolic (.jumpTarget 3),
      .symbolic (.branchTo .ifFalse 7 1), .op .endRoutine],
    [.symbolic (.branchTo .always 3 0), .op (.pushInt32 5), .op .endRoutine, .symbolic (.branchTarget 3)]]

theorem remove_lowers_branches_edited :
    let rs' : List Routine :=
      [[.op .jumpRelative, .symbolic (.jumpTarget 3), .op (.branch .ifFalse (-3)), .op .endRoutine],
        [.op (.branch .always 6), .op (.pushInt32 5), .op .endRoutine]]
    remove editedSample = .ok (2, rs') ∧ Lowerable editedSample ∧ ∃ d, Removed editedSample d 2 rs' := by
  intro rs'
  have hrun : remove editedSample = .ok (2, rs') := by decide +kernel
  obtain ⟨hlowerable, hremoved⟩ := remove_lowers_branches editedSample
  exact ⟨hrun, hlowerable.1 ⟨_, hrun⟩, hremoved 2 rs' hrun⟩

end ScriptImage.Branches
