import ScriptImage.Proofs.BranchLowering
import ScriptImage.Proofs.FreshIds
import ScriptImage.Proofs.Landing

/-!
# Displacements become references to branch markers

When markers of branches are added, every displacement gives way to a reference.  Its marker is in
the routine of the branch, before the sized instruction that covers the destination, and the
reference keeps the rest of the way.  Identifiers go through all of the code, and no two routines
share one:

    (∃ answer, add rs = .ok answer) ↔ Raisable rs

Destinations in one routine that are covered by one instruction share its marker.  All else stays in
order.
-/

namespace ScriptImage.Branches

open Jumps (isMarker)
open Targets

/-- The positions of the markers that a routine needs: where the destinations of its branches land. -/
def targets (rs : List Routine) (j : Nat) : Set Int :=
  {q | ∃ slot c d marker adjust, slot.routine = j ∧ instrAt? rs slot = some (.op (.branch c d)) ∧
    marker.routine = j ∧ Lands rs (routineEnd rs j) marker adjust ∧
    offset rs marker + adjust.toNat = branchEnd rs slot + d.toInt ∧ (offset rs marker : Int) = q}

/-- What it takes to replace displacements by references. -/
structure Raisable (rs : List Routine) : Prop where
  /-- Every branch stays within its routine, or goes to its end. -/
  inside : ∀ slot c d, instrAt? rs slot = some (.op (.branch c d)) →
    0 ≤ branchEnd rs slot + d.toInt ∧ branchEnd rs slot + d.toInt ≤ extent rs slot
  /-- There are identifiers for the markers of all routines. -/
  ids : firstFree rs + ((List.range rs.length).map fun j => (targets rs j).ncard).sum ≤ maxOffset

/-- What a reference says: an identifier, and how far to go from its marker. -/
structure Reference where
  target : UInt32
  adjust : UInt32
  deriving Inhabited

/-- References in the places of displacements. -/
def raised (refs : Slot → Reference) (slot : Slot) : Instr → Instr
  | .op o =>
    match o.branch? with
    | some (c, _) => .symbolic (.branchTo c (refs slot).target (refs slot).adjust)
    | none => .op o
  | .symbolic s => .symbolic s

/-- Whether an instruction is a branch with a displacement. -/
def isInline : Instr → Bool
  | .op o => o.branch?.isSome
  | .symbolic _ => false

/-- A reference leads to where the branch would go by its displacement; the marker is in the routine of
the branch. -/
structure Refers (rs : List Routine) (marks : List (Slot × UInt32)) (slot : Slot) (d : Int16)
    (ref : Reference) (marker : Slot) : Prop where
  mark : (marker, ref.target) ∈ marks
  routine : marker.routine = slot.routine
  lands : Lands rs (routineEnd rs slot.routine) marker ref.adjust
  sum : offset rs marker + ref.adjust.toNat = branchEnd rs slot + d.toInt

variable {rs : List Routine} {r : Routine} {slot marker : Slot} {k : Nat} {adjust : UInt32} {c : Condition}
  {d : Int16}

theorem branch?_branch (c : Condition) (d : Int16) : (Op.branch c d).branch? = some (c, d) := by
  cases c <;> rfl

theorem exists_of_isInline {i : Instr} (h : isInline i = true) : ∃ c d, i = .op (.branch c d) := by
  cases i with
  | symbolic s => cases h
  | op o =>
    obtain ⟨⟨c, d⟩, hbranch⟩ := Option.isSome_iff_exists.1 h
    exact ⟨c, d, by rw [Op.of_branch? hbranch]⟩

theorem isInline_branch (c : Condition) (d : Int16) : isInline (.op (.branch c d)) = true := by
  rw [isInline, branch?_branch, Option.isSome_some]

theorem raised_branch (refs : Slot → Reference) (slot : Slot) (c : Condition) (d : Int16) :
    raised refs slot (.op (.branch c d)) =
      .symbolic (.branchTo c (refs slot).target (refs slot).adjust) := by
  simp only [raised, branch?_branch]

theorem raised_of_ne (refs : Slot → Reference) (slot : Slot) {i : Instr} (h : isInline i = false) :
    raised refs slot i = i := by
  cases i with
  | symbolic s => rfl
  | op o =>
    rw [isInline, Option.isSome_eq_false_iff, Option.isNone_iff_eq_none] at h
    simp only [raised, h]

theorem raised_congr {refs refs' : Slot → Reference} {slot : Slot} (h : refs slot = refs' slot) :
    raised refs slot = raised refs' slot := by
  funext i
  cases i with
  | symbolic s => rfl
  | op o => simp only [raised, h]

/-! ## Where branches go -/

/-- For each branch, the place of its marker and how far to go from there. -/
def Landed (rs : List Routine) (land : Slot → Slot × UInt32) : Prop :=
  ∀ slot c d, instrAt? rs slot = some (.op (.branch c d)) → (land slot).1.routine = slot.routine ∧
    Lands rs (routineEnd rs slot.routine) (land slot).1 (land slot).2 ∧
    offset rs (land slot).1 + ((land slot).2.toNat : Int) = branchEnd rs slot + d.toInt

theorem exists_landed (h : ∀ slot c d, instrAt? rs slot = some (.op (.branch c d)) →
    0 ≤ branchEnd rs slot + d.toInt ∧ branchEnd rs slot + d.toInt ≤ extent rs slot) :
    ∃ land, Landed rs land := by
  have hslot : ∀ slot : Slot, ∃ x : Slot × UInt32, ∀ c d, instrAt? rs slot = some (.op (.branch c d)) →
      x.1.routine = slot.routine ∧ Lands rs (routineEnd rs slot.routine) x.1 x.2 ∧
        offset rs x.1 + (x.2.toNat : Int) = branchEnd rs slot + d.toInt := by
    intro slot
    by_cases hbranch : ∃ c d, instrAt? rs slot = some (.op (.branch c d))
    · obtain ⟨c, d, hi⟩ := hbranch
      obtain ⟨hlow, hhigh⟩ := h slot c d hi
      obtain ⟨r, hr, -⟩ := instrAt?_eq_some_iff.1 hi
      rw [show slot = ⟨slot.routine, slot.index⟩ from rfl, extent_eq hr] at hhigh
      obtain ⟨marker, adjust, hroutine, hlands, hsum⟩ := exists_lands_in hr hlow hhigh
      refine ⟨(marker, adjust), fun c' d' hi' => ?_⟩
      have hop := Option.some.inj (hi.symm.trans hi')
      have hbranch := congrArg Op.branch? (Instr.op.inj hop)
      rw [branch?_branch, branch?_branch] at hbranch
      cases hbranch
      exact ⟨hroutine, hlands, hsum⟩
    · exact ⟨(slot, 0), fun c d hi => absurd ⟨c, d, hi⟩ hbranch⟩
  obtain ⟨land, hland⟩ := Classical.axiomOfChoice hslot
  exact ⟨land, hland⟩

/-- The marker for the position where a destination lands is put there. -/
theorem markerSlot_of_lands (hr : rs[k]? = some r) (hroutine : marker.routine = k)
    (h : Lands rs (routineEnd rs k) marker adjust) :
    markerSlot k r (boundaries k 0 [r]) (layout 0 [r]).2 (offset rs marker) = .ok marker := by
  rw [layout_single]
  rcases h with ⟨i, hi, hlt⟩ | ⟨rfl, rfl⟩
  · obtain ⟨a, ha, rfl, rfl, hposition⟩ := exists_single hr hroutine hi
    have hbounds := (places_bounds ha).2
    rw [finish_single] at hbounds
    rw [← hposition, markerSlot, if_neg (by omega), lookup_boundaries ha (Nat.zero_lt_of_lt hlt)]
  · rw [offset_routineEnd hr, markerSlot, if_pos rfl, routineEnd, hr, Option.getD_some]

/-- The positions for which a routine needs markers, one for each branch. -/
def used (rs : List Routine) (land : Slot → Slot × UInt32) (l : List Place) : List Int :=
  (l.filter fun a => isInline a.instr).map fun a => offset rs (land a.slot).1

theorem mem_used_iff {land : Slot → Slot × UInt32} (hland : Landed rs land) (hr : rs[k]? = some r)
    (q : Int) : q ∈ used rs land (placesFrom ⟨k, 0⟩ 0 r) ↔ q ∈ targets rs k := by
  rw [used, ← places_single, List.mem_map]
  constructor
  · rintro ⟨a, ha, rfl⟩
    obtain ⟨ha, hi⟩ := List.mem_filter.1 ha
    obtain ⟨c, d, hi⟩ := exists_of_isInline hi
    obtain ⟨hroutine, -⟩ := (mem_single_iff hr).1 ha
    have hinstr := instrAt?_of_mem_single hr ha
    rw [hi] at hinstr
    obtain ⟨hsame, hlands, hsum⟩ := hland a.slot c d hinstr
    rw [hroutine] at hsame hlands
    exact ⟨a.slot, c, d, (land a.slot).1, (land a.slot).2, hroutine, hinstr, hsame, hlands, hsum, rfl⟩
  · rintro ⟨slot, c, d, marker, adjust, hroutine, hinstr, hmarker, hlands, hsum, rfl⟩
    obtain ⟨a, ha, rfl, hi, -⟩ := exists_single hr hroutine hinstr
    refine ⟨a, List.mem_filter.2 ⟨ha, by rw [hi, isInline_branch]⟩, ?_⟩
    obtain ⟨hsame, hlands', hsum'⟩ := hland a.slot c d hinstr
    rw [hroutine] at hsame hlands'
    -- both are what the destination is moved back to
    have hsnap := hlands'.snap_eq_offset hr hsame
    rw [hsum', ← hsum, hlands.snap_eq_offset hr hmarker, Option.some.injEq, Prod.mk.injEq] at hsnap
    exact hsnap.1.symm

/-! ## One routine -/

/-- The references once identifiers are handed out. -/
def refsOf (rs : List Routine) (land : Slot → Slot × UInt32) (ids : Ids) (slot : Slot) : Reference :=
  ⟨(ids.assigned.lookup (offset rs (land slot).1 : Int)).getD 0, (land slot).2⟩

/-- A step takes an identifier for the branch at a place, or passes over what else stands there. -/
structure Steps (rs : List Routine) (land : Slot → Slot × UInt32) (step : Visit.Step Ids) (a : Place) :
    Prop where
  branch : ∀ ids c d, a.instr = .op (.branch c d) → step ids a.position a.instr =
    (ids.of (offset rs (land a.slot).1)).map fun x =>
      (x.1, some (.symbolic (.branchTo c x.2 (land a.slot).2)))
  other : ∀ ids, isInline a.instr = false → step ids a.position a.instr = .ok (ids, none)

theorem addStep_steps {land : Slot → Slot × UInt32} (hland : Landed rs land) (hr : rs[k]? = some r)
    {a : Place} (ha : a ∈ placesFrom ⟨k, 0⟩ 0 r) :
    Steps rs land (addStep k (boundaries k 0 [r]) (layout 0 [r]).2) a := by
  rw [← places_single] at ha
  obtain ⟨hroutine, -, hposition⟩ := (mem_single_iff hr).1 ha
  have hinstr := instrAt?_of_mem_single hr ha
  obtain ⟨slot, q, i, rest⟩ := a
  simp only at hroutine hposition hinstr
  refine ⟨?_, ?_⟩
  · rintro ids c d rfl
    obtain ⟨hsame, hlands, hsum⟩ := hland slot c d hinstr
    rw [hroutine] at hsame hlands
    have hle := hlands.le_size hr hsame
    have hsize : ((Op.branch c d).size : Int) = Opcode.branch.size := by cases c <;> rfl
    have hdestination : q + ((Op.branch c d).size : Int) + d.toInt =
        offset rs (land slot).1 + ((land slot).2.toNat : Int) := by
      rw [hsum, branchEnd, hposition, hsize]
    simp only [addStep, branch?_branch, layout_single, hdestination]
    rw [if_neg (by omega), hlands.snap_eq_offset hr hsame]
    simp only
    cases ids.of (offset rs (land slot).1) with
    | error e => rfl
    | ok x => rfl
  · intro ids hi
    cases i with
    | symbolic s => rfl
    | op o =>
      simp only [isInline, Option.isSome_eq_false_iff, Option.isNone_iff_eq_none] at hi
      simp only [addStep, hi]

namespace Steps

variable {land : Slot → Slot × UInt32} {step : Visit.Step Ids} {p : Int} {ids ids' : Ids} {n : Nat}
  {r' : Routine}

/-- A visit that comes to a branch takes an identifier for it first. -/
theorem visit_branch (h : Steps rs land step ⟨slot, p, .op (.branch c d), r⟩) :
    Visit.routine step ids p (.op (.branch c d) :: r) = .ok (ids', n, r') ↔ ∃ ids₁ id n₁ r₁,
      ids.of (offset rs (land slot).1) = .ok (ids₁, id) ∧
      Visit.routine step ids₁ (p + (Op.branch c d).size) r = .ok (ids', n₁, r₁) ∧
      n = n₁ + 1 ∧ r' = .symbolic (.branchTo c id (land slot).2) :: r₁ := by
  have hbranch := h.branch ids c d rfl
  simp only at hbranch
  rw [Visit.routine_cons]
  constructor
  · rintro ⟨ids₁, change, ids₂, n₁, r₁, hs, hrun, heq⟩
    rw [hbranch] at hs
    obtain ⟨⟨ids₃, id⟩, hof, hchange⟩ := Run.except_map_eq_ok_iff.1 hs
    cases hchange
    cases heq
    exact ⟨_, id, _, _, hof, hrun, rfl, rfl⟩
  · rintro ⟨ids₁, id, n₁, r₁, hof, hrun, rfl, rfl⟩
    refine ⟨ids₁, some (.symbolic (.branchTo c id (land slot).2)), ids', n₁, r₁, ?_, hrun, rfl⟩
    rw [hbranch, hof]
    rfl

/-- A visit passes over what is no branch. -/
theorem visit_other {i : Instr} (h : Steps rs land step ⟨slot, p, i, r⟩) (hi : isInline i = false) :
    Visit.routine step ids p (i :: r) = .ok (ids', n, r') ↔ ∃ r₁,
      Visit.routine step ids (p + i.size) r = .ok (ids', n, r₁) ∧ r' = i :: r₁ := by
  have hother := h.other ids hi
  simp only at hother
  rw [Visit.routine_cons]
  constructor
  · rintro ⟨ids₁, change, ids₂, n₁, r₁, hs, hrun, heq⟩
    rw [hother] at hs
    cases hs
    cases heq
    exact ⟨r₁, hrun, rfl⟩
  · rintro ⟨r₁, hrun, rfl⟩
    exact ⟨ids, none, ids', n, r₁, hother, hrun, rfl⟩

end Steps

/-- The identifier that is taken for a branch is the one that is found for it in the end. -/
theorem lookup_of_takeAll {low : UInt32} {ids ids₁ ids' : Ids} {id : UInt32} {target : Int}
    {rest : List Int} (hids : Assigned low ids.next ids.assigned) (hof : ids.of target = .ok (ids₁, id))
    (htake : ids₁.takeAll rest = .ok ids') : ids'.assigned.lookup target = some id := by
  obtain ⟨hgrows, hid⟩ := of_spec hof
  obtain ⟨hgrows', -⟩ := Ids.takeAll_spec htake
  have hassigned := hgrows'.assigned (hgrows.assigned hids)
  exact (lookup_eq_some_iff_mem hassigned.targets).2 (hgrows'.kept _ hid)

/-- A visit succeeds exactly if there are identifiers for all branches, and puts references in their
places. -/
theorem visit_add_eq_ok_iff {land : Slot → Slot × UInt32} {step : Visit.Step Ids} {p : Int} {low : UInt32}
    {ids ids' : Ids} {n : Nat} {r' : Routine} (hstep : ∀ a ∈ placesFrom slot p r, Steps rs land step a)
    (hids : Assigned low ids.next ids.assigned) :
    Visit.routine step ids p r = .ok (ids', n, r') ↔
      ids.takeAll (used rs land (placesFrom slot p r)) = .ok ids' ∧ n = r.countP isInline ∧
        r' = replaceFrom (raised (refsOf rs land ids')) slot r := by
  induction r generalizing slot p ids n r' with
  | nil =>
    constructor
    · intro h
      cases h
      exact ⟨rfl, rfl, rfl⟩
    · rintro ⟨htake, rfl, rfl⟩
      cases htake
      rfl
  | cons i r ih =>
    have hfirst := hstep ⟨slot, p, i, r⟩ List.mem_cons_self
    have hrest := fun {ids : Ids} {n r'} (hids : Assigned low ids.next ids.assigned) =>
      @ih slot.next (p + i.size) ids n r' (fun a ha => hstep a (List.mem_cons_of_mem _ ha)) hids
    rw [placesFrom, replaceFrom, used, List.filter_cons]
    by_cases hi : isInline i = true
    · obtain ⟨c, d, rfl⟩ := exists_of_isInline hi
      rw [if_pos hi, List.map_cons, Ids.takeAll, Run.except_bind_eq_ok_iff, hfirst.visit_branch,
        raised_branch, List.countP_cons_of_pos hi]
      constructor
      · rintro ⟨ids₁, id, n₁, r₁, hof, hrun, rfl, rfl⟩
        obtain ⟨htake, rfl, rfl⟩ := (hrest ((of_spec hof).1.assigned hids)).1 hrun
        refine ⟨⟨(ids₁, id), hof, htake⟩, rfl, ?_⟩
        rw [refsOf, lookup_of_takeAll hids hof htake, Option.getD_some]
      · rintro ⟨⟨⟨ids₁, id⟩, hof, htake⟩, rfl, rfl⟩
        have hrun := (hrest ((of_spec hof).1.assigned hids)).2 ⟨htake, rfl, rfl⟩
        refine ⟨ids₁, id, _, _, hof, hrun, rfl, ?_⟩
        rw [refsOf, lookup_of_takeAll hids hof htake, Option.getD_some]
    · rw [Bool.not_eq_true] at hi
      rw [if_neg (by simp [hi]), raised_of_ne _ _ hi, List.countP_cons_of_neg (by simp [hi]),
        hfirst.visit_other hi]
      constructor
      · rintro ⟨r₁, hrun, rfl⟩
        obtain ⟨htake, rfl, rfl⟩ := (hrest hids).1 hrun
        exact ⟨htake, rfl, rfl⟩
      · rintro ⟨htake, rfl, rfl⟩
        exact ⟨_, (hrest hids).2 ⟨htake, rfl, rfl⟩, rfl⟩

/-- Every step of a visit that goes through goes through. -/
theorem exists_step_of_mem {σ : Type} {step : Visit.Step σ} {s : σ} {p : Int} {answer : σ × Nat × Routine}
    (h : Visit.routine step s p r = .ok answer) {a : Place} (ha : a ∈ placesFrom slot p r) :
    ∃ s₁ x, step s₁ a.position a.instr = .ok x := by
  induction r generalizing slot s p answer with
  | nil => cases ha
  | cons i r ih =>
    obtain ⟨s', change, s'', n, r', hs, hrun, -⟩ := Visit.routine_cons.1 h
    rcases List.mem_cons.1 ha with rfl | ha
    · exact ⟨s, _, hs⟩
    · exact ih hrun ha

/-- What holds once markers are there for the branches of some routines; their identifiers are handed out
from `low` on. -/
structure Added (rs : List Routine) (done : Nat → Prop) (low : Nat) (refs : Slot → Reference)
    (marks : List (Slot × UInt32)) : Prop where
  slots : (marks.map Prod.fst).Nodup
  ids : (marks.map Prod.snd).Nodup
  range : ∀ m ∈ marks, low ≤ m.2.toNat ∧ m.2.toNat < low + marks.length
  placed : ∀ m ∈ marks, done m.1.routine ∧ Lands rs (routineEnd rs m.1.routine) m.1 0 ∧
    (offset rs m.1 : Int) ∈ targets rs m.1.routine
  refers : ∀ slot c d, done slot.routine → instrAt? rs slot = some (.op (.branch c d)) →
    ∃ marker, Refers rs marks slot d (refs slot) marker

theorem Refers.mono {marks marks' : List (Slot × UInt32)} {ref : Reference}
    (h : Refers rs marks slot d ref marker) (hmarks : ∀ m ∈ marks, m ∈ marks') :
    Refers rs marks' slot d ref marker :=
  ⟨hmarks _ h.mark, h.routine, h.lands, h.sum⟩

/-- The markers of one routine and those of the routines after it. -/
theorem Added.append {low : Nat} {refs refs' : Slot → Reference} {marks marks' : List (Slot × UInt32)}
    (h : Added rs (· = k) low refs marks) (h' : Added rs (k + 1 ≤ ·) (low + marks.length) refs' marks') :
    Added rs (k ≤ ·) low (fun slot => if slot.routine = k then refs slot else refs' slot)
      (marks ++ marks') := by
  refine ⟨?_, ?_, ?_, ?_, ?_⟩
  · rw [List.map_append, List.nodup_append]
    refine ⟨h.slots, h'.slots, ?_⟩
    rintro s hs s' hs' rfl
    obtain ⟨m, hm, rfl⟩ := List.mem_map.1 hs
    obtain ⟨m', hm', heq⟩ := List.mem_map.1 hs'
    have hfirst := (h.placed m hm).1
    have hlater := (h'.placed m' hm').1
    rw [heq, hfirst] at hlater
    omega
  · rw [List.map_append, List.nodup_append]
    refine ⟨h.ids, h'.ids, ?_⟩
    rintro id hid id' hid' rfl
    obtain ⟨m, hm, rfl⟩ := List.mem_map.1 hid
    obtain ⟨m', hm', heq⟩ := List.mem_map.1 hid'
    have hfirst := (h.range m hm).2
    have hlater := (h'.range m' hm').1
    rw [heq] at hlater
    omega
  · intro m hm
    rw [List.length_append]
    rcases List.mem_append.1 hm with hm | hm
    · have := h.range m hm
      omega
    · have := h'.range m hm
      omega
  · intro m hm
    rcases List.mem_append.1 hm with hm | hm
    · obtain ⟨hroutine, hplaced⟩ := h.placed m hm
      exact ⟨Nat.le_of_eq hroutine.symm, hplaced⟩
    · obtain ⟨hroutine, hplaced⟩ := h'.placed m hm
      exact ⟨Nat.le_of_succ_le hroutine, hplaced⟩
  · intro slot c d hdone hinstr
    by_cases hroutine : slot.routine = k
    · obtain ⟨marker, hrefers⟩ := h.refers slot c d hroutine hinstr
      rw [if_pos hroutine]
      exact ⟨marker, hrefers.mono fun _ hm => List.mem_append_left _ hm⟩
    · obtain ⟨marker, hrefers⟩ := h'.refers slot c d (by omega) hinstr
      rw [if_neg hroutine]
      exact ⟨marker, hrefers.mono fun _ hm => List.mem_append_right _ hm⟩

section Landed

variable {land : Slot → Slot × UInt32} (hland : Landed rs land)

include hland

/-- The markers of one routine. -/
theorem added_of_takeAll (hr : rs[k]? = some r) {low : UInt32} {ids : Ids}
    {inserts : List (Slot × Instr)}
    (htake : (Ids.mk low []).takeAll (used rs land (placesFrom ⟨k, 0⟩ 0 r)) = .ok ids)
    (hinserts : ids.assigned.mapM (fun x => do
      let slot ← markerSlot k r (boundaries k 0 [r]) (layout 0 [r]).2 x.1
      return (slot, Instr.symbolic (.branchTarget x.2))) = .ok inserts) :
    ∃ marks : List (Slot × UInt32),
      inserts = marks.map (fun m => (m.1, Instr.symbolic (.branchTarget m.2))) ∧
      marks.length = (targets rs k).ncard ∧ Added rs (· = k) low.toNat (refsOf rs land ids) marks := by
  obtain ⟨hgrows, hknown, hnext⟩ := Ids.takeAll_spec htake
  have hassigned := hgrows.assigned (Assigned.nil low)
  have htargets : ∀ q, (∃ id, (q, id) ∈ ids.assigned) ↔ q ∈ targets rs k := by
    intro q
    rw [← mem_used_iff hland hr, ← mem_known_iff, hknown]
    simp [Ids.known]
  have hfits : ∀ x ∈ ids.assigned, ∃ marker : Slot, (marker.routine = k ∧
      Lands rs (routineEnd rs k) marker 0) ∧ (offset rs marker : Int) = x.1 := by
    intro x hx
    obtain ⟨-, -, -, marker, adjust, -, -, hroutine, hlands, -, hoffset⟩ := (htargets x.1).1 ⟨x.2, hx⟩
    exact ⟨marker, ⟨hroutine, hlands.start⟩, hoffset⟩
  obtain ⟨marks, hmarks, hlength, hslots, hids, hrange, hmem⟩ :=
    exists_marks_of_mapM (fun id => .symbolic (.branchTarget id))
      (fun marker h => markerSlot_of_lands hr h.1 h.2) hassigned hfits hinserts
  have hcount : marks.length = (targets rs k).ncard := by
    rw [hlength, ← List.length_map (f := Prod.fst), ncard_eq_length hassigned.targets]
    intro q
    rw [← htargets, List.mem_map]
    constructor
    · rintro ⟨x, hx, rfl⟩
      exact ⟨x.2, hx⟩
    · rintro ⟨id, hid⟩
      exact ⟨(q, id), hid, rfl⟩
  refine ⟨marks, hmarks, hcount, hslots, hids, fun m hm => ?_, ?_, ?_⟩
  · rw [hcount, Ids.ncard_eq low (mem_used_iff hland hr)]
    have := hrange m hm
    simp only at hnext
    omega
  · rintro ⟨marker, id⟩ hm
    obtain ⟨⟨rfl, hlands⟩, hid⟩ := (hmem marker id).1 hm
    exact ⟨rfl, hlands, (htargets _).1 ⟨id, hid⟩⟩
  · rintro slot c d rfl hinstr
    obtain ⟨hroutine, hlands, hsum⟩ := hland slot c d hinstr
    obtain ⟨id, hid⟩ := (htargets (offset rs (land slot).1)).2
      ⟨slot, c, d, (land slot).1, (land slot).2, rfl, hinstr, hroutine, hlands, hsum, rfl⟩
    refine ⟨(land slot).1, ?_, hroutine, hlands, hsum⟩
    rw [refsOf, (lookup_eq_some_iff_mem hassigned.targets).2 hid, Option.getD_some]
    exact (hmem _ _).2 ⟨⟨hroutine, hlands.start⟩, hid⟩

/-- A routine can be visited and its markers placed exactly if there are identifiers for them. -/
theorem exists_routine (hr : rs[k]? = some r) {low : UInt32}
    (h : low.toNat + (targets rs k).ncard ≤ maxOffset) : ∃ ids n r' inserts,
    Visit.routine (addStep k (boundaries k 0 [r]) (layout 0 [r]).2) ⟨low, []⟩ 0 r = .ok (ids, n, r') ∧
    (ids.assigned.mapM fun x => do
      let slot ← markerSlot k r (boundaries k 0 [r]) (layout 0 [r]).2 x.1
      return (slot, Instr.symbolic (.branchTarget x.2))) = .ok inserts ∧
    ids.next.toNat = low.toNat + (targets rs k).ncard := by
  rw [Ids.ncard_eq low (mem_used_iff hland hr)] at h
  obtain ⟨ids, htake⟩ := Ids.exists_takeAll ⟨low, []⟩ h
  obtain ⟨-, hknown, hnext⟩ := Ids.takeAll_spec htake
  have hvisit :=
    (visit_add_eq_ok_iff (fun _ => addStep_steps hland hr) (Assigned.nil low)).2 ⟨htake, rfl, rfl⟩
  have hmark : ∀ x ∈ ids.assigned, ∃ y, (do
      let slot ← markerSlot k r (boundaries k 0 [r]) (layout 0 [r]).2 x.1
      return (slot, Instr.symbolic (.branchTarget x.2))) = Except.ok y := by
    intro x hx
    have hused : x.1 ∈ used rs land (placesFrom ⟨k, 0⟩ 0 r) := by
      have hmem := mem_known_iff.2 ⟨x.2, hx⟩
      rw [hknown] at hmem
      simpa [Ids.known] using hmem
    obtain ⟨-, -, -, marker, adjust, -, -, hroutine, hlands, -, hoffset⟩ :=
      (mem_used_iff hland hr _).1 hused
    rw [← hoffset, markerSlot_of_lands hr hroutine hlands]
    exact ⟨_, rfl⟩
  obtain ⟨inserts, hinserts⟩ := Run.exists_mapM hmark
  refine ⟨ids, _, _, inserts, hvisit, hinserts, ?_⟩
  rw [Ids.ncard_eq low (mem_used_iff hland hr)]
  exact hnext

/-! ## All routines -/

/-- The additions to all routines from one on. -/
theorem addFrom_spec {l l' : List Routine} {low : UInt32} {n : Nat} {inserts : List (Slot × Instr)}
    (hl : rs.drop k = l) (h : addFrom k low l = .ok (n, l', inserts)) :
    ∃ refs marks, Added rs (k ≤ ·) low.toNat refs marks ∧
      inserts = marks.map (fun m => (m.1, Instr.symbolic (.branchTarget m.2))) ∧
      n = l.flatten.countP isInline ∧ l' = replaceAll (raised refs) k l ∧
      marks.length = ((List.range' k l.length).map fun j => (targets rs j).ncard).sum ∧
      low.toNat + marks.length ≤ maxOffset := by
  induction l generalizing k low n l' inserts with
  | nil =>
    cases h
    have hadded : Added rs (k ≤ ·) low.toNat (fun _ => default) [] := by
      refine ⟨List.nodup_nil, List.nodup_nil, nofun, nofun, ?_⟩
      intro slot c d hdone hinstr
      obtain ⟨r, hr, -⟩ := instrAt?_eq_some_iff.1 hinstr
      have hlt := (List.getElem?_eq_some_iff.1 hr).1
      rw [List.drop_eq_nil_iff] at hl
      omega
    refine ⟨_, [], hadded, rfl, rfl, rfl, rfl, ?_⟩
    have := low.toNat_lt
    rw [maxOffset, List.length_nil]
    omega
  | cons r l ih =>
    obtain ⟨hr, hrest⟩ := drop_eq_cons_iff.1 hl
    obtain ⟨ids, n₁, r', inserts₁, n₂, l₂, inserts₂, hvisit, hinserts, hrun, rfl, rfl, rfl⟩ :=
      addFrom_cons.1 h
    obtain ⟨htake, rfl, rfl⟩ :=
      (visit_add_eq_ok_iff (fun _ => addStep_steps hland hr) (Assigned.nil low)).1 hvisit
    obtain ⟨marks₁, rfl, hcount₁, hadded₁⟩ := added_of_takeAll hland hr htake hinserts
    obtain ⟨refs₂, marks₂, hadded₂, rfl, rfl, rfl, hcount₂, hle⟩ := ih hrest hrun
    have hnext : ids.next.toNat = low.toNat + marks₁.length := by
      rw [hcount₁, Ids.ncard_eq low (mem_used_iff hland hr)]
      exact (Ids.takeAll_spec htake).2.2
    simp only [hnext] at hadded₂ hle
    -- the first routine has its own references, and those after it keep theirs
    let refs : Slot → Reference := fun slot =>
      if slot.routine = k then refsOf rs land ids slot else refs₂ slot
    have hfirst : replaceFrom (raised (refsOf rs land ids)) ⟨k, 0⟩ r =
        replaceFrom (raised refs) ⟨k, 0⟩ r :=
      replaceFrom_congr fun n _ => raised_congr (if_pos rfl).symm
    have hlater : replaceAll (raised refs₂) (k + 1) l = replaceAll (raised refs) (k + 1) l :=
      replaceAll_congr fun j n hj => raised_congr (if_neg (show ¬ j = k by omega)).symm
    refine ⟨refs, marks₁ ++ marks₂, hadded₁.append hadded₂, by rw [List.map_append], ?_, ?_, ?_, ?_⟩
    · rw [List.flatten_cons, List.countP_append]
    · rw [replaceAll, ← hfirst, ← hlater]
    · rw [List.length_append, List.length_cons, List.range'_succ, List.map_cons, List.sum_cons, hcount₁,
        hcount₂]
    · rw [List.length_append]
      omega

theorem exists_addFrom {l : List Routine} {low : UInt32} (hl : rs.drop k = l)
    (h : low.toNat + ((List.range' k l.length).map fun j => (targets rs j).ncard).sum ≤ maxOffset) :
    ∃ answer, addFrom k low l = .ok answer := by
  induction l generalizing k low with
  | nil => exact ⟨_, rfl⟩
  | cons r l ih =>
    obtain ⟨hr, hrest⟩ := drop_eq_cons_iff.1 hl
    rw [List.length_cons, List.range'_succ, List.map_cons, List.sum_cons] at h
    have hfirst : low.toNat + (targets rs k).ncard ≤ maxOffset := by omega
    obtain ⟨ids, n, r', inserts, hvisit, hinserts, hnext⟩ := exists_routine hland hr hfirst
    have hle : ids.next.toNat + ((List.range' (k + 1) l.length).map fun j => (targets rs j).ncard).sum ≤
        maxOffset := by omega
    obtain ⟨⟨n', l', inserts'⟩, hrun⟩ := ih hrest hle
    exact ⟨(n + n', r' :: l', inserts ++ inserts'),
      addFrom_cons.2 ⟨ids, n, r', inserts, n', l', inserts', hvisit, hinserts, hrun, rfl, rfl, rfl⟩⟩

end Landed

/-- If all goes through, the branches stay within their routines. -/
theorem inside_of_addFrom {l l' : List Routine} {low : UInt32} {n : Nat} {inserts : List (Slot × Instr)}
    (hl : rs.drop k = l) (h : addFrom k low l = .ok (n, l', inserts)) (hk : k ≤ slot.routine)
    (hinstr : instrAt? rs slot = some (.op (.branch c d))) :
    0 ≤ branchEnd rs slot + d.toInt ∧ branchEnd rs slot + d.toInt ≤ extent rs slot := by
  obtain ⟨r, hr, -⟩ := instrAt?_eq_some_iff.1 hinstr
  induction l generalizing k low n l' inserts with
  | nil =>
    have hlt := (List.getElem?_eq_some_iff.1 hr).1
    rw [List.drop_eq_nil_iff] at hl
    omega
  | cons r' l ih =>
    obtain ⟨hr', hrest⟩ := drop_eq_cons_iff.1 hl
    obtain ⟨ids, n₁, r₁, inserts₁, n₂, l₂, inserts₂, hvisit, -, hrun, -⟩ := addFrom_cons.1 h
    by_cases hroutine : slot.routine = k
    · obtain ⟨a, ha, rfl, hi, hposition⟩ := exists_single hr' hroutine hinstr
      rw [places_single] at ha
      obtain ⟨ids₁, x, hstep⟩ := exists_step_of_mem hvisit ha
      have hsize : ((Op.branch c d).size : Int) = Opcode.branch.size := by cases c <;> rfl
      have hextent : (extent rs a.slot : Int) = r'.size := by
        rw [← hroutine] at hr'
        exact congrArg Nat.cast (extent_eq hr' a.slot.index)
      -- the step would have refused a destination outside the routine
      rw [hi, hposition, addStep] at hstep
      simp only [branch?_branch, layout_single, hsize] at hstep
      split at hstep
      · cases hstep
      · rw [branchEnd, hextent]
        omega
    · exact ih hrest hrun (by omega)

/-! ## What an addition does -/

theorem size_raised (refs : Slot → Reference) (slot : Slot) (i : Instr) :
    (raised refs slot i).size = i.size := by
  by_cases hi : isInline i = true
  · obtain ⟨c, d, rfl⟩ := exists_of_isInline hi
    rw [raised_branch]
    exact size_branchTo c _ _ d
  · rw [raised_of_ne refs slot (by simpa using hi)]

/-- What an addition does that goes through: it answers the number of branches with displacements, puts
references of the same kinds in their places, and inserts markers. -/
structure Raised (rs : List Routine) (refs : Slot → Reference) (marks : List (Slot × UInt32)) (n : Nat)
    (rs' : List Routine) : Prop where
  count : n = rs.flatten.countP isInline
  result : rs' = insertEach (newMarkers (fun id => .symbolic (.branchTarget id)) marks) 0
    (replaceAll (raised refs) 0 rs)
  /-- There is one marker for each target position of each routine. -/
  total : marks.length = ((List.range rs.length).map fun j => (targets rs j).ncard).sum
  /-- The identifiers are distinct, also in different routines, and above all that occur in the code. -/
  fresh : Fresh rs marks
  /-- A marker is put right before the sized instruction at a target position, or at the end of the
  routine. -/
  placed : ∀ m ∈ marks, Lands rs (routineEnd rs m.1.routine) m.1 0 ∧
    (offset rs m.1 : Int) ∈ targets rs m.1.routine
  /-- In the result it is as far from the beginning of its routine as its place was. -/
  stands : ∀ m ∈ marks, (m.2, (offset rs m.1 : Int)) ∈
    Routine.marksFrom Instr.branchId? 0 (rs'[m.1.routine]?.getD [])
  /-- Every branch has a reference to where it goes, with a marker in its own routine. -/
  refers : ∀ slot c d, instrAt? rs slot = some (.op (.branch c d)) →
    ∃ marker, Refers rs marks slot d (refs slot) marker

theorem raised_of_add_spec {n : Nat} {rs' : List Routine} (h : add rs = .ok (n, rs')) :
    Raisable rs ∧ ∃ refs marks, Raised rs refs marks n rs' := by
  obtain ⟨next, hnext, h⟩ := Run.except_bind_eq_ok_iff.1 h
  obtain ⟨⟨n, rs₁, inserts⟩, hrun, h⟩ := Run.except_bind_eq_ok_iff.1 h
  cases h
  have hinside : ∀ slot c d, instrAt? rs slot = some (.op (.branch c d)) →
      0 ≤ branchEnd rs slot + d.toInt ∧ branchEnd rs slot + d.toInt ≤ extent rs slot :=
    fun slot c d hinstr => inside_of_addFrom List.drop_zero hrun (Nat.zero_le _) hinstr
  obtain ⟨land, hland⟩ := exists_landed hinside
  obtain ⟨refs, marks, hadded, rfl, rfl, rfl, htotal, hle⟩ := addFrom_spec hland List.drop_zero hrun
  rw [(nextId_eq_ok_iff.1 hnext).2] at hadded hle
  rw [← List.range_eq_range'] at htotal
  have hresult := insertAll_eq_newMarkers (fun id => .symbolic (.branchTarget id)) hadded.slots
    (replaceAll (raised refs) 0 rs)
  refine ⟨⟨hinside, htotal ▸ hle⟩, refs, marks, rfl, hresult, htotal,
    ⟨hadded.slots, hadded.ids, fun m hm => (hadded.range m hm).1⟩, fun m hm => (hadded.placed m hm).2, ?_,
    fun slot c d => hadded.refers slot c d (Nat.zero_le _)⟩
  rintro ⟨marker, id⟩ hm
  obtain ⟨-, hlands, htarget⟩ := hadded.placed _ hm
  obtain ⟨slot, c, d, -, -, hroutine, hinstr, -⟩ := htarget
  obtain ⟨r, hr, -⟩ := instrAt?_eq_some_iff.1 hinstr
  rw [hroutine] at hr
  have hwithin : Within (replaceAll (raised refs) 0 rs) marker :=
    within_congr (map_replaceAll Instr.size (size_raised refs) 0 rs) (hlands.within hr rfl)
  rw [hresult, ← offset_replaceAll (size_raised refs)]
  exact mem_marksFrom_insertEach (fun _ => rfl) (fun _ => rfl) hadded.slots hm hwithin

/-- **Adding resolves every branch within its routine.** Whatever the code is, markers of branches can
be added exactly if it is `Raisable`, and the result is what `Raised` says. -/
theorem add_raises_branches (rs : List Routine) :
    ((∃ answer, add rs = .ok answer) ↔ Raisable rs) ∧
      ∀ n rs', add rs = .ok (n, rs') → ∃ refs marks, Raised rs refs marks n rs' := by
  refine ⟨⟨?_, fun h => ?_⟩, fun n rs' h => (raised_of_add_spec h).2⟩
  · rintro ⟨⟨n, rs'⟩, h⟩
    exact (raised_of_add_spec h).1
  · obtain ⟨land, hland⟩ := exists_landed h.inside
    have hids := h.ids
    obtain ⟨next, hnext⟩ := exists_nextId_of_le (by omega : firstFree rs ≤ maxOffset)
    rw [← (nextId_eq_ok_iff.1 hnext).2, List.range_eq_range'] at hids
    obtain ⟨⟨n, rs₁, inserts⟩, hrun⟩ := exists_addFrom hland List.drop_zero hids
    exact ⟨(n, insertAll rs₁ inserts), Run.except_bind_eq_ok_iff.2 ⟨next, hnext,
      Run.except_bind_eq_ok_iff.2 ⟨(n, rs₁, inserts), hrun, rfl⟩⟩⟩

/-- In the first routine a branch to its end and one to its beginning, where a marker stands already; in
the second one branches into an instruction, to it, and to the end, and identifiers of both families. -/
def localSample : List Routine :=
  [[.symbolic (.jumpTarget 1), .op (.branch .ifTrue 4), .op (.branch .always (-6)), .op .endRoutine],
    [.op (.branch .ifFalse 4), .op (.branch .always 0), .op (.pushInt32 7),
      .symbolic (.branchTo .always 3 0), .symbolic (.branchTarget 3), .op (.branch .ifTrue 1),
      .op .endRoutine]]

theorem add_raises_branches_local :
    let rs' : List Routine :=
      [[.symbolic (.jumpTarget 1), .symbolic (.branchTarget 5), .symbolic (.branchTo .ifTrue 4 0),
          .symbolic (.branchTo .always 5 0), .op .endRoutine, .symbolic (.branchTarget 4)],
        [.symbolic (.branchTo .ifFalse 6 1), .symbolic (.branchTo .always 6 0),
          .symbolic (.branchTarget 6), .op (.pushInt32 7), .symbolic (.branchTo .always 3 0),
          .symbolic (.branchTarget 3), .symbolic (.branchTo .ifTrue 7 0), .op .endRoutine,
          .symbolic (.branchTarget 7)]]
    add localSample = .ok (5, rs') ∧ Raisable localSample ∧
      ∃ refs marks, Raised localSample refs marks 5 rs' := by
  intro rs'
  have hadd : addFrom 0 4 localSample = .ok (5,
      [[.symbolic (.jumpTarget 1), .symbolic (.branchTo .ifTrue 4 0), .symbolic (.branchTo .always 5 0),
          .op .endRoutine],
        [.symbolic (.branchTo .ifFalse 6 1), .symbolic (.branchTo .always 6 0), .op (.pushInt32 7),
          .symbolic (.branchTo .always 3 0), .symbolic (.branchTarget 3), .symbolic (.branchTo .ifTrue 7 0),
          .op .endRoutine]],
      [(⟨0, 4⟩, .symbolic (.branchTarget 4)), (⟨0, 1⟩, .symbolic (.branchTarget 5)),
        (⟨1, 2⟩, .symbolic (.branchTarget 6)), (⟨1, 7⟩, .symbolic (.branchTarget 7))]) := by
    decide +kernel
  have hrun : add localSample = .ok (5, rs') := by
    -- sorting by place is not evaluated, so the markers are inserted by their places
    refine Run.except_bind_eq_ok_iff.2 ⟨4, rfl, Run.except_bind_eq_ok_iff.2 ⟨_, hadd, ?_⟩⟩
    simp only
    rw [insertAll_eq _ (by decide)]
    rfl
  obtain ⟨hraisable, hraised⟩ := add_raises_branches localSample
  exact ⟨hrun, hraisable.1 ⟨_, hrun⟩, hraised 5 rs' hrun⟩

end ScriptImage.Branches
