import ScriptImage.Proofs.TargetPositions
import ScriptImage.Proofs.Visiting

/-!
# The passes on branches

Branches never leave their routine, so the passes go routine by routine; only the
identifiers are shared.  `Branches.remove` sees the markers of the routines before, and
`Branches.add` goes on with the next free identifier:

    image.StandsFor code → remove … = .ok (n, rs') ∧ Lowered .branches image …
    add … = .ok (n, rs') → Raised .branches id image …
-/

namespace ScriptImage.Branches

open Jumps (isMarker)
open Targets

/-! ## Removing -/

/-- Markers can be noted exactly if their identifiers are new and distinct. -/
theorem noteMarkers_eq_ok_iff {k : Nat} {seen seen' : List (UInt32 × Nat)} {marks : List (UInt32 × Int)} :
    noteMarkers k seen marks = .ok seen' ↔
      (marks.map Prod.fst).Nodup ∧ (∀ id ∈ marks.map Prod.fst, id ∉ seen.map Prod.fst) ∧
        seen' = (marks.map fun x => (x.1, k)).reverse ++ seen := by
  induction marks generalizing seen with
  | nil =>
    rw [noteMarkers, Except.ok.injEq]
    exact ⟨fun h => ⟨List.nodup_nil, nofun, h.symm⟩, fun h => h.2.2.symm⟩
  | cons x marks ih =>
    obtain ⟨id, q⟩ := x
    rw [noteMarkers, List.map_cons, List.nodup_cons]
    cases hlookup : seen.lookup id with
    | some first =>
      have hin : id ∈ seen.map Prod.fst := List.mem_map.2 ⟨_, mem_of_lookup hlookup, rfl⟩
      exact iff_of_false nofun fun h => h.2.1 id List.mem_cons_self hin
    | none =>
      have hnew : id ∉ seen.map Prod.fst := by
        intro hin
        obtain ⟨y, hy, rfl⟩ := List.mem_map.1 hin
        have := List.lookup_eq_none_iff.1 hlookup y hy
        simp at this
      refine (@ih ((id, k) :: seen)).trans ?_
      simp only [List.map_cons, List.mem_cons, not_or, List.reverse_cons, List.append_assoc,
        List.singleton_append]
      constructor
      · rintro ⟨hnodup, hseen, rfl⟩
        refine ⟨⟨fun hid => (hseen id hid).1 rfl, hnodup⟩, ?_, rfl⟩
        rintro id' (rfl | hid')
        · exact hnew
        · exact (hseen id' hid').2
      · rintro ⟨⟨hid, hnodup⟩, hseen, rfl⟩
        refine ⟨hnodup, fun id' hid' => ⟨?_, hseen id' (Or.inr hid')⟩, rfl⟩
        rintro rfl
        exact hid hid'

/-- What belongs to branches and is no marker is a branch. -/
theorem exists_branch? {s : Symbolic} (hs : s.kind.subject = .branches)
    (hm : isMarker (.symbolic s) = false) : ∃ c target adjust, s.branch? = some (c, target, adjust) := by
  obtain ⟨code, operands⟩ := s
  cases code with
  | branchTarget =>
    obtain ⟨id, ⟨⟩⟩ := operands
    cases hm
  | branchTo => exact ⟨.always, operands.1, operands.2.1, rfl⟩
  | branchIfTrueTo => exact ⟨.ifTrue, operands.1, operands.2.1, rfl⟩
  | branchIfFalseTo => exact ⟨.ifFalse, operands.1, operands.2.1, rfl⟩
  | _ => cases hs

theorem size_branchTo (c : Condition) (target adjust : UInt32) (d : Int16) :
    (Symbolic.branchTo c target adjust).size = (Op.branch c d).size := by
  cases c <;> rfl

theorem removeStep_marker (k : Nat) (marks : List (UInt32 × Int)) (finish p : Int) {m : Instr}
    (hm : isMarker m = true) : removeStep k marks finish () p m = .ok ((), none) := by
  obtain ⟨id, rfl | rfl⟩ := isMarker_iff.1 hm
  · rfl
  · rfl

/-- A branch is given the distance that it stands for, if there is one. -/
theorem removeStep_eq_ok_iff {F : Frame} {k : Nat} {q : Int} {b : Bool} {i : Instr}
    {change : Option Instr} (hm : isMarker i = false) :
    removeStep k F.branches F.size () (q - F.start) i = .ok ((), change) ↔
      Visit.Answers .branches F q b i change := by
  have hleft : i.subject? ≠ some .branches → removeStep k F.branches F.size () (q - F.start) i =
      .ok ((), none) → (removeStep k F.branches F.size () (q - F.start) i = .ok ((), change) ↔
        Visit.Answers .branches F q b i change) := by
    intro hi hstep
    rw [hstep, Except.ok.injEq, Prod.mk.injEq]
    constructor
    · rintro ⟨-, rfl⟩
      exact Or.inl ⟨hi, rfl⟩
    · rintro (⟨-, rfl⟩ | ⟨h, -⟩)
      · exact ⟨rfl, rfl⟩
      · exact absurd h hi
  cases i with
  | op o => exact hleft nofun rfl
  | symbolic s =>
    cases hbranch : s.branch? with
    | none =>
      have hi : Instr.subject? (.symbolic s) ≠ some .branches := by
        intro hs
        obtain ⟨c, target, adjust, h⟩ := exists_branch? (Option.some.inj hs) hm
        rw [hbranch] at h
        cases h
      refine hleft hi ?_
      simp only [removeStep, hbranch]
    | some x =>
      obtain ⟨c, target, adjust⟩ := x
      have hs := Symbolic.subject_of_branch? hbranch
      have hsize : ∀ d, s.size = (Op.branch c d).size := by
        intro d
        rw [Symbolic.of_branch? hbranch]
        exact size_branchTo c target adjust d
      simp only [removeStep, hbranch]
      constructor
      · intro h
        split at h
        · cases h
        · next marker hmark =>
          split at h
          · cases h
          · next hend =>
            split at h
            · next d hword =>
              cases h
              rw [int16?_eq_some_iff, hsize d] at hword
              refine Or.inr ⟨congrArg some hs, _, Denotes.branch hbranch hmark ?_ ?_, rfl⟩
              · omega
              · omega
            · cases h
      · rintro (⟨hne, -⟩ | ⟨-, o, ho, rfl⟩)
        · exact absurd (congrArg some hs) hne
        · obtain ⟨c', target', adjust', marker, d, hbranch', hmark, hend, hd, rfl⟩ :=
            ho.branch_of_subject hs
          cases hbranch.symm.trans hbranch'
          have hword : int16? (marker + adjust.toNat - (q - F.start + s.size)) = some d := by
            rw [int16?_eq_some_iff, hsize d]
            omega
          simp only [hmark, hword]
          rw [if_neg (by omega)]

theorem isTarget_iff {m : Instr} (hm : isMarker m = true) :
    isTarget m = true ↔ m.subject? = some .branches := by
  obtain ⟨id, rfl | rfl⟩ := isMarker_iff.1 hm
  · exact iff_of_false nofun nofun
  · exact iff_of_true rfl rfl

theorem isMarker_of_isTarget {i : Instr} (h : isTarget i = true) : isMarker i = true := by
  unfold isTarget at h
  split at h
  · rfl
  · cases h

/-- What the frames of routines say about branches. -/
structure Framed (F : Int → Routine → Frame) : Prop where
  start : ∀ p r, (F p r).start = p
  size : ∀ p r, (F p r).size = r.size
  branches : ∀ p r, (F p r).branches = r.marksFrom Instr.branchId? 0

theorem framed (image : Image) : Framed image.frame :=
  ⟨fun _ _ => rfl, fun _ _ => rfl, fun _ _ => rfl⟩

/-- Visiting the branches of a routine and then dropping its markers lowers it. -/
theorem visit_eq_ok_iff {F : Int → Routine → Frame} (hF : Framed F) {k n : Nat} {p : Int}
    {r r' : Routine} :
    (∃ r₁, Visit.routine (removeStep k (markersFrom 0 r) (layout 0 [r]).2) () 0 r = .ok ((), n, r₁) ∧
        r' = r₁.filter fun i => !isTarget i) ↔
      n = Routine.remaining .branches [r] ∧ r.Lowered .branches (F p r) p r' := by
  have hstep : ∀ {q b i change}, i ∈ r → isMarker i = false →
      (removeStep k (markersFrom 0 r) (layout 0 [r]).2 () (q - p) i = .ok ((), change) ↔
        Visit.Answers .branches (F p r) q b i change) := by
    intro q b i change _ hm
    rw [← removeStep_eq_ok_iff (k := k) hm, hF.start, hF.size, hF.branches, Routine.marksFrom_branchId?,
      layout_single]
  have hvisit : ∀ r₁, Visit.routine (removeStep k (markersFrom 0 r) (layout 0 [r]).2) () 0 r =
      .ok ((), n, r₁) ↔ n = Routine.remaining .branches [r] ∧
        Respelled (lowering .branches (F p r)) (fun _ => False) (fun _ => False) p r r₁ := by
    intro r₁
    rw [Visit.routine_eq_ok_iff_of_stateless (removeStep_marker k _ _ _) hstep, Int.add_zero]
  unfold Routine.Lowered
  rw [Respelled.filter_iff (lowering_faithful _ _) (fun i hi => isMarker_of_isTarget hi) isTarget_iff]
  constructor
  · rintro ⟨r₁, hrun, rfl⟩
    obtain ⟨hn, hspell⟩ := (hvisit r₁).1 hrun
    exact ⟨hn, r₁, hspell, rfl⟩
  · rintro ⟨hn, r₁, hspell, rfl⟩
    exact ⟨r₁, (hvisit r₁).2 ⟨hn, hspell⟩, rfl⟩

/-- Removing goes through routine by routine, as long as no identifier comes twice. -/
theorem removeFrom_eq_ok_iff {F : Int → Routine → Frame} (hF : Framed F) {k n : Nat}
    {seen : List (UInt32 × Nat)} {rs rs' : List Routine} (p : Int) :
    removeFrom k seen rs = .ok (n, rs') ↔
      ((Routine.ids Instr.branchId? rs).Nodup ∧
        ∀ id ∈ Routine.ids Instr.branchId? rs, id ∉ seen.map Prod.fst) ∧
      n = Routine.remaining .branches rs ∧
        Along (fun start r r' => r.Lowered .branches (F start r) start r') p rs rs' := by
  induction rs generalizing k seen n rs' p with
  | nil =>
    rw [removeFrom]
    constructor
    · intro h
      cases h
      exact ⟨⟨List.nodup_nil, nofun⟩, rfl, Along.nil⟩
    · rintro ⟨-, rfl, h⟩
      cases h
      rfl
  | cons r rs ih =>
    have hown : (markersFrom 0 r).map Prod.fst = r.filterMap Instr.branchId? := by
      rw [← Routine.marksFrom_branchId?, Routine.map_fst_marksFrom]
    have hids : Routine.ids Instr.branchId? (r :: rs) =
        r.filterMap Instr.branchId? ++ Routine.ids Instr.branchId? rs := List.flatMap_cons
    have hnoted : ((markersFrom 0 r).map fun x => (x.1, k)).map Prod.fst = r.filterMap Instr.branchId? := by
      rw [← hown, List.map_map]
      rfl
    rw [removeFrom, Run.except_bind_eq_ok_iff, hids, Routine.remaining_cons]
    constructor
    · rintro ⟨seen', hnote, h⟩
      obtain ⟨⟨⟨⟩, n₁, r₁⟩, hrun, h⟩ := Run.except_bind_eq_ok_iff.1 h
      obtain ⟨⟨n₂, rs₂⟩, hrest, h⟩ := Run.except_bind_eq_ok_iff.1 h
      cases h
      obtain ⟨hnodup, hnew, rfl⟩ := noteMarkers_eq_ok_iff.1 hnote
      obtain ⟨hn₁, hlowered⟩ := (visit_eq_ok_iff hF).1 ⟨r₁, hrun, rfl⟩
      obtain ⟨⟨hnodup', hnew'⟩, hn₂, hrest⟩ := (ih (p + r.size)).1 hrest
      rw [hown] at hnodup hnew
      rw [List.map_append, List.map_reverse, hnoted] at hnew'
      refine ⟨⟨List.nodup_append.2 ⟨hnodup, hnodup', ?_⟩, ?_⟩, by rw [hn₁, hn₂], Along.cons hlowered hrest⟩
      · rintro id hid id' hid' rfl
        exact hnew' id hid' (List.mem_append_left _ (List.mem_reverse.2 hid))
      · intro id hid
        rcases List.mem_append.1 hid with hid | hid
        · exact hnew id hid
        · exact fun hin => hnew' id hid (List.mem_append_right _ hin)
    · rintro ⟨⟨hnodup, hnew⟩, rfl, h⟩
      cases h with
      | cons hlowered hrest =>
        obtain ⟨hfirst, hnodup', hdisjoint⟩ := List.nodup_append.1 hnodup
        obtain ⟨r₁, hrun, rfl⟩ := (visit_eq_ok_iff hF (k := k)).2 ⟨rfl, hlowered⟩
        have hnote : noteMarkers k seen (markersFrom 0 r) =
            .ok (((markersFrom 0 r).map fun x => (x.1, k)).reverse ++ seen) := by
          refine noteMarkers_eq_ok_iff.2 ⟨by rw [hown]; exact hfirst, ?_, rfl⟩
          rw [hown]
          exact fun id hid => hnew id (List.mem_append_left _ hid)
        refine ⟨_, hnote, Run.except_bind_eq_ok_iff.2 ⟨_, hrun, ?_⟩⟩
        refine Run.except_bind_eq_ok_iff.2 ⟨_, (ih (p + r.size)).2 ⟨⟨hnodup', ?_⟩, rfl, hrest⟩, rfl⟩
        intro id hid hin
        rw [List.map_append, List.map_reverse, hnoted] at hin
        rcases List.mem_append.1 hin with hin | hin
        · exact hdisjoint id (List.mem_reverse.1 hin) id hid rfl
        · exact hnew id (List.mem_append_right _ hid) hin

/-- Removing succeeds exactly if the identifiers of markers are distinct and all branches can be
lowered. -/
theorem remove_eq_ok_iff {F : Int → Routine → Frame} (hF : Framed F) {n : Nat} {rs rs' : List Routine}
    (p : Int) :
    remove rs = .ok (n, rs') ↔ (Routine.ids Instr.branchId? rs).Nodup ∧
      n = Routine.remaining .branches rs ∧
        Along (fun start r r' => r.Lowered .branches (F start r) start r') p rs rs' := by
  unfold remove
  rw [removeFrom_eq_ok_iff hF p]
  exact ⟨fun ⟨⟨hnodup, _⟩, h⟩ => ⟨hnodup, h⟩,
    fun ⟨hnodup, h⟩ => ⟨⟨hnodup, fun _ _ => List.not_mem_nil⟩, h⟩⟩

/-! ## Adding -/

/-- From one state of the identifiers to a later one. -/
structure Grows (a b : Ids) : Prop where
  kept : ∀ x ∈ a.assigned, x ∈ b.assigned
  assigned : ∀ {low}, Assigned low a.next a.assigned → Assigned low b.next b.assigned

theorem Grows.refl (a : Ids) : Grows a a :=
  ⟨fun _ hx => hx, fun h => h⟩

theorem Grows.trans {a b c : Ids} (hab : Grows a b) (hbc : Grows b c) : Grows a c :=
  ⟨fun x hx => hbc.kept x (hab.kept x hx), fun h => hbc.assigned (hab.assigned h)⟩

theorem of_spec {ids ids' : Ids} {target : Int} {id : UInt32} (h : ids.of target = .ok (ids', id)) :
    Grows ids ids' ∧ (target, id) ∈ ids'.assigned := by
  unfold Ids.of at h
  cases hlookup : ids.assigned.lookup target with
  | some id' =>
    rw [hlookup] at h
    cases h
    exact ⟨Grows.refl _, mem_of_lookup hlookup⟩
  | none =>
    rw [hlookup] at h
    obtain ⟨next, hnext, h⟩ := Run.except_bind_eq_ok_iff.1 h
    cases h
    refine ⟨⟨fun x hx => List.mem_append_left _ hx, fun h => h.push hlookup hnext⟩, ?_⟩
    exact List.mem_append_right _ (List.mem_singleton.2 rfl)

/-- A branch may be spelled as a reference to the identifier of a target position. -/
def adding (ids : List (Int × UInt32)) (start : Int) (size : Nat) : Spelling := fun p _ i i' =>
  i' = i ∨ ∃ c d target id adjust, i = .op (.branch c d) ∧
    i' = .symbolic (.branchTo c id adjust) ∧ (target, id) ∈ ids ∧ target + adjust.toNat ≤ size ∧
    start + (target + adjust.toNat) = p + (Op.branch c d).size + d.toInt

theorem adding_faithful (ids : List (Int × UInt32)) (start : Int) (size : Nat) :
    (adding ids start size).Faithful where
  size := by
    rintro p b i i' (rfl | ⟨c, d, target, id, adjust, rfl, rfl, -⟩)
    · rfl
    · exact size_branchTo c id adjust d
  marker := by
    rintro p b i i' hi (rfl | ⟨c, d, target, id, adjust, rfl, rfl, -⟩)
    · exact hi
    · cases c <;> rfl
  jump := by
    rintro p b i i' (rfl | ⟨c, d, target, id, adjust, rfl, rfl, -⟩)
    · exact Iff.rfl
    · cases c <;> exact iff_of_false nofun nofun

/-- What a step of an addition does. -/
theorem addStep_spec (start : Int) {k : Nat} {bs : List (Int × Slot)} {ids ids' : Ids} {p : Int}
    {size : Nat} {i : Instr} {change : Option Instr} (h : addStep k bs size ids p i = .ok (ids', change)) :
    Grows ids ids' ∧ adding ids'.assigned start size (start + p) false i (change.getD i) := by
  cases i with
  | symbolic s =>
    cases h
    exact ⟨Grows.refl _, Or.inl rfl⟩
  | op o =>
    unfold addStep at h
    cases hbranch : o.branch? with
    | none =>
      simp only [hbranch] at h
      cases h
      exact ⟨Grows.refl _, Or.inl rfl⟩
    | some x =>
      obtain ⟨c, d⟩ := x
      obtain rfl := Op.of_branch? hbranch
      simp only [hbranch] at h
      split at h
      · cases h
      · next hinside =>
        split at h
        · cases h
        · next target adjust hsnap =>
          have hsum := snap_spec hsnap
          obtain ⟨⟨ids₁, id⟩, hof, h⟩ := Run.except_bind_eq_ok_iff.1 h
          cases h
          obtain ⟨hgrows, hid⟩ := of_spec hof
          refine ⟨hgrows, Or.inr ⟨c, d, target, id, adjust, rfl, rfl, hid, ?_, ?_⟩⟩
          · omega
          · omega

theorem addStep_marker {k : Nat} {bs : List (Int × Slot)} {finish p : Int} {ids ids' : Ids} {m : Instr}
    {change : Option Instr} (hm : isMarker m = true)
    (h : addStep k bs finish ids p m = .ok (ids', change)) : change = none := by
  obtain ⟨id, rfl | rfl⟩ := isMarker_iff.1 hm
  · cases h
    rfl
  · cases h
    rfl

theorem markerSlot_spec {k : Nat} {r : Routine} {target : Int} {slot : Slot}
    (h : markerSlot k r (boundaries k 0 [r]) (layout 0 [r]).2 target = .ok slot) :
    slot.routine = k ∧ slot.index ≤ r.length ∧ (Routine.size (r.take slot.index) : Int) = target := by
  unfold markerSlot at h
  split at h
  · next htarget =>
    cases h
    refine ⟨rfl, Nat.le_refl _, ?_⟩
    rw [htarget, layout_single, List.take_length]
  · split at h
    · next slot' hlookup =>
      cases h
      obtain ⟨a, ha, -, heq⟩ := mem_boundaries.1 (mem_of_lookup hlookup)
      cases heq
      rw [places_single] at ha
      obtain ⟨n, hdrop, hslot, hposition⟩ := placesFrom_spec ha
      rw [hslot, hposition]
      refine ⟨rfl, ?_, ?_⟩
      · show 0 + n ≤ r.length
        rw [Nat.zero_add]
        refine Nat.le_of_not_lt fun hn => ?_
        rw [List.drop_eq_nil_of_le (Nat.le_of_lt hn)] at hdrop
        cases hdrop
      · show (Routine.size (r.take (0 + n)) : Int) = 0 + Routine.size (r.take n)
        rw [Nat.zero_add]
        omega
    · cases h

/-- What an addition does to routine `k`: branches become references to identifiers from `low` on,
and each identifier gets a marker at the position that it stands for. -/
structure Addition (start : Int) (k : Nat) (low next : UInt32) (r r' : Routine)
    (ids : List (Int × UInt32)) (inserts : List (Slot × Instr)) : Prop where
  assigned : Assigned low next ids
  respelled : Respelled (adding ids start r.size) (fun _ => False) (fun _ => False) start r r'
  slots : (inserts.map Prod.fst).Nodup
  routine : ∀ a ∈ inserts, a.1.routine = k
  marks : inserts.map Prod.snd = ids.map fun x => Instr.symbolic (.branchTarget x.2)
  placed : ∀ x ∈ ids, ∃ n, n ≤ r.length ∧ (Routine.size (r.take n) : Int) = x.1 ∧
    (⟨k, n⟩, Instr.symbolic (.branchTarget x.2)) ∈ inserts

/-- Additions to routines that are numbered from `k` and laid out from a position, with identifiers
from `low` on. -/
inductive Additions : Int → Nat → UInt32 → List Routine → List Routine → List (Slot × Instr) → Prop
  | nil {p : Int} {k : Nat} {low : UInt32} : Additions p k low [] [] []
  | cons {p : Int} {k : Nat} {low next : UInt32} {r r' : Routine} {rs rs' : List Routine}
      {ids : List (Int × UInt32)} {inserts inserts' : List (Slot × Instr)}
      (h : Addition p k low next r r' ids inserts)
      (hrest : Additions (p + r.size) (k + 1) next rs rs' inserts') :
      Additions p k low (r :: rs) (r' :: rs') (inserts ++ inserts')

/-- Additions to some routines are those to the first one, and those to the others with the identifiers
that are left. -/
theorem addFrom_cons {k n : Nat} {low : UInt32} {r : Routine} {rs rs' : List Routine}
    {inserts : List (Slot × Instr)} :
    addFrom k low (r :: rs) = .ok (n, rs', inserts) ↔ ∃ ids n₁ r₁ inserts₁ n₂ rs₂ inserts₂,
      Visit.routine (addStep k (boundaries k 0 [r]) (layout 0 [r]).2) ⟨low, []⟩ 0 r = .ok (ids, n₁, r₁) ∧
      (ids.assigned.mapM fun x => do
        let slot ← markerSlot k r (boundaries k 0 [r]) (layout 0 [r]).2 x.1
        return (slot, Instr.symbolic (.branchTarget x.2))) = .ok inserts₁ ∧
      addFrom (k + 1) ids.next rs = .ok (n₂, rs₂, inserts₂) ∧
      n = n₁ + n₂ ∧ rs' = r₁ :: rs₂ ∧ inserts = inserts₁ ++ inserts₂ := by
  rw [addFrom]
  constructor
  · intro h
    obtain ⟨⟨ids, n₁, r₁⟩, hvisit, h⟩ := Run.except_bind_eq_ok_iff.1 h
    obtain ⟨inserts₁, hinserts, h⟩ := Run.except_bind_eq_ok_iff.1 h
    obtain ⟨⟨n₂, rs₂, inserts₂⟩, hrest, h⟩ := Run.except_bind_eq_ok_iff.1 h
    cases h
    exact ⟨_, _, _, _, _, _, _, hvisit, hinserts, hrest, rfl, rfl, rfl⟩
  · rintro ⟨ids, n₁, r₁, inserts₁, n₂, rs₂, inserts₂, hvisit, hinserts, hrest, rfl, rfl, rfl⟩
    refine Run.except_bind_eq_ok_iff.2 ⟨_, hvisit, ?_⟩
    refine Run.except_bind_eq_ok_iff.2 ⟨_, hinserts, ?_⟩
    exact Run.except_bind_eq_ok_iff.2 ⟨_, hrest, rfl⟩

theorem additions_of_addFrom {k n : Nat} {low : UInt32} {rs rs' : List Routine}
    {inserts : List (Slot × Instr)} (h : addFrom k low rs = .ok (n, rs', inserts)) (p : Int) :
    Additions p k low rs rs' inserts := by
  induction rs generalizing k n low rs' inserts p with
  | nil =>
    cases h
    exact Additions.nil
  | cons r rs ih =>
    obtain ⟨ids, n₁, r₁, inserts₁, n₂, rs₁, inserts', hvisit, hinserts, hrest, -, rfl, rfl⟩ :=
      addFrom_cons.1 h
    rw [layout_single] at hvisit
    obtain ⟨hgrows, hspell⟩ := Visit.respelled Grows Grows.refl Grows.trans
      (fun hstep => (addStep_spec p hstep).1) addStep_marker p hvisit
    have hassigned := hgrows.assigned (Assigned.nil low)
    obtain ⟨hslots, hmarks, hplaced, horigin⟩ := places_of_mapM (fun id => .symbolic (.branchTarget id))
      (fun x _ slot hslot => (markerSlot_spec hslot).2.2) hassigned.targets hinserts
    refine Additions.cons ⟨hassigned, ?_, hslots, ?_, hmarks, ?_⟩ (ih hrest _)
    · rw [Int.add_zero] at hspell
      refine hspell.mono ?_ (fun _ => Iff.rfl) (fun _ hf => hf)
      rintro q b i i' - ⟨s, s', change, -, hstep, hlast, rfl⟩
      have hadded := (addStep_spec p hstep).2
      have hq : p + (q - p) = q := by omega
      rw [hq] at hadded
      rcases hadded with hsame | ⟨c, d, target, id, adjust, hi, hi', hid, hend, hsum⟩
      · exact Or.inl hsame
      · exact Or.inr ⟨c, d, target, id, adjust, hi, hi', hlast.kept _ hid, hend, hsum⟩
    · intro a ha
      obtain ⟨x, -, hslot⟩ := horigin a ha
      exact (markerSlot_spec hslot).1
    · intro x hx
      obtain ⟨⟨j, n⟩, hslot, hin⟩ := hplaced x hx
      obtain ⟨rfl, hn, hposition⟩ := markerSlot_spec hslot
      exact ⟨n, hn, hposition, hin⟩

namespace Additions

variable {p : Int} {k : Nat} {low : UInt32} {rs rs' : List Routine} {inserts : List (Slot × Instr)}

theorem slots (h : Additions p k low rs rs' inserts) :
    (inserts.map Prod.fst).Nodup ∧ ∀ a ∈ inserts, k ≤ a.1.routine := by
  induction h with
  | nil => exact ⟨List.nodup_nil, nofun⟩
  | @cons p k low next r r' rs rs' ids inserts inserts' h _ ih =>
    obtain ⟨hslots, hlater⟩ := ih
    refine ⟨?_, ?_⟩
    · rw [List.map_append, List.nodup_append]
      refine ⟨h.slots, hslots, ?_⟩
      intro s hs s' hs' heq
      obtain ⟨a, ha, rfl⟩ := List.mem_map.1 hs
      obtain ⟨b, hb, rfl⟩ := List.mem_map.1 hs'
      have hfirst := h.routine a ha
      have hsecond := hlater b hb
      rw [heq] at hfirst
      omega
    · intro a ha
      rcases List.mem_append.1 ha with ha | ha
      · exact Nat.le_of_eq (h.routine a ha).symm
      · exact Nat.le_of_succ_le (hlater a ha)

theorem marker (h : Additions p k low rs rs' inserts) {a : Slot × Instr} (ha : a ∈ inserts) :
    isMarker a.2 = true ∧ a.2.subject? = some .branches := by
  induction h with
  | nil => cases ha
  | @cons p k low next r r' rs rs' ids inserts inserts' h _ ih =>
    rcases List.mem_append.1 ha with ha | ha
    · have hmark : a.2 ∈ inserts.map Prod.snd := List.mem_map.2 ⟨a, ha, rfl⟩
      rw [h.marks] at hmark
      obtain ⟨x, -, hx⟩ := List.mem_map.1 hmark
      rw [← hx]
      exact ⟨rfl, rfl⟩
    · exact ih ha

/-- The new identifiers are distinct, and none is below the first free one. -/
theorem newIds (h : Additions p k low rs rs' inserts) :
    (inserts.filterMap fun a => a.2.branchId?).Nodup ∧
      ∀ id ∈ inserts.filterMap (fun a => a.2.branchId?), low.toNat ≤ id.toNat := by
  induction h with
  | nil => exact ⟨List.nodup_nil, nofun⟩
  | @cons p k low next r r' rs rs' ids inserts inserts' h _ ih =>
    obtain ⟨hnodup, hlater⟩ := ih
    have hown : (inserts.filterMap fun a => a.2.branchId?) = ids.map Prod.snd :=
      filterMap_marks (fun id => .symbolic (.branchTarget id)) (fun _ => rfl) h.marks
    have hlow := h.assigned.low_le
    rw [List.filterMap_append, hown]
    refine ⟨List.nodup_append.2 ⟨h.assigned.distinct, hnodup, ?_⟩, ?_⟩
    · intro id hid id' hid' heq
      obtain ⟨x, hx, rfl⟩ := List.mem_map.1 hid
      have hfirst := (h.assigned.range x hx).2
      have hsecond := hlater id' hid'
      rw [heq] at hfirst
      omega
    · intro id hid
      rcases List.mem_append.1 hid with hid | hid
      · obtain ⟨x, hx, rfl⟩ := List.mem_map.1 hid
        exact (h.assigned.range x hx).1
      · exact Nat.le_trans hlow (hlater id hid)

theorem ids_eq {pick : Instr → Option UInt32} (hpick : PicksMarkers pick)
    (h : Additions p k low rs rs' inserts) : Routine.ids pick rs' = Routine.ids pick rs := by
  unfold Routine.ids
  induction h with
  | nil => rfl
  | cons h _ ih =>
    rw [List.flatMap_cons, List.flatMap_cons, ih, h.respelled.filterMap_ids (adding_faithful _ _ _) hpick
      (fun _ hf => hf.elim) (fun _ hf => hf.elim)]

theorem along (h : Additions p k low rs rs' inserts) :
    Along (fun start r r' => ∃ ids, Respelled (adding ids start r.size) (fun _ => False)
      (fun _ => False) start r r') p rs rs' := by
  induction h with
  | nil => exact Along.nil
  | cons h _ ih => exact Along.cons ⟨_, h.respelled⟩ ih

end Additions

/-- Adding respells each routine and inserts markers of branches. -/
theorem respelled_of_add {n : Nat} {rs rs' : List Routine} (h : add rs = .ok (n, rs')) (p : Int) :
    Along (fun start r r' => ∃ ids, Respelled (adding ids start r.size) (fun _ => False)
      (fun m => m.subject? = some .branches) start r r') p rs rs' := by
  unfold add at h
  obtain ⟨next, -, h⟩ := Run.except_bind_eq_ok_iff.1 h
  obtain ⟨⟨count, rs₁, inserts⟩, hfrom, h⟩ := Run.except_bind_eq_ok_iff.1 h
  cases h
  have hadds := additions_of_addFrom hfrom p
  rw [insertAll_eq _ hadds.slots.1]
  refine Along.insertEach (fun k hr => ?_) hadds.along 0
  obtain ⟨ids, hr⟩ := hr
  refine ⟨ids, Respelled.insertFrom (fun s m hm => ?_) ?_ _⟩
  · exact hadds.marker (mem_of_lookup (Option.mem_toList.1 hm))
  · exact hr.mono (fun _ hs => hs) (fun _ => Iff.rfl) (fun _ hf => hf.elim)

/-! ## Additions as respellings -/

theorem branch?_branchTo (c : Condition) (target adjust : UInt32) :
    (Symbolic.branchTo c target adjust).branch? = some (c, target, adjust) := by
  cases c <;> rfl

namespace Addition

variable {start : Int} {k : Nat} {low next : UInt32} {r r' : Routine} {ids : List (Int × UInt32)}
  {inserts : List (Slot × Instr)} {new : Slot → List Instr}

/-- Old markers keep their positions. -/
theorem mem_marks_of_old (h : Addition start k low next r r' ids inserts)
    (hnew : ∀ s, ∀ m ∈ new s, isMarker m = true) {x : UInt32 × Int}
    (hx : x ∈ r.marksFrom Instr.branchId? 0) :
    x ∈ Routine.marksFrom Instr.branchId? 0 (insertFrom new ⟨k, 0⟩ r') := by
  refine mem_marksFrom_insertFrom hnew ?_
  rw [h.respelled.marksFrom (adding_faithful _ _ _) picksMarkers_branchId? (fun _ hf => hf.elim)
    (fun _ hf => hf.elim)]
  exact hx

/-- New markers stand where they should. -/
theorem mem_marks_of_new (h : Addition start k low next r r' ids inserts)
    (hnew : ∀ s, ∀ m ∈ new s, isMarker m = true) (hin : ∀ a ∈ inserts, a.2 ∈ new a.1)
    {x : Int × UInt32} (hx : x ∈ ids) :
    (x.2, x.1) ∈ Routine.marksFrom Instr.branchId? 0 (insertFrom new ⟨k, 0⟩ r') := by
  obtain ⟨n, hn, hposition, hmem⟩ := h.placed x hx
  have hsizes : r'.map Instr.size = r.map Instr.size := h.respelled.map_size (adding_faithful _ _ _)
  have hlength : r'.length = r.length := by
    have := congrArg List.length hsizes
    rwa [List.length_map, List.length_map] at this
  have htake : Routine.size (r'.take n) = Routine.size (r.take n) := by
    unfold Routine.size
    rw [List.map_take, List.map_take, hsizes]
  have hmark := hin _ hmem
  rw [← Nat.zero_add n] at hmark
  have hnew' := @mem_marksFrom_of_new Instr.branchId? new hnew ⟨k, 0⟩ 0 r' n (by omega) _ hmark x.2 rfl
  rw [htake, hposition, Int.zero_add] at hnew'
  exact hnew'

theorem raised (h : Addition start k low next r r' ids inserts) {F : Int → Routine → Frame}
    (hF : Framed F) (hnew : ∀ s, ∀ m ∈ new s, isMarker m = true ∧ m.subject? = some .branches)
    (hin : ∀ a ∈ inserts, a.2 ∈ new a.1)
    (hnodup : (List.filterMap Instr.branchId? (insertFrom new ⟨k, 0⟩ r')).Nodup) :
    Respelled (raising .branches id (F start (insertFrom new ⟨k, 0⟩ r'))) (fun _ => False)
      (fun m => m.subject? = some .branches) start r (insertFrom new ⟨k, 0⟩ r') ∧
    Image.Extends (r.marksFrom Instr.branchId? 0)
      (Routine.marksFrom Instr.branchId? 0 (insertFrom new ⟨k, 0⟩ r')) := by
  have hmarker : ∀ s, ∀ m ∈ new s, isMarker m = true := fun s m hm => (hnew s m hm).1
  have hlookup : ∀ {id : UInt32} {q : Int},
      (id, q) ∈ Routine.marksFrom Instr.branchId? 0 (insertFrom new ⟨k, 0⟩ r') →
        (Routine.marksFrom Instr.branchId? 0 (insertFrom new ⟨k, 0⟩ r')).lookup id = some q := by
    intro id q hmem
    refine (lookup_eq_some_iff_mem ?_).2 hmem
    rw [Routine.map_fst_marksFrom]
    exact hnodup
  refine ⟨?_, fun id q hq => hlookup (h.mem_marks_of_old hmarker (mem_of_lookup hq))⟩
  have hinserted := Respelled.insertFrom hnew
    (h.respelled.mono (fun _ hs => hs) (fun _ => Iff.rfl) (fun _ hf => hf.elim)) ⟨k, 0⟩
  refine hinserted.mono ?_ (fun _ => Iff.rfl) (fun _ hf => hf)
  rintro q b i i' - (rfl | ⟨c, d, target, id, adjust, rfl, rfl, hid, hend, hsum⟩)
  · exact Or.inl ⟨rfl, fun _ _ => rfl⟩
  · have hmark : (F start (insertFrom new ⟨k, 0⟩ r')).branches.lookup id = some target := by
      rw [hF.branches]
      exact hlookup (h.mem_marks_of_new hmarker hin hid)
    refine Or.inr ⟨_, rfl, ?_, Denotes.branch (branch?_branchTo c id adjust) hmark ?_ ?_⟩
    · exact congrArg some (Symbolic.subject_of_branch? (branch?_branchTo c id adjust))
    · rw [hF.size, size_insertFrom hmarker, h.respelled.size (adding_faithful _ _ _)]
      exact hend
    · rw [hF.start]
      exact hsum

end Addition

theorem Additions.raised {p : Int} {k : Nat} {low : UInt32} {rs rs' : List Routine}
    {inserts : List (Slot × Instr)} (h : Additions p k low rs rs' inserts) {F : Int → Routine → Frame}
    (hF : Framed F) {new : Slot → List Instr}
    (hnew : ∀ s, ∀ m ∈ new s, isMarker m = true ∧ m.subject? = some .branches)
    (hin : ∀ a ∈ inserts, a.2 ∈ new a.1)
    (hnodup : (Routine.ids Instr.branchId? (insertEach new k rs')).Nodup) :
    Along (fun start r r' => Respelled (raising .branches id (F start r')) (fun _ => False)
      (fun m => m.subject? = some .branches) start r r' ∧
        Image.Extends (r.marksFrom Instr.branchId? 0) (r'.marksFrom Instr.branchId? 0))
      p rs (insertEach new k rs') := by
  induction h with
  | nil => exact Along.nil
  | cons h _ ih =>
    unfold Routine.ids at hnodup
    rw [insertEach, List.flatMap_cons] at hnodup
    obtain ⟨hfirst, hrest, -⟩ := List.nodup_append.1 hnodup
    refine Along.cons (h.raised hF hnew ?_ hfirst) (ih ?_ hrest)
    · exact fun a ha => hin a (List.mem_append_left _ ha)
    · exact fun a ha => hin a (List.mem_append_right _ ha)

/-- Adding spells branches symbolically, and keeps what the code stands for. -/
theorem raised_of_add {image : Image} {code : List (List Op)} {n : Nat} {rs' : List Routine}
    (hstands : image.StandsFor code) (h : add image.code.routines = .ok (n, rs')) :
    Image.Raised .branches id image (image.withRoutines rs') := by
  unfold add at h
  obtain ⟨next, hnext, h⟩ := Run.except_bind_eq_ok_iff.1 h
  obtain ⟨⟨count, rs₁, inserts⟩, hfrom, h⟩ := Run.except_bind_eq_ok_iff.1 h
  cases h
  have hadds := additions_of_addFrom hfrom image.code.base.toNat
  obtain ⟨hslots, -⟩ := hadds.slots
  obtain ⟨hnewIds, hlow⟩ := hadds.newIds
  have hnodup : (Routine.ids Instr.branchId? (insertAll rs₁ inserts)).Nodup := by
    refine nodup_ids_insertAll ?_ hnewIds ?_
    · rw [hadds.ids_eq picksMarkers_branchId?]
      exact hstands.branchIds
    · rw [hadds.ids_eq picksMarkers_branchId?]
      intro id hid hmem
      have hlt := lt_of_nextId hnext targetId?_of_branchId? hid
      have hle := hlow id hmem
      omega
  have hnew : ∀ s, ∀ m ∈ (inserts.lookup s).toList, isMarker m = true ∧ m.subject? = some .branches :=
    fun s m hm => hadds.marker (mem_of_lookup (Option.mem_toList.1 hm))
  have hin : ∀ a ∈ inserts, a.2 ∈ (inserts.lookup a.1).toList :=
    fun a ha => Option.mem_toList.2 ((lookup_eq_some_iff_mem hslots).2 ha)
  have hraised := hadds.raised (framed (image.withRoutines (insertAll rs₁ inserts))) hnew hin
    (by rw [← insertAll_eq _ hslots]; exact hnodup)
  rw [← insertAll_eq _ hslots] at hraised
  have hfresh : ∀ m : Instr, m.subject? = some .branches → m.jumpId? = none :=
    fun m hm => Image.jumpId?_eq_none (by rw [hm]; decide)
  refine ⟨rfl, hraised, ?_, ?_, hnodup⟩
  · refine Image.Extends.of_eq (hraised.jumpMarkers_eq ?_ ?_)
    · exact fun hr => hr.1.size (raising_faithful _ Op.harmless_id _)
    · exact fun hr => hr.1.marksFrom (raising_faithful _ Op.harmless_id _) picksMarkers_jumpId?
        (fun _ hf => hf.elim) hfresh _
  · show (Routine.ids Instr.jumpId? (insertAll rs₁ inserts)).Nodup
    rw [hraised.ids_eq fun hr => hr.1.filterMap_ids (raising_faithful _ Op.harmless_id _)
      picksMarkers_jumpId? (fun _ hf => hf.elim) hfresh]
    exact hstands.jumpIds

end ScriptImage.Branches
