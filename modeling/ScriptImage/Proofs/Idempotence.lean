import ScriptImage.Proofs.PassOrder
import ScriptImage.Proofs.Plans

/-!
# Passes are idempotent

After a pass there is nothing left for the same pass to do.  A removing pass leaves none of
its instructions (`Image.Free`).  A pass that adds entries of a pool or class names leaves
indices only that lead nowhere.  After the one on branches no storable branch is left, and
after the one on jumps every jump is fed by a reference; markers that stand between do not
count.  All identifiers stay below the last one (`Targets.exists_nextId_iff`), so that the
second run has a free one to begin with, although it hands out none:

    p.run image = .ok n image' → p.run image' = .ok 0 image'
-/

namespace ScriptImage

open Jumps (isMarker)

variable {s : Subject} {image image' : Image}

/-! ## Visits that change nothing -/

namespace Visit

variable {σ : Type} {step : Step σ}

theorem routine_of_idle {st : σ} {p : Int} {r : Routine}
    (h : ∀ q, ∀ i ∈ r, step st q i = .ok (st, none)) : routine step st p r = .ok (st, 0, r) := by
  induction r generalizing p with
  | nil => rfl
  | cons i r ih =>
    have hrest := @ih (p + i.size) fun q j hj => h q j (List.mem_cons_of_mem _ hj)
    exact routine_cons.2 ⟨st, none, st, 0, r, h p i List.mem_cons_self, hrest, rfl⟩

theorem each_of_idle {change : Instr → Except Error (Option Instr)} {rs : List Routine}
    (h : ∀ r ∈ rs, ∀ i ∈ r, change i = .ok none) : each change rs = .ok (0, rs) := by
  have hrun : routines (fun (_ : Unit) _ i => (change i).map fun j => ((), j)) () rs = .ok ((), 0, rs) := by
    induction rs with
    | nil => rfl
    | cons r rs ih =>
      have hfirst : routine (fun (_ : Unit) _ i => (change i).map fun j => ((), j)) () 0 r =
          .ok ((), 0, r) := by
        apply routine_of_idle
        intro q i hi
        rw [h r List.mem_cons_self i hi]
        rfl
      rw [routines, hfirst]
      refine Run.except_bind_eq_ok_iff.2 ⟨_, rfl, ?_⟩
      exact Run.except_bind_eq_ok_iff.2
        ⟨_, ih fun r' hr' => h r' (List.mem_cons_of_mem _ hr'), rfl⟩
  rw [each, hrun]
  rfl

/-- A visit that leaves alone what it has made finds nothing to do the second time. -/
theorem each_each {change : Instr → Except Error (Option Instr)} {rs rs' : List Routine} {n : Nat}
    (hmarker : ∀ {m}, isMarker m = true → change m = .ok none)
    (hmade : ∀ {i j}, change i = .ok (some j) → change j = .ok none)
    (h : each change rs = .ok (n, rs')) : each change rs' = .ok (0, rs') := by
  apply each_of_idle
  intro r' hr' i' hi'
  obtain ⟨start, r, -, hr⟩ := (along_of_each hmarker h 0).exists_of_mem hr'
  rcases hr.mem hi' with ⟨hm, -, -⟩ | ⟨-, hf⟩ | ⟨q, b, i, -, -, hstep⟩
  · exact hmarker hm
  · exact hf.elim
  · rcases hstep with ⟨hnone, rfl⟩ | hsome
    · exact hnone
    · exact hmade hsome

end Visit

/-! ## Free identifiers -/

namespace Targets

theorem mem_of_max? {l : List UInt32} {highest : UInt32} (h : l.max? = some highest) : highest ∈ l := by
  have : Std.MaxEqOr UInt32 := by
    refine ⟨fun a b => ?_⟩
    by_cases hab : a ≤ b
    · exact Or.inr (if_pos hab)
    · exact Or.inl (if_neg hab)
  exact List.max?_mem h

/-- There is a free identifier exactly if the last one does not occur. -/
theorem exists_nextId_iff {rs : List Routine} :
    (∃ next, nextId rs = .ok next) ↔
      ∀ id ∈ Routine.ids Instr.targetId? rs, id.toNat < maxOffset := by
  have hids : (rs.flatMap fun r => r.filterMap Instr.targetId?) = Routine.ids Instr.targetId? rs := rfl
  unfold nextId
  rw [hids]
  cases hmax : (Routine.ids Instr.targetId? rs).max? with
  | none =>
    rw [List.max?_eq_none_iff.1 hmax]
    exact iff_of_true ⟨0, rfl⟩ nofun
  | some highest =>
    have hsucc : (∃ next, successor highest = .ok next) ↔ highest.toNat < maxOffset := by
      constructor
      · rintro ⟨next, h⟩
        exact (successor_eq_ok_iff.1 h).1
      · intro h
        have hne : highest.toNat ≠ maxOffset := by omega
        exact ⟨highest + 1, by rw [successor, if_neg hne]⟩
    refine hsucc.trans ⟨fun h id hid => ?_, fun h => h highest (mem_of_max? hmax)⟩
    exact Nat.lt_of_le_of_lt (le_of_max? hmax hid) h

/-- Identifiers that are handed out are not the last one. -/
theorem Assigned.lt_maxOffset {low next : UInt32} {ids : List (Int × UInt32)}
    (h : Assigned low next ids) {x : Int × UInt32} (hx : x ∈ ids) : x.2.toNat < maxOffset := by
  have hlt := (h.range x hx).2
  have hnext := next.toNat_lt
  unfold maxOffset
  omega

theorem mem_ids_iff {rs : List Routine} {id : UInt32} :
    id ∈ Routine.ids Instr.targetId? rs ↔ ∃ r ∈ rs, ∃ i ∈ r, i.targetId? = some id := by
  unfold Routine.ids
  simp only [List.mem_flatMap, List.mem_filterMap]

theorem mem_insertFrom {new : Slot → List Instr} {slot : Slot} {r : Routine} {i : Instr}
    (h : i ∈ insertFrom new slot r) : i ∈ r ∨ ∃ slot', i ∈ new slot' := by
  induction r generalizing slot with
  | nil => exact Or.inr ⟨slot, h⟩
  | cons j r ih =>
    rw [insertFrom, List.mem_append, List.mem_cons] at h
    rcases h with h | rfl | h
    · exact Or.inr ⟨slot, h⟩
    · exact Or.inl List.mem_cons_self
    · exact (ih h).imp_left (List.mem_cons_of_mem _)

theorem insertAll_nil (rs : List Routine) : insertAll rs [] = rs := by
  rw [insertAll, List.mergeSort_nil]
  rfl

/-- What stands in routines after insertions stood there before or has been inserted. -/
theorem mem_insertAll {rs : List Routine} {inserts : List (Slot × Instr)}
    (hslots : (inserts.map Prod.fst).Nodup) {r' : Routine} (hr' : r' ∈ insertAll rs inserts) {i : Instr}
    (hi : i ∈ r') : (∃ r ∈ rs, i ∈ r) ∨ i ∈ inserts.map Prod.snd := by
  rw [insertAll_eq rs hslots] at hr'
  generalize 0 = k at hr'
  induction rs generalizing k with
  | nil => cases hr'
  | cons r rs ih =>
    rcases List.mem_cons.1 hr' with rfl | hr'
    · rcases mem_insertFrom hi with hi | ⟨slot, hi⟩
      · exact Or.inl ⟨r, List.mem_cons_self, hi⟩
      · exact Or.inr (List.mem_map.2 ⟨_, mem_of_lookup (Option.mem_toList.1 hi), rfl⟩)
    · refine (ih (k + 1) hr').imp_left ?_
      rintro ⟨r, hr, hi⟩
      exact ⟨r, List.mem_cons_of_mem _ hr, hi⟩

end Targets

/-! ## Removing -/

namespace Image

theorem Cleared.free {n : Nat} (h : image.Cleared s n image') : Free s image'.code.routines :=
  Free.of_lowered h.lowered

end Image

/-- A routine without instructions of a pass is lowered to itself. -/
theorem Routine.lowered_self {F : Frame} {p : Int} {r : Routine} (h : ∀ i ∈ r, i.subject? ≠ some s) :
    r.Lowered s F p r := by
  unfold Routine.Lowered
  induction r generalizing p with
  | nil => exact Respelled.nil
  | cons i r ih =>
    have hi := h i List.mem_cons_self
    have hr := fun {p} => @ih p fun j hj => h j (List.mem_cons_of_mem _ hj)
    by_cases hm : isMarker i = true
    · exact Respelled.keep hm hi hr
    · rw [Bool.not_eq_true] at hm
      exact Respelled.instr hm (Or.inl ⟨hi, rfl⟩) hr

theorem Along.self {P : Int → Routine → Routine → Prop} {p : Int} {rs : List Routine}
    (h : ∀ {start r}, r ∈ rs → P start r r) : Along P p rs rs := by
  induction rs generalizing p with
  | nil => exact Along.nil
  | cons r rs ih => exact Along.cons (h List.mem_cons_self) (ih fun hr => h (List.mem_cons_of_mem _ hr))

namespace Image

theorem Free.about_eq_nil {rs : List Routine} (h : Free s rs) : Routine.about s rs = [] := by
  unfold Routine.about
  rw [List.flatMap_eq_nil_iff]
  intro r hr
  rw [List.filter_eq_nil_iff]
  intro i hi
  simp only [decide_eq_true_eq]
  exact h r hr i hi

/-- Where nothing belongs to a pass, it takes nothing in. -/
theorem Free.takes {rs : List Routine} (h : Free s rs) (header : Header) : s.Takes rs header header := by
  have habout : Routine.about s rs = Routine.about s [] := h.about_eq_nil
  rw [← Subject.takes_congr habout.symm]
  cases s with
  | strings => rfl
  | symbols => rfl
  | globals => rfl
  | classes => exact ⟨rfl, nofun⟩
  | branches => exact List.nodup_nil
  | jumps => exact List.nodup_nil

/-- An image without instructions of a removing pass is cleared already. -/
theorem Free.cleared (h : Free s image.code.routines) : image.Cleared s 0 image := by
  refine ⟨h.takes _, ?_, (Header.adopt_self _ _).symm, rfl, ?_⟩
  · rw [Routine.remaining, h.about_eq_nil]
    rfl
  · exact Along.self fun hr => Routine.lowered_self (h _ hr)

end Image

/-! ## Adding entries and class names -/

/-- An entry or a name that was put in the place of an index is left alone. -/
theorem Inlining.embed_of_embed {kind : PoolKind} {pool : StringPool} {i j : Instr}
    (h : embed kind pool i = .ok (some j)) : embed kind pool j = .ok none := by
  unfold embed at h
  split at h
  · cases h
  · split at h
    · split at h
      · obtain ⟨s, -, heq⟩ := Run.except_map_eq_ok_iff.1 h
        cases heq
        rfl
      · cases h
    · cases h

theorem ClassNames.embed_of_embed {classes : ClassTable} {i j : Instr}
    (h : embed classes i = .ok (some j)) : embed classes j = .ok none := by
  unfold embed at h
  split at h
  · split at h
    · cases h
      rfl
    · cases h
  · cases h

/-! ## Adding markers of branches -/

namespace Branches

open Targets

/-- No storable instruction of a routine is a branch. -/
def Spent (r : Routine) : Prop :=
  ∀ o, .op o ∈ r → o.branch? = none

theorem addStep_of_not_branch {k : Nat} {bs : List (Int × Slot)} {finish p : Int} {ids : Ids} {i : Instr}
    (h : ∀ o, i = .op o → o.branch? = none) : addStep k bs finish ids p i = .ok (ids, none) := by
  cases i with
  | symbolic s => rfl
  | op o => simp only [addStep, h o rfl]

/-- What a step leaves storable is no branch. -/
theorem branch?_of_addStep {k : Nat} {bs : List (Int × Slot)} {finish p : Int} {ids ids' : Ids}
    {i : Instr} {change : Option Instr} (h : addStep k bs finish ids p i = .ok (ids', change)) {o : Op}
    (ho : change.getD i = .op o) : o.branch? = none := by
  cases i with
  | symbolic s =>
    cases h
    cases ho
  | op o' =>
    unfold addStep at h
    cases hbranch : o'.branch? with
    | none =>
      simp only [hbranch] at h
      cases h
      cases ho
      exact hbranch
    | some x =>
      simp only [hbranch] at h
      split at h
      · cases h
      · split at h
        · cases h
        · obtain ⟨y, -, h⟩ := Run.except_bind_eq_ok_iff.1 h
          cases h
          cases ho

theorem spent_of_addFrom {k n : Nat} {low : UInt32} {rs rs' : List Routine}
    {inserts : List (Slot × Instr)} (h : addFrom k low rs = .ok (n, rs', inserts)) :
    ∀ r' ∈ rs', Spent r' := by
  induction rs generalizing k n low rs' inserts with
  | nil =>
    cases h
    exact nofun
  | cons r rs ih =>
    obtain ⟨ids, n₁, r₁, inserts₁, n₂, rs₁, inserts₂, hvisit, -, hrest, -, rfl, -⟩ := addFrom_cons.1 h
    intro r' hr'
    rcases List.mem_cons.1 hr' with rfl | hr'
    · intro o ho
      have hspell := (Visit.respelled (fun _ _ => True) (fun _ => trivial) (fun _ _ => trivial)
        (fun _ => trivial) addStep_marker 0 hvisit).2
      rcases hspell.mem ho with ⟨hm, -⟩ | ⟨hm, -⟩ | ⟨q, b, i, -, -, hstep⟩
      · cases hm
      · cases hm
      · obtain ⟨ids₁, ids₂, change, -, hstep, -, heq⟩ := hstep
        exact branch?_of_addStep hstep heq.symm
    · exact ih hrest r' hr'

theorem addFrom_of_spent {k : Nat} {next : UInt32} {rs : List Routine} (h : ∀ r ∈ rs, Spent r) :
    addFrom k next rs = .ok (0, rs, []) := by
  induction rs generalizing k with
  | nil => rfl
  | cons r rs ih =>
    have hvisit : Visit.routine (addStep k (boundaries k 0 [r]) (layout 0 [r]).2) ⟨next, []⟩ 0 r =
        .ok (⟨next, []⟩, 0, r) := by
      apply Visit.routine_of_idle
      intro q i hi
      apply addStep_of_not_branch
      rintro o rfl
      exact h r List.mem_cons_self o hi
    have hrest := @ih (k + 1) fun r' hr' => h r' (List.mem_cons_of_mem _ hr')
    exact addFrom_cons.2 ⟨⟨next, []⟩, 0, r, [], 0, rs, [], hvisit, rfl, hrest, rfl, rfl, rfl⟩

theorem targetId?_branchTo (c : Condition) (target adjust : UInt32) :
    Instr.targetId? (.symbolic (.branchTo c target adjust)) = some target := by
  cases c <;> rfl

/-- Identifiers in routines after an addition are old, or have been handed out. -/
theorem Additions.targetId? {p : Int} {k : Nat} {low : UInt32} {rs rs' : List Routine}
    {inserts : List (Slot × Instr)} (h : Additions p k low rs rs' inserts)
    (hold : ∀ id ∈ Routine.ids Instr.targetId? rs, id.toNat < maxOffset) {r' : Routine} (hr' : r' ∈ rs')
    {i : Instr} (hi : i ∈ r') {id : UInt32} (hid : i.targetId? = some id) : id.toNat < maxOffset := by
  induction h with
  | nil => cases hr'
  | @cons p k low next r r₁ rs rs' ids inserts inserts' h _ ih =>
    have hold₁ : ∀ j ∈ r, ∀ id, j.targetId? = some id → id.toNat < maxOffset := fun j hj id hid =>
      hold id (mem_ids_iff.2 ⟨r, List.mem_cons_self, j, hj, hid⟩)
    rcases List.mem_cons.1 hr' with rfl | hr'
    · rcases h.respelled.mem hi with ⟨-, -, hin⟩ | ⟨-, hf⟩ | ⟨q, b, j, hj, -, hstep⟩
      · exact hold₁ i hin id hid
      · exact hf.elim
      · rcases hstep with rfl | ⟨c, d, target, id', adjust, -, rfl, hassigned, -⟩
        · exact hold₁ _ hj id hid
        · rw [targetId?_branchTo] at hid
          cases hid
          exact h.assigned.lt_maxOffset hassigned
    · refine ih (fun id hid => ?_) hr'
      obtain ⟨r₂, hr₂, j, hj, hid⟩ := mem_ids_iff.1 hid
      exact hold id (mem_ids_iff.2 ⟨r₂, List.mem_cons_of_mem _ hr₂, j, hj, hid⟩)

/-- The inserted markers hold identifiers that have been handed out. -/
theorem Additions.targetId?_inserted {p : Int} {k : Nat} {low : UInt32} {rs rs' : List Routine}
    {inserts : List (Slot × Instr)} (h : Additions p k low rs rs' inserts) {m : Instr}
    (hm : m ∈ inserts.map Prod.snd) {id : UInt32} (hid : m.targetId? = some id) :
    id.toNat < maxOffset := by
  induction h with
  | nil => cases hm
  | @cons p k low next r r₁ rs rs' ids inserts inserts' h _ ih =>
    rw [List.map_append, List.mem_append, h.marks] at hm
    rcases hm with hm | hm
    · obtain ⟨x, hx, rfl⟩ := List.mem_map.1 hm
      cases hid
      exact h.assigned.lt_maxOffset hx
    · exact ih hm

theorem add_add {n : Nat} {rs rs' : List Routine} (h : add rs = .ok (n, rs')) :
    add rs' = .ok (0, rs') := by
  unfold add at h
  obtain ⟨next, hnext, h⟩ := Run.except_bind_eq_ok_iff.1 h
  obtain ⟨⟨count, rs₁, inserts⟩, hfrom, h⟩ := Run.except_bind_eq_ok_iff.1 h
  cases h
  have hadds := additions_of_addFrom hfrom 0
  have hspent := spent_of_addFrom hfrom
  obtain ⟨hslots, -⟩ := hadds.slots
  have hold := exists_nextId_iff.1 ⟨next, hnext⟩
  obtain ⟨next', hnext'⟩ : ∃ next', nextId (insertAll rs₁ inserts) = .ok next' := by
    refine exists_nextId_iff.2 fun id hid => ?_
    obtain ⟨r', hr', i, hi, hid⟩ := mem_ids_iff.1 hid
    rcases mem_insertAll hslots hr' hi with ⟨r₁, hr₁, hin⟩ | hin
    · exact hadds.targetId? hold hr₁ hin hid
    · exact hadds.targetId?_inserted hin hid
  have hspent' : ∀ r' ∈ insertAll rs₁ inserts, Spent r' := by
    intro r' hr' o ho
    rcases mem_insertAll hslots hr' ho with ⟨r₁, hr₁, hin⟩ | hin
    · exact hspent r₁ hr₁ o hin
    · -- only markers are inserted
      obtain ⟨a, ha, heq⟩ := List.mem_map.1 hin
      have hm := (hadds.marker ha).1
      rw [heq] at hm
      cases hm
  unfold add
  refine Run.except_bind_eq_ok_iff.2 ⟨next', hnext', ?_⟩
  refine Run.except_bind_eq_ok_iff.2 ⟨_, addFrom_of_spent hspent', ?_⟩
  exact congrArg (fun rs => Except.ok (0, rs)) (insertAll_nil _)

end Branches

/-! ## Adding markers of jumps -/

namespace Jumps

open Targets

/-- Every jump of a routine is fed by a reference. -/
structure Fed (r : Routine) : Prop where
  start : r.feedsJump = false
  feeders : ∀ i t, i :: t <:+ r → isMarker i = false → Routine.feedsJump t = true → i.isReference = true

/-- A spelling that makes references of everything that feeds a jump leaves no other feeders. -/
theorem fed_of_respelled {step : Spelling} {gone fresh : Instr → Prop} {p : Int} {r r' : Routine}
    (hstep : step.Faithful) (hrefers : ∀ {p i i'}, step p true i i' → i'.isReference = true)
    (hr : r.feedsJump = false) (h : Respelled step gone fresh p r r') : Fed r' := by
  refine ⟨?_, ?_⟩
  · rw [h.feedsJump hstep, hr]
  clear hr
  -- a marker in front of the routine is no feeder
  have hcons : ∀ {m : Instr} {r' : Routine}, isMarker m = true →
      (∀ i t, i :: t <:+ r' → isMarker i = false → Routine.feedsJump t = true → i.isReference = true) →
      ∀ i t, i :: t <:+ m :: r' → isMarker i = false → Routine.feedsJump t = true →
        i.isReference = true := by
    intro m r' hm hrest i t hsuffix hi
    rcases List.suffix_cons_iff.1 hsuffix with heq | hsuffix
    · cases heq
      rw [hm] at hi
      cases hi
    · exact hrest i t hsuffix hi
  induction h with
  | nil =>
    intro i t hsuffix
    cases List.suffix_nil.1 hsuffix
  | keep hm _ _ ih => exact hcons hm ih
  | drop _ _ _ ih => exact ih
  | insert hm _ _ ih => exact hcons hm ih
  | instr _ hs hrest ih =>
    intro i t hsuffix hi hfeeds
    rcases List.suffix_cons_iff.1 hsuffix with heq | hsuffix
    · cases heq
      rw [hrest.feedsJump hstep] at hfeeds
      rw [hfeeds] at hs
      exact hrefers hs
    · exact ih i t hsuffix hi hfeeds

theorem resolve_of_isReference {bs : List (Int × Slot)} {base finish : Int} {a : Place}
    (h : a.instr.isReference = true) : resolve bs base finish a.site = .ok none := by
  obtain ⟨target, adjust, hi⟩ := a.instr.exists_of_isReference h
  unfold resolve Place.site
  rw [hi]

/-- Where every jump is fed by a reference, nothing is left to resolve. -/
theorem resolve_of_fed {bs : List (Int × Slot)} {base finish p : Int} {k : Nat} {rs : List Routine}
    (h : ∀ r ∈ rs, Fed r) : ∀ s ∈ sites k p rs, resolve bs base finish s = .ok none := by
  induction rs generalizing k p with
  | nil => exact nofun
  | cons r rs ih =>
    have hr := h r List.mem_cons_self
    intro s hs
    rw [sites, sitesFrom_eq, hr.start, List.mem_append] at hs
    rcases hs with hs | hs
    · obtain ⟨a, ha, rfl⟩ := List.mem_map.1 hs
      obtain ⟨ha, hfed⟩ := List.mem_filter.1 ha
      simp only [Bool.and_eq_true, Bool.not_eq_true'] at hfed
      obtain ⟨n, hdrop, -⟩ := placesFrom_spec ha
      refine resolve_of_isReference (hr.feeders _ a.rest ?_ hfed.1 hfed.2)
      rw [← hdrop]
      exact List.drop_suffix n r
    · exact ih (fun r' hr' => h r' (List.mem_cons_of_mem _ hr')) s hs

/-- A pushed distance may be spelled as in `adding`, and whatever feeds a jump becomes a reference. -/
def feeding (ids : List (Int × UInt32)) (finish : Int) : Spelling := fun p feeds i i' =>
  adding ids finish p feeds i i' ∧ (feeds = true → i'.isReference = true)

theorem feeding_faithful (ids : List (Int × UInt32)) (finish : Int) : (feeding ids finish).Faithful where
  size := fun hs => (adding_faithful ids finish).size hs.1
  marker := fun hi hs => (adding_faithful ids finish).marker hi hs.1
  jump := fun hs => (adding_faithful ids finish).jump hs.1

namespace Decided

variable {base : UInt32} {rs : List Routine} {found : List (Option Resolved)} {next : UInt32}
  {ids : List (Int × UInt32)} {inserts : List (Slot × Instr)}

/-- What feeds a jump is a reference already, or becomes one. -/
theorem isReference_edited (h : Decided base rs found next ids inserts) {a : Place}
    (ha : a ∈ places 0 base.toNat rs) (hm : isMarker a.instr = false) (hfeeds : a.rest.feedsJump = true) :
    (edited (pushesAs ids (found.filterMap id)) a.slot a.instr).isReference = true := by
  rcases edited_cases (pushesAs ids (found.filterMap id)) a.slot a.instr with hin | ⟨hnone, hsame⟩
  · obtain ⟨push, -, heq⟩ := List.mem_map.1 hin
    rw [← (Prod.mk.inj heq).2]
    rfl
  · rw [hsame]
    obtain ⟨y, hy, hresolve⟩ := Run.mem_of_mapM h.resolved (site_mem ha hm hfeeds)
    cases y with
    | some push =>
      obtain ⟨d, -, hslot, -⟩ := resolve_site hresolve
      have hin : (push.slot, Instr.symbolic (.jumpPush ((ids.lookup push.target).getD 0) push.adjust)) ∈
          pushesAs ids (found.filterMap id) :=
        List.mem_map.2 ⟨push, List.mem_filterMap.2 ⟨_, hy, rfl⟩, rfl⟩
      rw [hslot] at hin
      exact absurd hin (hnone _)
    | none =>
      unfold resolve Place.site at hresolve
      simp only at hresolve
      split at hresolve
      · split at hresolve
        · cases hresolve
        · split at hresolve <;> cases hresolve
      · next heq =>
        rw [(Prod.mk.inj (Option.some.inj heq)).2]
        rfl
      · cases hresolve

/-- Setting the references spells every feeder of a jump as one. -/
theorem respelled_feeding (h : Decided base rs found next ids inserts) :
    Along (fun p r r' => Respelled (feeding ids (layout base.toNat rs).2) (fun _ => False) (fun _ => False)
      p r r') base.toNat rs (setAll rs (pushesAs ids (found.filterMap id))) :=
  h.addition.respelled_of_edited fun _ ha hm =>
    ⟨h.addition.adding_edited ha, h.isReference_edited ha hm⟩

/-- After an addition every jump is fed by a reference. -/
theorem fed (h : Decided base rs found next ids inserts) :
    ∀ r' ∈ insertAll (setAll rs (pushesAs ids (found.filterMap id))) inserts, Fed r' := by
  intro r' hr'
  obtain ⟨p, r, hr, hspell⟩ := (h.addition.respelled_insertAll h.respelled_feeding).exists_of_mem hr'
  refine fed_of_respelled (feeding_faithful ids _) (fun hs => hs.2 rfl) ?_ hspell
  -- the addition would have failed on a routine that begins with a jump
  rw [← Bool.not_eq_true]
  intro hfeeds
  obtain ⟨s, hs, hnone⟩ := @exists_unfed 0 base.toNat rs r hr hfeeds
  obtain ⟨y, -, hresolve⟩ := Run.mem_of_mapM h.resolved hs
  exact resolve_unfed hnone y hresolve

/-- Identifiers in routines after an addition are not the last one. -/
theorem targetId? (h : Decided base rs found next ids inserts) {r' : Routine}
    (hr' : r' ∈ insertAll (setAll rs (pushesAs ids (found.filterMap id))) inserts) {i : Instr}
    (hi : i ∈ r') {id : UInt32} (hid : i.targetId? = some id) : id.toNat < maxOffset := by
  obtain ⟨next', hassigned⟩ := (assignIds_spec (Assigned.nil next) h.assigned).1
  have hold := exists_nextId_iff.1 ⟨next, h.free⟩
  have hadd := h.addition
  rcases mem_insertAll hadd.slots hr' hi with ⟨r₁, hr₁, hin⟩ | hin
  · obtain ⟨p, r, hr, hspell⟩ := hadd.respelled_setAll.exists_of_mem hr₁
    rcases hspell.mem hin with ⟨-, -, hin⟩ | ⟨-, hf⟩ | ⟨q, b, j, hj, -, hstep⟩
    · exact hold id (mem_ids_iff.2 ⟨r, hr, i, hin, hid⟩)
    · exact hf.elim
    · rcases hstep with rfl | ⟨d, target, id', adjust, -, rfl, -, hassign, -⟩
      · exact hold id (mem_ids_iff.2 ⟨r, hr, _, hj, hid⟩)
      · cases hid
        exact hassigned.lt_maxOffset hassign
  · rw [hadd.marks] at hin
    obtain ⟨x, hx, rfl⟩ := List.mem_map.1 hin
    cases hid
    exact hassigned.lt_maxOffset hx

end Decided

theorem add_add {base : UInt32} {n : Nat} {rs rs' : List Routine} (h : add base rs = .ok (n, rs')) :
    add base rs' = .ok (0, rs') := by
  obtain ⟨found, next, ids, inserts, hdecided, -, rfl⟩ := add_eq_ok_iff.1 h
  obtain ⟨next', hnext'⟩ : ∃ next', nextId
      (insertAll (setAll rs (pushesAs ids (found.filterMap id))) inserts) = .ok next' := by
    refine exists_nextId_iff.2 fun id hid => ?_
    obtain ⟨r', hr', i, hi, hid⟩ := mem_ids_iff.1 hid
    exact hdecided.targetId? hr' hi hid
  have hfed := hdecided.fed
  generalize insertAll (setAll rs (pushesAs ids (found.filterMap id))) inserts = rs' at hnext' hfed
  have hresolve := @resolve_of_fed (boundaries 0 base.toNat rs') base.toNat (layout base.toNat rs').2
    base.toNat 0 rs' hfed
  have hfound : (sites 0 base.toNat rs').mapM
      (resolve (boundaries 0 base.toNat rs') base.toNat (layout base.toNat rs').2) =
      .ok ((sites 0 base.toNat rs').map fun _ => none) := by
    rw [Run.mapM_eq_ok_iff, List.map_map]
    exact List.map_congr_left hresolve
  have hnone : ((sites 0 base.toNat rs').map fun _ => (none : Option Resolved)).filterMap id = [] := by
    simp
  refine add_eq_ok_iff.2 ⟨_, next', [], [], ⟨hfound, hnext', ?_, rfl⟩, ?_, ?_⟩
  · rw [hnone]
    rfl
  · rw [hnone]
    rfl
  · rw [hnone, insertAll_nil]
    rfl

end Jumps

/-! ## All passes -/

namespace Pass

variable {p : Pass} {n : Nat}

theorem apply_apply (h : p.apply image = .ok (n, image')) : p.apply image' = .ok (0, image') := by
  have hagain : ∀ {rs' : List Routine} {again : Except Error (Nat × List Routine)},
      again = .ok (0, rs') →
      (again.map fun x => (x.1, (image.withRoutines rs').withRoutines x.2)) =
        .ok (0, image.withRoutines rs') := by
    rintro rs' again rfl
    rfl
  cases p with
  | remove s => exact apply_remove_eq_ok_iff.2 (apply_remove_eq_ok_iff.1 h).free.cleared
  | add s =>
    cases s with
    | strings =>
      obtain ⟨rs', hadd, rfl⟩ := exists_of_map h
      exact hagain (Visit.each_each Inlining.embed_marker Inlining.embed_of_embed hadd)
    | symbols =>
      obtain ⟨rs', hadd, rfl⟩ := exists_of_map h
      exact hagain (Visit.each_each Inlining.embed_marker Inlining.embed_of_embed hadd)
    | globals =>
      obtain ⟨rs', hadd, rfl⟩ := exists_of_map h
      exact hagain (Visit.each_each Inlining.embed_marker Inlining.embed_of_embed hadd)
    | classes =>
      obtain ⟨rs', hadd, rfl⟩ := exists_of_map h
      exact hagain (Visit.each_each ClassNames.embed_marker ClassNames.embed_of_embed hadd)
    | branches =>
      obtain ⟨rs', hadd, rfl⟩ := exists_of_map h
      exact hagain (Branches.add_add hadd)
    | jumps =>
      obtain ⟨rs', hadd, rfl⟩ := exists_of_map h
      exact hagain (Jumps.add_add hadd)

/-- **Passes are idempotent.** A pass that has gone through changes nothing when it runs again: it goes
through, answers that it has changed no instruction, and leaves the whole image, in one go as well as
in place. -/
theorem run_again (h : p.run image = .ok n image') :
    p.run image' = .ok 0 image' ∧ p.perform image' = .ok 0 image' := by
  have hagain : p.run image' = .ok 0 image' := run_eq_ok_iff.2 (apply_apply (run_eq_ok_iff.1 h))
  refine ⟨hagain, ?_⟩
  rw [perform_eq_run, InPlace.ofImageM, hagain]

/-- A jump into the push that feeds it, past a marker that holds the last identifier but two. -/
def lateSample : Image where
  header := Header.empty .v41
  code :=
    { routines :=
        [[.op (.pushInt32 (-3)), .symbolic (.jumpTarget 0xfffffffd), .op .jumpRelative, .op .endRoutine]]
      offsets := [0]
      index := [(0, 0)]
      base := 0 }
  order := .little

/-- The new marker holds the last identifier but one, and there is still one left. -/
theorem run_again_late :
    let added := lateSample.withRoutines
      [[.symbolic (.jumpTarget 0xfffffffe), .symbolic (.jumpPush 0xfffffffe 3),
        .symbolic (.jumpTarget 0xfffffffd), .op .jumpRelative, .op .endRoutine]]
    (Pass.add .jumps).run lateSample = .ok 1 added ∧
      (Pass.add .jumps).run added = .ok 0 added ∧ (Pass.add .jumps).perform added = .ok 0 added := by
  intro added
  have hrun : (Pass.add .jumps).run lateSample = .ok 1 added := by decide +kernel
  exact ⟨hrun, run_again hrun⟩

end Pass

end ScriptImage
