import ScriptImage.Proofs.BranchPasses
import ScriptImage.Proofs.JumpPasses
import ScriptImage.Proofs.Landing
import ScriptImage.Proofs.Positions

/-!
# Every target has a boundary

Boundaries are kept in an ordered map that is filled in one go over the instructions: each sized one
puts its place under its position, unless the position has a place already.  That never happens, as
sized instructions tile the code; markers and empty routines share the position of what follows and
own none.  So a target from the beginning to the end is moved back to the start of the one
instruction that covers it:

    p ≤ t ≤ finish → snap … t = some (b, a) with b + a = t

The boundary is either the end or found in the map again.  Hence neither pass that adds markers ever
misses a boundary, and none of their errors is an internal one.
-/

namespace ScriptImage

namespace Targets

/-! ## The map of boundaries -/

/-- Puts a place under a position in an ordered map, unless there is one already. -/
def orInsert (q : Int) (slot : Slot) : List (Int × Slot) → List (Int × Slot)
  | [] => [(q, slot)]
  | b :: bs =>
    if q < b.1 then (q, slot) :: b :: bs
    else if q = b.1 then b :: bs
    else b :: orInsert q slot bs

/-- Puts the sized instructions of a routine into a map, each under its position. -/
def fillRoutine : Slot → Routine → List Int → List (Int × Slot) → List (Int × Slot)
  | slot, i :: r, q :: starts, bs =>
    fillRoutine slot.next r starts (if 0 < i.size then orInsert q slot bs else bs)
  | _, _, _, bs => bs

/-- Puts the sized instructions of routines that are numbered from `k` into a map. -/
def fill : Nat → List Routine → List (List Int) → List (Int × Slot) → List (Int × Slot)
  | k, r :: rs, starts :: rest, bs => fill (k + 1) rs rest (fillRoutine ⟨k, 0⟩ r starts bs)
  | _, _, _, bs => bs

variable {k : Nat} {p q t b : Int} {rs : List Routine} {slot : Slot} {i : Instr} {bs : List (Int × Slot)}

theorem orInsert_of_lt (h : ∀ x ∈ bs, x.1 < q) : orInsert q slot bs = bs ++ [(q, slot)] := by
  induction bs with
  | nil => rfl
  | cons x bs ih =>
    have hx := h x List.mem_cons_self
    rw [orInsert, if_neg (by omega), if_neg (by omega), ih fun y hy => h y (List.mem_cons_of_mem _ hy)]
    rfl

/-- As long as all entries lie before a routine, those of the routine come behind them. -/
theorem fillRoutine_positions (p : Int) (slot : Slot) (r : Routine) (h : ∀ x ∈ bs, x.1 < p) :
    fillRoutine slot r (positions p r) bs = bs ++ routineBoundaries slot p r ∧
      ∀ x ∈ bs ++ routineBoundaries slot p r, x.1 < p + r.size := by
  induction r generalizing slot p bs with
  | nil =>
    rw [routineBoundaries, List.append_nil, Routine.size_nil]
    exact ⟨rfl, fun x hx => by have := h x hx; omega⟩
  | cons i r ih =>
    rw [positions, fillRoutine, routineBoundaries, Routine.size_cons]
    by_cases hi : 0 < i.size
    · have hnext : ∀ x ∈ bs ++ [(p, slot)], x.1 < p + i.size := by
        intro x hx
        rcases List.mem_append.1 hx with hx | hx
        · have := h x hx
          omega
        · obtain rfl := List.mem_singleton.1 hx
          show p < p + i.size
          omega
      obtain ⟨hfill, hbound⟩ := ih (p + i.size) slot.next hnext
      rw [if_pos hi, if_pos hi, orInsert_of_lt h, hfill, List.append_assoc]
      rw [List.append_assoc] at hbound
      exact ⟨rfl, fun x hx => by have := hbound x hx; omega⟩
    · -- a marker leaves the position to the next instruction
      obtain ⟨hfill, hbound⟩ := ih (p + i.size) slot.next fun x hx => by have := h x hx; omega
      rw [if_neg hi, if_neg hi, hfill]
      exact ⟨rfl, fun x hx => by have := hbound x hx; omega⟩

theorem fill_layout (k : Nat) (p : Int) (rs : List Routine) (h : ∀ x ∈ bs, x.1 < p) :
    fill k rs (layout p rs).1 bs = bs ++ boundaries k p rs := by
  induction rs generalizing k p bs with
  | nil => exact (List.append_nil bs).symm
  | cons r rs ih =>
    obtain ⟨hfill, hbound⟩ := fillRoutine_positions p ⟨k, 0⟩ r h
    show fill (k + 1) rs (layout (p + r.size) rs).1 (fillRoutine ⟨k, 0⟩ r (positions p r) bs) = _
    rw [hfill, ih (k + 1) (p + r.size) hbound, boundaries, List.append_assoc]

theorem pairwise_boundaries (k : Nat) (p : Int) (rs : List Routine) :
    (boundaries k p rs).Pairwise fun x y => x.1 < y.1 := by
  rw [boundaries_eq, List.pairwise_map, List.pairwise_filter]
  refine (pairwise_places k p rs).imp fun {a b} hab ha _ => ?_
  rw [decide_eq_true_eq] at ha
  simp only
  omega

/-- The last boundary that a scan meets is the greatest at or before the target. -/
theorem lastBoundary?_eq_some_iff (h : bs.Pairwise fun x y => x.1 < y.1) :
    lastBoundary? bs t = some b ↔
      (∃ slot, (b, slot) ∈ bs) ∧ b ≤ t ∧ ∀ x ∈ bs, x.1 ≤ t → x.1 ≤ b := by
  induction bs using List.reverseRecOn with
  | nil => simp [lastBoundary?]
  | append_singleton bs x ih =>
    obtain ⟨hbs, -, hx⟩ := List.pairwise_append.1 h
    simp only [List.forall_mem_singleton] at hx
    have hlast : lastBoundary? (bs ++ [x]) t = if x.1 ≤ t then some x.1 else lastBoundary? bs t := by
      rw [lastBoundary?, List.foldl_append, List.foldl_cons, List.foldl_nil]
      rfl
    have hmem : (∃ slot, (b, slot) ∈ bs ++ [x]) ↔ (∃ slot, (b, slot) ∈ bs) ∨ b = x.1 := by
      simp only [List.mem_append, List.mem_singleton, exists_or, Prod.ext_iff, exists_and_left,
        exists_eq, and_true]
    rw [hlast, hmem, List.forall_mem_append, List.forall_mem_singleton]
    by_cases hxt : x.1 ≤ t
    · rw [if_pos hxt, Option.some.injEq]
      constructor
      · rintro rfl
        exact ⟨.inr rfl, hxt, fun y hy _ => Int.le_of_lt (hx y hy), fun _ => Int.le_refl _⟩
      · rintro ⟨⟨slot, hb⟩ | hb, -, -, hgreatest⟩
        · have hbefore : b < x.1 := hx _ hb
          have hle := hgreatest hxt
          omega
        · exact hb.symm
    · rw [if_neg hxt, ih hbs]
      constructor
      · rintro ⟨hb, hbt, hgreatest⟩
        exact ⟨.inl hb, hbt, hgreatest, fun h => absurd h hxt⟩
      · rintro ⟨hb | rfl, hbt, hgreatest, -⟩
        · exact ⟨hb, hbt, hgreatest⟩
        · exact absurd hbt hxt

/-! ## Covering -/

/-- The instruction at a place begins at `b`, and a target is one of its bytes. -/
structure Covers (p : Int) (rs : List Routine) (t : Int) (slot : Slot) (i : Instr) (b : Int) : Prop where
  instr : instrAt? rs slot = some i
  start : positionAt? p rs slot = some b
  low : b ≤ t
  high : t < b + i.size

/-- What a target is moved back to, with routines numbered from `k` and laid out from `p`. -/
structure Snapped (k : Nat) (p : Int) (rs : List Routine) (t b : Int) (a : UInt32) : Prop where
  snap : snap (boundaries k p rs) (layout p rs).2 t = some (b, a)
  sum : b + a.toNat = t
  /-- The end stays where it is. -/
  finish : t = (layout p rs).2 → b = t ∧ a = 0
  /-- Before the end, the boundary is the start of the only instruction that covers the target, and has
  its place in the map. -/
  covered : t ≠ (layout p rs).2 → ∃ slot i, Covers p rs t slot i b ∧
    (∀ slot' i' b', Covers p rs t slot' i' b' → slot' = slot) ∧ a.toNat < i.size ∧
    (boundaries k p rs).lookup b = some ⟨k + slot.routine, slot.index⟩

theorem Covers.exists_place (k : Nat) (h : Covers p rs t slot i b) : ∃ a ∈ places k p rs,
    a.slot = ⟨k + slot.routine, slot.index⟩ ∧ a.instr = i ∧ a.position = b := by
  obtain ⟨r, hr, hi⟩ := instrAt?_eq_some_iff.1 h.instr
  have hstart := h.start
  rw [positionAt?_of_instrAt? h.instr, Option.some.injEq] at hstart
  refine ⟨⟨⟨k + slot.routine, slot.index⟩, b, i, r.drop (slot.index + 1)⟩, ?_, rfl, rfl, rfl⟩
  refine mem_places_numbered_iff.2 ⟨slot.routine, r, slot.index, hr, drop_eq_cons_iff.2 ⟨hi, rfl⟩, rfl, ?_⟩
  rw [← hstart]
  exact position_of_getElem? hr

/-- Of a place that covers a target, the boundary is found, and the place under it. -/
theorem Covers.snap_eq (k : Nat) (h : Covers p rs t slot i b) :
    (∃ a : UInt32, snap (boundaries k p rs) (layout p rs).2 t = some (b, a) ∧ b + (a.toNat : Int) = t) ∧
      (boundaries k p rs).lookup b = some ⟨k + slot.routine, slot.index⟩ := by
  obtain ⟨a, ha, hslot, rfl, rfl⟩ := h.exists_place k
  obtain ⟨adjust, hadjust⟩ := a.exists_adjust h.low h.high
  have hhigh := h.high
  have hbefore : adjust.toNat < a.instr.size := by omega
  have hsnap := snap_of_mem_places ha hbefore
  rw [hadjust] at hsnap
  refine ⟨⟨adjust, ?_, hadjust⟩, ?_⟩
  · rw [layout_finish]
    exact hsnap
  · rw [← hslot]
    exact lookup_boundaries ha (by omega)

theorem Covers.unique {slot' : Slot} {i' : Instr} {b' : Int} (h : Covers p rs t slot i b)
    (h' : Covers p rs t slot' i' b') : slot' = slot := by
  -- both have the boundary of the target, which has one place
  obtain ⟨⟨a, hsnap, -⟩, hlookup⟩ := h.snap_eq 0
  obtain ⟨⟨a', hsnap', -⟩, hlookup'⟩ := h'.snap_eq 0
  rw [hsnap', Option.some.injEq, Prod.mk.injEq] at hsnap
  rw [hsnap.1, hlookup, Option.some.injEq, Slot.mk.injEq] at hlookup'
  obtain ⟨hroutine, hindex⟩ := hlookup'
  ext
  · omega
  · exact hindex.symm

theorem exists_covers (hlow : p ≤ t) (hhigh : t < (layout p rs).2) : ∃ slot i b, Covers p rs t slot i b := by
  rw [layout_finish] at hhigh
  obtain ⟨a, ha, halow, hahigh⟩ := exists_covering 0 hlow hhigh
  refine ⟨a.slot, a.instr, a.position, instrAt?_of_mem_places ha, ?_, halow, hahigh⟩
  rw [positionAt?_of_instrAt? (instrAt?_of_mem_places ha), position_of_mem_places ha]

theorem exists_snapped (k : Nat) (hlow : p ≤ t) (hhigh : t ≤ (layout p rs).2) :
    ∃ b a, Snapped k p rs t b a := by
  by_cases ht : t = (layout p rs).2
  · subst ht
    refine ⟨_, 0, snap_finish _ _, ?_, fun _ => ⟨rfl, rfl⟩, fun hne => absurd rfl hne⟩
    rw [UInt32.toNat_zero, Int.natCast_zero, Int.add_zero]
  · obtain ⟨slot, i, b, hcovers⟩ := exists_covers hlow (by omega : t < (layout p rs).2)
    obtain ⟨⟨a, hsnap, hsum⟩, hlookup⟩ := hcovers.snap_eq k
    have hahigh := hcovers.high
    refine ⟨b, a, hsnap, hsum, fun h => absurd h ht, fun _ => ?_⟩
    exact ⟨slot, i, hcovers, fun _ _ _ h' => hcovers.unique h', by omega, hlookup⟩

/-- What the passes ask of a boundary: it is the end, or has a place in the map. -/
def Owned (bs : List (Int × Slot)) (finish b : Int) : Prop :=
  b = finish ∨ ∃ slot, bs.lookup b = some slot

theorem exists_owned (k : Nat) (hlow : p ≤ t) (hhigh : t ≤ (layout p rs).2) :
    ∃ b a, snap (boundaries k p rs) (layout p rs).2 t = some (b, a) ∧
      Owned (boundaries k p rs) (layout p rs).2 b := by
  obtain ⟨b, a, h⟩ := exists_snapped k hlow hhigh
  refine ⟨b, a, h.snap, ?_⟩
  by_cases ht : t = (layout p rs).2
  · exact .inl ((h.finish ht).1.trans ht)
  · obtain ⟨slot, i, -, -, -, hlookup⟩ := h.covered ht
    exact .inr ⟨_, hlookup⟩

end Targets

/-! ## Errors that are not internal -/

namespace Run

variable {α β : Type}

/-- A computation that fails with no internal error, and whose results satisfy a condition. -/
structure Clean (x : Except Error α) (q : α → Prop) : Prop where
  kind : ∀ e, x = .error e → e.kind ≠ .internal
  result : ∀ a, x = .ok a → q a

variable {x : Except Error α} {q : α → Prop}

theorem clean_ok {a : α} (h : q a) : Clean (.ok a) q where
  kind e he := by cases he
  result b hb := by
    cases hb
    exact h

theorem clean_error {e : Error} (h : e.kind ≠ .internal) : Clean (.error e : Except Error α) q where
  kind e' he := by
    cases he
    exact h
  result a ha := by cases ha

theorem Clean.bind {f : α → Except Error β} {q' : β → Prop} (h : Clean x q)
    (hf : ∀ a, q a → Clean (f a) q') : Clean (x >>= f) q' := by
  refine ⟨fun e he => ?_, fun b hb => ?_⟩
  · rcases except_bind_eq_error_iff.1 he with he | ⟨a, ha, he⟩
    · exact h.kind e he
    · exact (hf a (h.result a ha)).kind e he
  · obtain ⟨a, ha, hb⟩ := except_bind_eq_ok_iff.1 hb
    exact (hf a (h.result a ha)).result b hb

theorem Clean.mapM {f : α → Except Error β} {q : β → Prop} {xs : List α} (h : ∀ x ∈ xs, Clean (f x) q) :
    Clean (xs.mapM f) fun ys => ∀ y ∈ ys, q y := by
  induction xs with
  | nil => exact clean_ok nofun
  | cons x xs ih =>
    have hrest := ih fun y hy => h y (List.mem_cons_of_mem x hy)
    rw [List.mapM_cons]
    exact (h x List.mem_cons_self).bind fun y hy => hrest.bind fun ys hys =>
      clean_ok (List.forall_mem_cons.2 ⟨hy, hys⟩)

/-- A visit keeps what its steps keep. -/
theorem Clean.visit {σ : Type} {step : Visit.Step σ} {inv : σ → Prop} {s : σ} {p : Int} {r : Routine}
    (h : ∀ s p i, inv s → Clean (step s p i) fun y => inv y.1) (hs : inv s) :
    Clean (Visit.routine step s p r) fun y => inv y.1 := by
  induction r generalizing s p with
  | nil => exact clean_ok hs
  | cons i r ih =>
    refine (h s p i hs).bind fun y hy => (ih hy).bind fun z hz => ?_
    cases y.2 with
    | none => exact clean_ok hz
    | some j => exact clean_ok hz

end Run

open Run (Clean clean_ok clean_error)

namespace Targets

theorem clean_successor (id : UInt32) : Clean (successor id) fun _ => True := by
  unfold successor
  split
  · exact clean_error nofun
  · exact clean_ok trivial

theorem clean_nextId (rs : List Routine) : Clean (nextId rs) fun _ => True := by
  unfold nextId
  split
  · exact clean_ok trivial
  · exact clean_successor _

end Targets

open Targets

/-! ## Adding markers of jumps -/

namespace Jumps

variable {p : Int} {rs : List Routine}

/-- Only destinations from the beginning to the end are moved back. -/
theorem clean_resolve (s : Site) :
    Clean (resolve (boundaries 0 p rs) p (layout p rs).2 s) fun found =>
      ∀ x, found = some x → Owned (boundaries 0 p rs) (layout p rs).2 x.target := by
  unfold resolve
  split
  · next _ d _ =>
    simp only
    split
    · exact clean_error nofun
    · next hinside =>
      have hlow : p ≤ s.finish + d.toInt := by omega
      have hhigh : s.finish + d.toInt ≤ (layout p rs).2 := by omega
      obtain ⟨b, a, hsnap, howned⟩ := exists_owned 0 hlow hhigh
      rw [hsnap]
      exact clean_ok fun x hx => by cases hx; exact howned
  · exact clean_ok nofun
  · exact clean_error nofun

theorem clean_assignIds {next : UInt32} {ids : List (Int × UInt32)} {targets : List Int} :
    Clean (assignIds next ids targets) fun _ => True := by
  induction targets generalizing next ids with
  | nil => exact clean_ok trivial
  | cons target targets ih =>
    unfold assignIds
    split
    · exact ih
    · exact (clean_successor next).bind fun _ _ => ih

theorem clean_markerSlot {bs : List (Int × Slot)} {finish target : Int} (h : Owned bs finish target) :
    Clean (markerSlot rs bs finish target) fun _ => True := by
  unfold markerSlot
  by_cases htarget : target = finish
  · rw [if_pos htarget]
    exact clean_ok trivial
  · obtain ⟨slot, hslot⟩ := h.resolve_left htarget
    rw [if_neg htarget, hslot]
    exact clean_ok trivial

theorem clean_add (base : UInt32) (rs : List Routine) : Clean (add base rs) fun _ => True := by
  refine (Clean.mapM fun s _ => clean_resolve s).bind fun found hfound => ?_
  refine (clean_nextId rs).bind fun next _ => ?_
  -- what is handed out is handed out for boundaries that were found
  have hids : Clean (assignIds next [] ((found.filterMap id).map Resolved.target)) fun ids =>
      ∀ x ∈ ids, Owned (boundaries 0 base.toNat rs) (layout base.toNat rs).2 x.1 := by
    refine ⟨clean_assignIds.kind, fun ids hids x hx => ?_⟩
    rcases (assignIds_spec (Assigned.nil next) hids).2.1 x hx with hx | hx
    · cases hx
    · obtain ⟨push, hpush, hx⟩ := List.mem_map.1 hx
      obtain ⟨y, hy, hpush⟩ := List.mem_filterMap.1 hpush
      rw [← hx]
      exact hfound y hy push hpush
  refine hids.bind fun ids hids => ?_
  refine (Clean.mapM (q := fun _ => True) fun x hx => ?_).bind fun _ _ => clean_ok trivial
  exact (clean_markerSlot (hids x hx)).bind fun _ _ => clean_ok trivial

end Jumps

/-! ## Adding markers of branches -/

namespace Branches

variable {k : Nat} {r : Routine}

/-- All positions that have identifiers are boundaries. -/
def AllOwned (bs : List (Int × Slot)) (finish : Int) (ids : Ids) : Prop :=
  ∀ x ∈ ids.assigned, Owned bs finish x.1

theorem clean_of {bs : List (Int × Slot)} {finish target : Int} {ids : Ids} (h : AllOwned bs finish ids)
    (htarget : Owned bs finish target) : Clean (ids.of target) fun y => AllOwned bs finish y.1 := by
  unfold Ids.of
  split
  · exact clean_ok h
  · refine (clean_successor ids.next).bind fun next _ => clean_ok fun x hx => ?_
    rcases List.mem_append.1 hx with hx | hx
    · exact h x hx
    · rw [List.mem_singleton.1 hx]
      exact htarget

theorem clean_addStep (k : Nat) (r : Routine) (ids : Ids) (p : Int) (i : Instr)
    (h : AllOwned (boundaries k 0 [r]) (layout 0 [r]).2 ids) :
    Clean (addStep k (boundaries k 0 [r]) (layout 0 [r]).2 ids p i) fun y =>
      AllOwned (boundaries k 0 [r]) (layout 0 [r]).2 y.1 := by
  cases i with
  | symbolic s => exact clean_ok h
  | op o =>
    cases hbranch : o.branch? with
    | none =>
      simp only [addStep, hbranch]
      exact clean_ok h
    | some x =>
      simp only [addStep, hbranch]
      split
      · exact clean_error nofun
      · next hinside =>
        have hlow : 0 ≤ p + o.size + x.2.toInt := by omega
        have hhigh : p + o.size + x.2.toInt ≤ (layout 0 [r]).2 := by omega
        obtain ⟨b, a, hsnap, howned⟩ := exists_owned k hlow hhigh
        rw [hsnap]
        exact (clean_of h howned).bind fun y hy => clean_ok hy

theorem clean_markerSlot {bs : List (Int × Slot)} {finish target : Int} (h : Owned bs finish target) :
    Clean (markerSlot k r bs finish target) fun _ => True := by
  unfold markerSlot
  by_cases htarget : target = finish
  · rw [if_pos htarget]
    exact clean_ok trivial
  · obtain ⟨slot, hslot⟩ := h.resolve_left htarget
    rw [if_neg htarget, hslot]
    exact clean_ok trivial

theorem clean_addFrom (k : Nat) (next : UInt32) (rs : List Routine) :
    Clean (addFrom k next rs) fun _ => True := by
  induction rs generalizing k next with
  | nil => exact clean_ok trivial
  | cons r rs ih =>
    have hnone : AllOwned (boundaries k 0 [r]) (layout 0 [r]).2 ⟨next, []⟩ :=
      fun x hx => absurd hx List.not_mem_nil
    refine (Clean.visit (clean_addStep k r) hnone).bind fun y hy => ?_
    refine (Clean.mapM (q := fun _ => True) fun x hx => ?_).bind fun _ _ => ?_
    · exact (clean_markerSlot (hy x hx)).bind fun _ _ => clean_ok trivial
    · exact (ih (k + 1) y.1.next).bind fun _ _ => clean_ok trivial

theorem clean_add (rs : List Routine) : Clean (add rs) fun _ => True :=
  (clean_nextId rs).bind fun next _ => (clean_addFrom 0 next rs).bind fun _ _ => clean_ok trivial

end Branches

/-! ## No boundary is missed -/

namespace Targets

/-- The map of boundaries of routines that are numbered from `k` and laid out from `p`. -/
structure BoundaryMap (k : Nat) (p : Int) (rs : List Routine) : Prop where
  /-- It is filled from the positions of the layout. -/
  filled : fill k rs (layout p rs).1 [] = boundaries k p rs
  ascending : (boundaries k p rs).Pairwise fun x y => x.1 < y.1
  /-- What is looked for is the greatest position at or before a target. -/
  greatest : ∀ t b, lastBoundary? (boundaries k p rs) t = some b ↔
    (∃ slot, (b, slot) ∈ boundaries k p rs) ∧ b ≤ t ∧ ∀ x ∈ boundaries k p rs, x.1 ≤ t → x.1 ≤ b
  snapped : ∀ t, p ≤ t → t ≤ (layout p rs).2 → ∃ b a, Snapped k p rs t b a

/-- An outcome that is no internal error, in particular none about a boundary. -/
def NoneMissed {α : Type} (x : Except Error α) : Prop :=
  ∀ e, x = .error e → e.kind ≠ .internal ∧ ∀ q, e ≠ .noBoundary q ∧ e ≠ .boundaryLost q

theorem noneMissed_of_clean {α : Type} {x : Except Error α} (h : Clean x fun _ => True) : NoneMissed x := by
  intro e he
  have hkind := h.kind e he
  refine ⟨hkind, fun q => ⟨?_, ?_⟩⟩
  · rintro rfl
    exact hkind rfl
  · rintro rfl
    exact hkind rfl

theorem boundaryMap (k : Nat) (p : Int) (rs : List Routine) : BoundaryMap k p rs where
  filled := fill_layout k p rs fun _ hx => absurd hx List.not_mem_nil
  ascending := pairwise_boundaries k p rs
  greatest _ _ := lastBoundary?_eq_some_iff (pairwise_boundaries k p rs)
  snapped _ hlow hhigh := exists_snapped k hlow hhigh

/-- **Every target has a boundary.**  However markers and empty routines lie about, each target from the
beginning to the end is moved back to the start of the only instruction that covers it, whose place
is in the map, or stays at the end.  So adding markers of jumps or of branches never fails for want
of a boundary. -/
theorem snap_finds_covering (k : Nat) (p : Int) (rs : List Routine) :
    BoundaryMap k p rs ∧ (∀ base, NoneMissed (Jumps.add base rs)) ∧ NoneMissed (Branches.add rs) :=
  ⟨boundaryMap k p rs, fun base => noneMissed_of_clean (Jumps.clean_add base rs),
    noneMissed_of_clean (Branches.clean_add rs)⟩

/-- An empty routine, markers in front of instructions, and a routine of one marker. -/
def scattered : List Routine :=
  [[], [.symbolic (.jumpTarget 7), .op ⟨.pushInt32, ((5 : Int32), ())⟩, .symbolic (.branchTarget 8),
    .op .endRoutine], [.symbolic (.jumpTarget 9)], [.op .endRoutine, .symbolic (.jumpTarget 6)]]

/-- A target in the middle of the push, one that three places share, and the end. -/
theorem scattered_finds_covering :
    BoundaryMap 0 100 scattered ∧ (layout 100 scattered).2 = 107 ∧
      (∃ b a, Snapped 0 100 scattered 104 b a) ∧
      snap (boundaries 0 100 scattered) 107 104 = some (100, 4) ∧
      (boundaries 0 100 scattered).lookup 100 = some ⟨1, 1⟩ ∧
      snap (boundaries 0 100 scattered) 107 106 = some (106, 0) ∧
      (boundaries 0 100 scattered).lookup 106 = some ⟨3, 0⟩ ∧
      snap (boundaries 0 100 scattered) 107 107 = some (107, 0) := by
  obtain ⟨hmap, -, -⟩ := snap_finds_covering 0 100 scattered
  have hfinish : (layout 100 scattered).2 = 107 := by decide +kernel
  have hsnapped := hmap.snapped 104 (by decide) (by rw [hfinish]; decide)
  exact ⟨hmap, hfinish, hsnapped, by decide +kernel, by decide +kernel, by decide +kernel,
    by decide +kernel, by decide +kernel⟩

end Targets

end ScriptImage
