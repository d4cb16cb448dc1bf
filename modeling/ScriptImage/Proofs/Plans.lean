import ScriptImage.Pass.Plan
import ScriptImage.Proofs.PassRuns

/-!
# Plans that can be carried out

A pass in place makes a plan and carries it out.  There is a plan exactly if the pass goes
through on a copy, and then every place of the plan is there when it comes to writing to
it.  So the writes go through as well, and leave what the pass makes of a copy:

    p.perform = InPlace.ofImageM p.run                             (Pass.perform_eq_run)

A place that is there at the start stays there, since no write makes a routine shorter.
Visits record the places of the instructions that they replace (`Replaced`); the places of
jumps, references and markers are those of instructions in laid-out code, or ends of
routines.
-/

namespace ScriptImage

open Run (Alike)
open Targets (setAll insertAll Within)

/-! ## Writes that find their places -/

/-- Whether an instruction stands at a place. -/
def Targets.Occupied (rs : List Routine) (slot : Slot) : Prop :=
  ∃ r, rs[slot.routine]? = some r ∧ slot.index < r.length

open Targets (Occupied)

namespace InPlace

variable {image : Image}

theorem check_eq_ok_iff {α : Type} {x : Except Error α} {a : α} {image' : Image} :
    check x image = .ok a image' ↔ x = .ok a ∧ image' = image :=
  Run.lift_eq_ok_iff (fun _ => rfl) fun e => ⟨.refused e, rfl⟩

theorem ofImageM_eq_ok_iff {α : Type} {x : ImageM α} {a : α} {image' : Image} :
    ofImageM x image = .ok a image' ↔ x image = .ok a image' := by
  unfold ofImageM
  cases x image <;> simp

theorem room_of_modify {f : Routine → Routine} (hf : ∀ r, r.length ≤ (f r).length) {rs : List Routine}
    {j k n : Nat} (h : ∃ r : Routine, rs[k]? = some r ∧ n ≤ r.length) :
    ∃ r : Routine, (rs.modify j f)[k]? = some r ∧ n ≤ r.length := by
  obtain ⟨r, hr, hn⟩ := h
  rw [List.getElem?_modify, hr]
  by_cases hjk : j = k
  · exact ⟨f r, by simp [hjk], Nat.le_trans hn (hf r)⟩
  · exact ⟨r, by simp [hjk], hn⟩

theorem rewrite_of_room {slot : Slot} {room : Nat} {f : Routine → Routine}
    (h : ∃ r : Routine, image.code.routines[slot.routine]? = some r ∧ room ≤ r.length) :
    rewrite slot room f image =
      .ok ⟨⟩ (image.withRoutines (image.code.routines.modify slot.routine f)) := by
  obtain ⟨r, hr, hroom⟩ := h
  have hany : ((image.code.routines[slot.routine]?).any fun r => room ≤ r.length) = true := by
    simp [hr, hroom]
  unfold rewrite
  rw [Run.bind_of_ok (show (get : InPlace Image) image = .ok image image from rfl)]
  simp only [if_pos hany]
  rfl

/-- Rewriting that never shortens a routine goes through if there is room for each at the start. -/
theorem forM_rewrite {room : Slot × Instr → Nat} {f : Slot × Instr → Routine → Routine}
    (hf : ∀ x r, r.length ≤ (f x r).length) {xs : List (Slot × Instr)}
    (h : ∀ x ∈ xs, ∃ r : Routine, image.code.routines[x.1.routine]? = some r ∧ room x ≤ r.length) :
    (xs.forM fun x => rewrite x.1 (room x) (f x)) image =
      .ok ⟨⟩ (image.withRoutines
        (xs.foldl (fun rs x => rs.modify x.1.routine (f x)) image.code.routines)) := by
  induction xs generalizing image with
  | nil => rfl
  | cons x xs ih =>
    have hfirst := rewrite_of_room (f := f x) (h x List.mem_cons_self)
    refine (Run.bind_of_ok hfirst).trans (ih fun y hy => ?_)
    exact room_of_modify (hf x) (h y (List.mem_cons_of_mem _ hy))

theorem forM_put {xs : List (Slot × Instr)} (h : ∀ x ∈ xs, Occupied image.code.routines x.1) :
    xs.forM put image = .ok ⟨⟩ (image.withRoutines (setAll image.code.routines xs)) :=
  forM_rewrite (fun x r => by simp) h

theorem le_length_insertIdx (n : Nat) (x : Instr) (r : Routine) : r.length ≤ (r.insertIdx n x).length := by
  rw [List.length_insertIdx]
  split <;> omega

theorem forM_insert {xs : List (Slot × Instr)} (h : ∀ x ∈ xs, Within image.code.routines x.1) :
    (xs.mergeSort fun a b => !a.1.before b.1).forM insert image =
      .ok ⟨⟩ (image.withRoutines (insertAll image.code.routines xs)) :=
  forM_rewrite (fun x => le_length_insertIdx x.1.index x.2) fun x hx => h x (List.mem_mergeSort.1 hx)

end InPlace

/-- What a plan makes of routines. -/
def Plan.result (plan : Plan) (rs : List Routine) : List Routine :=
  insertAll ((setAll rs plan.changes).map fun r => r.filter fun i => !plan.drops i) plan.inserts

/-- Whether all places of a plan are there when it comes to writing to them. -/
structure Plan.Fits (plan : Plan) (rs : List Routine) : Prop where
  changes : ∀ x ∈ plan.changes, Occupied rs x.1
  inserts : ∀ x ∈ plan.inserts,
    Within ((setAll rs plan.changes).map fun r => r.filter fun i => !plan.drops i) x.1

theorem Plan.carryOut_of_fits {plan : Plan} {image : Image} (h : plan.Fits image.code.routines) :
    plan.carryOut image =
      .ok ⟨⟩ { image.withRoutines (plan.result image.code.routines) with header := plan.header } := by
  let written : Image := { image with header := plan.header }
  have hput : plan.changes.forM InPlace.put written =
      .ok ⟨⟩ (written.withRoutines (setAll image.code.routines plan.changes)) :=
    InPlace.forM_put h.changes
  refine (Run.bind_of_ok (a := ⟨⟩) (Run.modify_eq_ok_iff.2 rfl)).trans ?_
  refine (Run.bind_of_ok hput).trans ?_
  refine (Run.bind_of_ok (a := ⟨⟩) (Run.modify_eq_ok_iff.2 rfl)).trans ?_
  exact InPlace.forM_insert h.inserts

/-! ## Visits -/

theorem modify_append_cons {α : Type} (f : α → α) (before : List α) (x : α) (after : List α) :
    (before ++ x :: after).modify before.length f = before ++ f x :: after := by
  induction before with
  | nil => rfl
  | cons y before ih => simp [ih]

/-- Setting the changes turns the routine into another one, wherever the rest of the code starts. -/
structure Routine.Replaced (slot : Slot) (r r' : Routine) (changes : List (Slot × Instr)) : Prop where
  places : ∀ x ∈ changes, x.1.routine = slot.routine ∧ x.1.index < slot.index + r.length
  set : ∀ before done after, slot = ⟨before.length, done.length⟩ →
    setAll (before ++ (done ++ r) :: after) changes = before ++ (done ++ r') :: after

/-- Setting the changes turns routines that are numbered from `k` into others. -/
structure Replaced (k : Nat) (rs rs' : List Routine) (changes : List (Slot × Instr)) : Prop where
  places : ∀ x ∈ changes, ∀ before, before.length = k → Occupied (before ++ rs) x.1
  set : ∀ before, before.length = k → setAll (before ++ rs) changes = before ++ rs'

theorem Routine.Replaced.cons {slot : Slot} {i j : Instr} {r r' : Routine} {changes : List (Slot × Instr)}
    (h : Routine.Replaced slot.next r r' changes) :
    Routine.Replaced slot (i :: r) (j :: r') ((slot, j) :: changes) where
  places := by
    intro x hx
    rcases List.mem_cons.1 hx with rfl | hx
    · simp
    · have hx := h.places x hx
      simp only [Slot.next, List.length_cons] at hx ⊢
      omega
  set := by
    intro before done after hslot
    have hone : setAll (before ++ (done ++ i :: r) :: after) [(slot, j)] =
        before ++ ((done ++ [j]) ++ r) :: after := by
      show (before ++ (done ++ i :: r) :: after).modify slot.routine (fun r => r.set slot.index j) = _
      rw [hslot, modify_append_cons]
      simp
    show setAll (setAll (before ++ (done ++ i :: r) :: after) [(slot, j)]) changes = _
    rw [hone, h.set before (done ++ [j]) after (by simp [hslot, Slot.next])]
    simp

theorem Routine.Replaced.skip {slot : Slot} {i : Instr} {r r' : Routine} {changes : List (Slot × Instr)}
    (h : Routine.Replaced slot.next r r' changes) : Routine.Replaced slot (i :: r) (i :: r') changes where
  places := by
    intro x hx
    have hx := h.places x hx
    simp only [Slot.next, List.length_cons] at hx ⊢
    omega
  set := by
    intro before done after hslot
    have hset := h.set before (done ++ [i]) after (by simp [hslot, Slot.next])
    simpa using hset

theorem Replaced.cons {k : Nat} {r r' : Routine} {rs rs' : List Routine}
    {changes changes' : List (Slot × Instr)} (h : Routine.Replaced ⟨k, 0⟩ r r' changes)
    (hrest : Replaced (k + 1) rs rs' changes') :
    Replaced k (r :: rs) (r' :: rs') (changes ++ changes') where
  places := by
    intro x hx before hk
    rcases List.mem_append.1 hx with hx | hx
    · obtain ⟨hroutine, hindex⟩ := h.places x hx
      exact ⟨r, by simp [hroutine, hk], by simpa using hindex⟩
    · simpa using hrest.places x hx (before ++ [r]) (by simp [hk])
  set := by
    intro before hk
    show (changes ++ changes').foldl _ _ = _
    rw [List.foldl_append]
    show setAll (setAll (before ++ r :: rs) changes) changes' = _
    have hfirst := h.set before [] rs (by simp [hk])
    have hlast := hrest.set (before ++ [r']) (by simp [hk])
    simp only [List.nil_append] at hfirst
    rw [hfirst]
    simpa using hlast

namespace Visit

variable {σ : Type} (step : Step σ)

theorem alike_routine (s : σ) (slot : Slot) (p : Int) (r : Routine) :
    Alike (fun x y => y.1 = x.1 ∧ y.2.1 = x.2.length ∧ Routine.Replaced slot r y.2.2 x.2)
      (changesFrom step s slot p r) (routine step s p r) := by
  induction r generalizing s slot p with
  | nil => exact .ok ⟨rfl, rfl, nofun, fun _ _ _ _ => rfl⟩
  | cons i r ih =>
    rw [changesFrom, routine]
    refine (Alike.self _).bind ?_
    rintro ⟨s₁, change⟩ - ⟨rfl, -⟩
    refine (ih s₁ slot.next (p + i.size)).bind ?_
    rintro ⟨s₂, changes⟩ ⟨s₂', n, r'⟩ ⟨hs, hn, hset⟩
    obtain rfl : s₂' = s₂ := hs
    obtain rfl : n = changes.length := hn
    cases change with
    | none => exact .ok ⟨rfl, rfl, hset.skip⟩
    | some j => exact .ok ⟨rfl, rfl, hset.cons⟩

theorem alike_routines (s : σ) (k : Nat) (rs : List Routine) :
    Alike (fun x y => y.1 = x.1 ∧ y.2.1 = x.2.length ∧ Replaced k rs y.2.2 x.2)
      (changes step s k rs) (routines step s rs) := by
  induction rs generalizing s k with
  | nil => exact .ok ⟨rfl, rfl, nofun, fun _ _ => rfl⟩
  | cons r rs ih =>
    rw [changes, routines]
    refine (alike_routine step s ⟨k, 0⟩ 0 r).bind ?_
    rintro ⟨s₁, changes₁⟩ ⟨s₁', n, r'⟩ ⟨hs, hn, hset⟩
    obtain rfl : s₁' = s₁ := hs
    refine (ih s₁' (k + 1)).bind ?_
    rintro ⟨s₂, changes₂⟩ ⟨s₂', n', rs'⟩ ⟨hs', hn', hrest⟩
    refine .ok ⟨hs', ?_, Replaced.cons hset hrest⟩
    simp only at hn hn'
    simp [hn, hn']

theorem alike_each (change : Instr → Except Error (Option Instr)) (rs : List Routine) :
    Alike (fun changes y => y.1 = changes.length ∧ Replaced 0 rs y.2 changes)
      (changesEach change rs) (each change rs) :=
  (alike_routines _ () 0 rs).map fun _ _ h => h.2

end Visit

/-! ## Branches -/

namespace Branches

open Targets

theorem alike_addFrom (k : Nat) (next : UInt32) (rs : List Routine) :
    Alike (fun x y => y.1 = x.1.length ∧ y.2.2 = x.2 ∧ Replaced k rs y.2.1 x.1 ∧
        ∀ a ∈ x.2, ∀ before, before.length = k → Within (before ++ rs) a.1)
      (planAddFrom k next rs) (addFrom k next rs) := by
  induction rs generalizing k next with
  | nil => exact .ok ⟨rfl, rfl, ⟨nofun, fun _ _ => rfl⟩, nofun⟩
  | cons r rs ih =>
    rw [planAddFrom, addFrom]
    refine (Visit.alike_routine _ _ ⟨k, 0⟩ 0 r).bind ?_
    rintro ⟨ids, changes⟩ ⟨ids', n, r'⟩ ⟨hids, hn, hset⟩
    obtain rfl : ids' = ids := hids
    refine (Alike.self _).bind ?_
    rintro inserts _ ⟨rfl, hinserts⟩
    refine (ih (k + 1) ids'.next).bind ?_
    rintro ⟨changes', inserts'⟩ ⟨n', rs', inserts''⟩ ⟨hn', hsame, hrest, hlater⟩
    simp only at hn hn' hsame hlater
    refine .ok ⟨by simp [hn, hn'], by simp [hsame], Replaced.cons hset hrest, fun a ha before hk => ?_⟩
    rcases List.mem_append.1 ha with ha | ha
    · -- the markers of this routine are put into it
      obtain ⟨x, -, hx⟩ := Run.exists_of_mem_of_mapM hinserts ha
      obtain ⟨slot, hslot, hlast⟩ := Run.except_bind_eq_ok_iff.1 hx
      cases hlast
      obtain ⟨hroutine, hindex, -⟩ := markerSlot_spec hslot
      exact ⟨r, by simp [hroutine, hk], hindex⟩
    · simpa using hlater a ha (before ++ [r]) (by simp [hk])

theorem alike_removeFrom (k : Nat) (seen : List (UInt32 × Nat)) (rs : List Routine) :
    Alike (fun changes y => y.1 = changes.length ∧ ∃ rs', Replaced k rs rs' changes ∧
        y.2 = rs'.map fun r => r.filter fun i => !isTarget i)
      (planRemoveFrom k seen rs) (removeFrom k seen rs) := by
  induction rs generalizing k seen with
  | nil => exact .ok ⟨rfl, [], ⟨nofun, fun _ _ => rfl⟩, rfl⟩
  | cons r rs ih =>
    rw [planRemoveFrom, removeFrom]
    refine (Alike.self _).bind ?_
    rintro _ seen' ⟨rfl, -⟩
    refine (Visit.alike_routine _ _ ⟨k, 0⟩ 0 r).bind ?_
    rintro ⟨u, changes⟩ ⟨u', n, r'⟩ ⟨-, hn, hset⟩
    refine (ih (k + 1) seen').bind ?_
    rintro changes' ⟨n', rs''⟩ ⟨hn', rs', hrest, hfilter⟩
    simp only at hn hn' hfilter
    exact .ok ⟨by simp [hn, hn'], r' :: rs', Replaced.cons hset hrest, by simp [hfilter]⟩

theorem alike_add (rs : List Routine) :
    Alike (fun x y => y = (x.1.length, insertAll (setAll rs x.1) x.2) ∧
        (∀ c ∈ x.1, Occupied rs c.1) ∧ ∀ a ∈ x.2, Within rs a.1)
      (planAdd rs) (add rs) := by
  have hplan : planAdd rs = nextId rs >>= fun next => planAddFrom 0 next rs >>= pure := by
    unfold planAdd
    simp
  rw [hplan]
  unfold add
  refine (Alike.self _).bind ?_
  rintro _ next ⟨rfl, -⟩
  refine (alike_addFrom 0 next rs).bind ?_
  rintro ⟨changes, inserts⟩ ⟨n, rs', inserts'⟩ ⟨hn, hsame, hset, hinserts⟩
  obtain rfl : n = changes.length := hn
  obtain rfl : inserts' = inserts := hsame
  have hrs : setAll rs changes = rs' := hset.set [] rfl
  exact .ok ⟨by simp [hrs], fun c hc => hset.places c hc [] rfl, fun a ha => hinserts a ha [] rfl⟩

theorem alike_remove (rs : List Routine) :
    Alike (fun changes y =>
        y = (changes.length, (setAll rs changes).map fun r => r.filter fun i => !isTarget i) ∧
          ∀ c ∈ changes, Occupied rs c.1)
      (planRemove rs) (remove rs) := by
  refine (alike_removeFrom 0 [] rs).imp ?_
  rintro changes ⟨n, rs'⟩ ⟨hn, rs₁, hset, hrs⟩
  obtain rfl : n = changes.length := hn
  have hrs₁ : setAll rs changes = rs₁ := hset.set [] rfl
  exact ⟨by rw [hrs₁, ← hrs], fun c hc => hset.places c hc [] rfl⟩

end Branches

/-! ## Jumps -/

theorem Targets.occupied_of_mem_places {p : Int} {rs : List Routine} {a : Place}
    (ha : a ∈ places 0 p rs) : Occupied rs a.slot := by
  obtain ⟨j, r, n, hr, hdrop, hslot, -⟩ := places_spec ha
  rw [hslot]
  refine ⟨r, by simpa using hr, Nat.lt_of_not_le fun hn => ?_⟩
  rw [List.drop_eq_nil_of_le hn] at hdrop
  cases hdrop

namespace Jumps

open Targets

theorem alike_add (base : UInt32) (rs : List Routine) :
    Alike (fun x y => y = (x.1.length, insertAll (setAll rs x.1) x.2) ∧
        (∀ c ∈ x.1, Occupied rs c.1) ∧ ∀ a ∈ x.2, Within rs a.1)
      (planAdd base rs) (add base rs) := by
  unfold planAdd add
  refine (Alike.self _).bind ?_
  rintro found _ ⟨rfl, hfound⟩
  refine (Alike.self _).bind ?_
  rintro next _ ⟨rfl, -⟩
  refine (Alike.self _).bind ?_
  rintro ids _ ⟨rfl, hids⟩
  refine (Alike.self _).bind ?_
  rintro inserts _ ⟨rfl, hinserts⟩
  refine .ok ⟨by simp, fun c hc => ?_, fun a ha => ?_⟩
  · obtain ⟨push, hpush, rfl⟩ := List.mem_map.1 hc
    obtain ⟨a, ha, -, -, hresolve⟩ := place_of_push hfound hpush
    obtain ⟨d, -, hslot, -⟩ := resolve_site hresolve
    rw [hslot]
    exact occupied_of_mem_places ha
  · obtain ⟨x, hx, hplace⟩ := Run.exists_of_mem_of_mapM hinserts ha
    obtain ⟨slot, hslot, hlast⟩ := Run.except_bind_eq_ok_iff.1 hplace
    cases hlast
    exact (markerSlot_of_push hfound hids x hx hslot).1

theorem slot_of_distance {marks : List (UInt32 × Int)} {start finish : Int} {rs : List Routine} {s : Site}
    {slot : Slot} {d : Int32} (hs : s ∈ sites 0 start rs)
    (h : distance marks finish s = .ok (some (slot, d))) : Occupied rs slot := by
  have hreference : some slot = s.reference? := map_fst_of_distance s _ h
  rcases site_cases hs with hnone | ⟨a, ha, -, -, rfl⟩
  · rw [Site.reference?, hnone] at hreference
    cases hreference
  · have hsome : some slot = if a.instr.isReference then some a.slot else none := hreference
    by_cases hi : a.instr.isReference = true
    · rw [if_pos hi] at hsome
      obtain rfl := Option.some.inj hsome
      exact occupied_of_mem_places ha
    · rw [if_neg hi] at hsome
      cases hsome

theorem alike_remove (base : UInt32) (rs : List Routine) :
    Alike (fun changes y =>
        y = (changes.length, (setAll rs changes).map fun r => r.filter fun i => !isTarget i) ∧
          ∀ c ∈ changes, Occupied rs c.1)
      (planRemove base rs) (remove base rs) := by
  unfold planRemove remove
  simp only
  cases duplicate? [] ((markers base.toNat rs).map Prod.fst) with
  | some id => exact .error _
  | none =>
    refine (Alike.self _).bind ?_
    rintro _ found ⟨rfl, hfound⟩
    cases (references 0 rs).find? fun slot => slot ∉ (found.filterMap id).map Prod.fst with
    | some slot => exact .error _
    | none =>
      refine .ok ⟨by simp, fun c hc => ?_⟩
      obtain ⟨⟨slot, d⟩, hmem, rfl⟩ := List.mem_map.1 hc
      obtain ⟨x, hx, heq⟩ := List.mem_filterMap.1 hmem
      obtain rfl : x = some (slot, d) := heq
      obtain ⟨s, hs, hdistance⟩ := Run.exists_of_mem_of_mapM hfound hx
      exact slot_of_distance hs hdistance

end Jumps

/-! ## All passes -/

theorem Plan.within_setAll {rs : List Routine} {slot : Slot} (h : Within rs slot)
    (changes : List (Slot × Instr)) : Within (setAll rs changes) slot := by
  induction changes generalizing rs with
  | nil => exact h
  | cons x changes ih => exact ih (InPlace.room_of_modify (fun r => by simp) h)

/-- Whether a plan can be carried out, and makes of an image what a pass answers. -/
def Plan.Agrees (image : Image) (plan : Plan) (answer : Nat × Image) : Prop :=
  plan.Fits image.code.routines ∧ answer = (plan.changes.length,
    { image.withRoutines (plan.result image.code.routines) with header := plan.header })

namespace Plan

variable {image : Image} {changes inserts : List (Slot × Instr)}

theorem result_of_drops (h : Header) (changes : List (Slot × Instr)) (drops : Instr → Bool)
    (rs : List Routine) : result ⟨h, changes, drops, []⟩ rs =
      (setAll rs changes).map fun r => r.filter fun i => !drops i := by
  simp [result, insertAll]

theorem result_of_inserts (h : Header) (changes inserts : List (Slot × Instr)) (rs : List Routine) :
    result ⟨h, changes, fun _ => false, inserts⟩ rs = insertAll (setAll rs changes) inserts := by
  simp [result]

theorem agrees_of_replaced {rs : List Routine} (header : Header)
    (h : Replaced 0 image.code.routines rs changes) :
    Agrees image ⟨header, changes, fun _ => false, []⟩
      (changes.length, { image.withRoutines rs with header }) := by
  have hset : setAll image.code.routines changes = rs := h.set [] rfl
  refine ⟨⟨fun x hx => h.places x hx [] rfl, nofun⟩, ?_⟩
  rw [result_of_drops, hset]
  simp

theorem agrees_of_inserts (hchanges : ∀ x ∈ changes, Occupied image.code.routines x.1)
    (hinserts : ∀ x ∈ inserts, Within image.code.routines x.1) :
    Agrees image ⟨image.header, changes, fun _ => false, inserts⟩
      (changes.length, image.withRoutines (insertAll (setAll image.code.routines changes) inserts)) := by
  refine ⟨⟨hchanges, fun x hx => ?_⟩, ?_⟩
  · simpa using within_setAll (hinserts x hx) changes
  · rw [result_of_inserts]
    rfl

theorem agrees_of_drops (drops : Instr → Bool)
    (hchanges : ∀ x ∈ changes, Occupied image.code.routines x.1) :
    Agrees image ⟨image.header, changes, drops, []⟩
      (changes.length, image.withRoutines
        ((setAll image.code.routines changes).map fun r => r.filter fun i => !drops i)) := by
  refine ⟨⟨hchanges, nofun⟩, ?_⟩
  rw [result_of_drops]
  rfl

end Plan

namespace Pass

/-- A plan fails as its pass does, or its places are all there and it makes of the image what the
pass answers. -/
theorem alike_plan (p : Pass) (image : Image) :
    Alike (Plan.Agrees image) (p.plan image) (p.apply image) := by
  have heach : ∀ change, Alike (Plan.Agrees image)
      ((Visit.changesEach change image.code.routines).map
        fun changes => ⟨image.header, changes, fun _ => false, []⟩)
      ((Visit.each change image.code.routines).map fun x => (x.1, image.withRoutines x.2)) := by
    intro change
    refine (Visit.alike_each change image.code.routines).map ?_
    rintro changes ⟨n, rs⟩ ⟨hn, hset⟩
    obtain rfl : n = changes.length := hn
    exact Plan.agrees_of_replaced image.header hset
  have hpool : ∀ (kind : PoolKind) (pool : StringPool) (grow : StringPool → Header),
      Alike (Plan.Agrees image)
        ((Visit.changes (Inlining.extract kind) pool 0 image.code.routines).map
          fun x => ⟨grow x.1, x.2, fun _ => false, []⟩)
        ((Inlining.remove kind pool image.code.routines).map
          fun x => (x.2.1, { image.withRoutines x.2.2 with header := grow x.1 })) := by
    intro kind pool grow
    refine (Visit.alike_routines _ pool 0 image.code.routines).map ?_
    rintro ⟨pool₁, changes⟩ ⟨pool₂, n, rs⟩ ⟨hpool, hn, hset⟩
    obtain rfl : pool₂ = pool₁ := hpool
    obtain rfl : n = changes.length := hn
    exact Plan.agrees_of_replaced (grow pool₂) hset
  cases p with
  | add s =>
    cases s with
    | strings => exact heach _
    | symbols => exact heach _
    | globals => exact heach _
    | classes => exact heach _
    | branches =>
      refine (Branches.alike_add image.code.routines).map ?_
      rintro ⟨changes, inserts⟩ - ⟨rfl, hchanges, hinserts⟩
      exact Plan.agrees_of_inserts hchanges hinserts
    | jumps =>
      refine (Jumps.alike_add image.code.base image.code.routines).map ?_
      rintro ⟨changes, inserts⟩ - ⟨rfl, hchanges, hinserts⟩
      exact Plan.agrees_of_inserts hchanges hinserts
  | remove s =>
    cases s with
    | strings => exact hpool .strings image.header.strings fun strings => { image.header with strings }
    | symbols => exact hpool .symbols image.header.symbols fun symbols => { image.header with symbols }
    | globals => exact hpool .globals image.header.globals fun globals => { image.header with globals }
    | classes => exact heach _
    | branches =>
      refine (Branches.alike_remove image.code.routines).map ?_
      rintro changes - ⟨rfl, hchanges⟩
      exact Plan.agrees_of_drops Branches.isTarget hchanges
    | jumps =>
      refine (Jumps.alike_remove image.code.base image.code.routines).map ?_
      rintro changes - ⟨rfl, hchanges⟩
      exact Plan.agrees_of_drops Jumps.isTarget hchanges

/-- A pass in place makes no plan and has written nothing, or it makes one that goes through. -/
theorem perform_cases (p : Pass) (image : Image) :
    (∃ e, p.apply image = .error e ∧ p.plan image = .error e ∧
        p.perform image = .error (.refused e) image) ∨
      ∃ plan n image', p.apply image = .ok (n, image') ∧ p.plan image = .ok plan ∧
        p.perform image = .ok n image' := by
  have hget : (get : InPlace Image) image = .ok image image := rfl
  have halike := p.alike_plan image
  unfold perform
  rw [Run.bind_of_ok hget]
  generalize p.plan image = decided at halike ⊢
  generalize p.apply image = answered at halike ⊢
  cases halike with
  | error e => exact Or.inl ⟨e, rfl, rfl, rfl⟩
  | @ok plan answer h =>
    obtain ⟨hfits, rfl⟩ := h
    exact Or.inr ⟨plan, _, _, rfl, rfl, Run.bind_of_ok (Plan.carryOut_of_fits hfits)⟩

/-- In place, a pass does what it does on a copy. -/
theorem perform_eq_run (p : Pass) : p.perform = InPlace.ofImageM p.run := by
  funext image
  rcases p.perform_cases image with ⟨e, happly, -, h⟩ | ⟨plan, n, image', happly, -, h⟩
  · rw [h, InPlace.ofImageM, run_of_error happly]
  · rw [h, InPlace.ofImageM, run_of_ok happly]

end Pass

end ScriptImage
