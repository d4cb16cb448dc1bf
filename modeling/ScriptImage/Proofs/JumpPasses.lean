import Mathlib.Data.List.Basic
import ScriptImage.Proofs.Placement
import ScriptImage.Proofs.Visiting

/-!
# The passes on jumps

A jump is fed by the nearest instruction before it that is no marker.  Seen from there, the
jumps of laid-out code are the places whose rest feeds a jump.  So `Jumps.remove` replaces
each reference by the distance that it stands for, and `Jumps.add` a distance by a
reference that stands for it:

    remove base rs = .ok (n, rs') ↔ (ids jumpId? rs).Nodup ∧ … ∧ r.Lowered .jumps … (routine by routine)
    add … = .ok (n, rs') → Raised .jumps id image …
-/

namespace ScriptImage

open Jumps (isMarker)

/-! ## What stands at a place -/

/-- The jump that the instruction at a place feeds. -/
def Place.site (a : Place) : Jumps.Site :=
  ⟨a.position + a.instr.size + Opcode.jumpRelative.size, some (a.slot, a.instr)⟩

/-- Whether an instruction refers to a jump marker. -/
def Instr.isReference (i : Instr) : Bool :=
  i.subject? = some .jumps && !isMarker i

theorem Instr.isReference_iff {i : Instr} :
    i.isReference = true ↔ i.subject? = some .jumps ∧ isMarker i = false := by
  simp [isReference]

/-- The references are the pushes of a target. -/
theorem Instr.exists_of_isReference {i : Instr} (h : i.isReference = true) :
    ∃ target adjust, i = .symbolic (.jumpPush target adjust) := by
  obtain ⟨hs, hm⟩ := isReference_iff.1 h
  cases i with
  | op o => cases hs
  | symbolic s =>
    obtain ⟨code, operands⟩ := s
    cases code with
    | jumpTarget =>
      obtain ⟨id, ⟨⟩⟩ := operands
      cases hm
    | jumpPush => exact ⟨operands.1, operands.2.1, rfl⟩
    | _ => cases hs

/-- The place of an instruction of some kind. -/
def Place.slotIf (q : Instr → Bool) (a : Place) : Option Slot :=
  if q a.instr then some a.slot else none

theorem filterMap_slotIf (q : Instr → Bool) (l : List Place) :
    l.filterMap (Place.slotIf q) = (l.filter fun a => q a.instr).map Place.slot := by
  induction l with
  | nil => rfl
  | cons a l ih =>
    rw [List.filterMap_cons, List.filter_cons, ih, Place.slotIf]
    split <;> simp_all

/-- The place of a reference. -/
def Place.reference? (a : Place) : Option Slot :=
  if a.instr.isReference then some a.slot else none

/-- A reference stands for a distance, which a jump takes. -/
theorem Denotes.pushes_of_jumps {F : Frame} {p : Int} {b : Bool} {i : Instr} {o : Op}
    (h : Denotes F p b i o) (hi : i.subject? = some .jumps) : b = true ∧ ∃ d, o = .pushInt32 d := by
  cases i with
  | op o => cases hi
  | symbolic s =>
    obtain ⟨_, _, _, d, -, hfeeds, -, -, -, ho⟩ := h.jump_of_subject (Option.some.inj hi)
    exact ⟨hfeeds, d, ho⟩

namespace Jumps

open Targets

/-! ## Jumps, references and markers in laid-out code -/

/-- The jumps of a routine, in order: one fed from before the routine, and those fed by its
instructions. -/
theorem sitesFrom_eq (feeder : Option (Slot × Instr)) (slot : Slot) (p : Int) (r : Routine) :
    sitesFrom feeder slot p r =
      (if r.feedsJump then [⟨p + Opcode.jumpRelative.size, feeder⟩] else []) ++
        ((placesFrom slot p r).filter fun a => !isMarker a.instr && a.rest.feedsJump).map Place.site := by
  induction r generalizing feeder slot p with
  | nil => rfl
  | cons i r ih =>
    have hrest := fun feeder => ih feeder slot.next (p + i.size)
    rw [sitesFrom, placesFrom]
    by_cases hm : isMarker i = true
    · have hne : i ≠ .op .jumpRelative := by
        rintro rfl
        cases hm
      have hp : p + (i.size : Int) = p := by
        rw [size_eq_zero_of_isMarker hm]
        omega
      rw [hp] at hrest
      rw [if_pos hm, if_neg hne, Routine.feedsJump_marker hm, hp, List.filter_cons_of_neg (by simp [hm])]
      exact hrest feeder
    · have hfeeder : (if isMarker i = true then feeder else some (slot, i)) = some (slot, i) := if_neg hm
      have hplace : (((⟨slot, p, i, r⟩ : Place) :: placesFrom slot.next (p + i.size) r).filter
          fun a => !isMarker a.instr && a.rest.feedsJump).map Place.site =
          (if Routine.feedsJump r then [⟨p + i.size + Opcode.jumpRelative.size, some (slot, i)⟩] else []) ++
            ((placesFrom slot.next (p + i.size) r).filter
              fun a => !isMarker a.instr && a.rest.feedsJump).map Place.site := by
        by_cases hf : Routine.feedsJump r = true
        · rw [List.filter_cons_of_pos (by simp [hm, hf]), if_pos hf]
          rfl
        · rw [List.filter_cons_of_neg (by simp [hf]), if_neg hf, List.nil_append]
      rw [hfeeder, hplace, ← hrest]
      rw [Bool.not_eq_true] at hm
      rw [Routine.feedsJump_instr hm]
      by_cases hjump : i = .op .jumpRelative
      · subst hjump
        rfl
      · rw [if_neg hjump, decide_eq_false hjump]
        rfl

/-- A jump is fed from before its routine, or by the instruction at a place. -/
theorem site_cases {k : Nat} {p : Int} {rs : List Routine} {s : Site} (h : s ∈ sites k p rs) :
    s.feeder = none ∨
      ∃ a ∈ places k p rs, isMarker a.instr = false ∧ a.rest.feedsJump = true ∧ s = a.site := by
  induction rs generalizing k p with
  | nil => cases h
  | cons r rs ih =>
    rw [sites, sitesFrom_eq] at h
    rcases List.mem_append.1 h with h | h
    · rcases List.mem_append.1 h with h | h
      · split at h
        · rw [List.mem_singleton.1 h]
          exact Or.inl rfl
        · cases h
      · obtain ⟨a, ha, rfl⟩ := List.mem_map.1 h
        obtain ⟨ha, hfed⟩ := List.mem_filter.1 ha
        simp only [Bool.and_eq_true, Bool.not_eq_true'] at hfed
        exact Or.inr ⟨a, List.mem_append_left _ ha, hfed.1, hfed.2, rfl⟩
    · rcases ih h with hnone | ⟨a, ha, hsite⟩
      · exact Or.inl hnone
      · exact Or.inr ⟨a, List.mem_append_right _ ha, hsite⟩

theorem site_mem {k : Nat} {p : Int} {rs : List Routine} {a : Place} (ha : a ∈ places k p rs)
    (hm : isMarker a.instr = false) (hfeeds : a.rest.feedsJump = true) : a.site ∈ sites k p rs := by
  induction rs generalizing k p with
  | nil => cases ha
  | cons r rs ih =>
    rw [sites, List.mem_append]
    rcases List.mem_append.1 ha with ha | ha
    · left
      rw [sitesFrom_eq]
      exact List.mem_append_right _
        (List.mem_map.2 ⟨a, List.mem_filter.2 ⟨ha, by simp [hm, hfeeds]⟩, rfl⟩)
    · exact Or.inr (ih ha)

/-- A routine that begins with a jump, markers apart, has one that nothing feeds. -/
theorem exists_unfed {k : Nat} {p : Int} {rs : List Routine} {r : Routine} (hr : r ∈ rs)
    (hfeeds : r.feedsJump = true) : ∃ s ∈ sites k p rs, s.feeder = none := by
  induction rs generalizing k p with
  | nil => cases hr
  | cons r' rs ih =>
    rw [sites]
    rcases List.mem_cons.1 hr with rfl | hr
    · refine ⟨⟨p + Opcode.jumpRelative.size, none⟩, ?_, rfl⟩
      rw [sitesFrom_eq, if_pos hfeeds]
      exact List.mem_append_left _ List.mem_cons_self
    · obtain ⟨s, hs, hnone⟩ := @ih (k + 1) (p + r'.size) hr
      exact ⟨s, List.mem_append_right _ hs, hnone⟩

/-- The place of the instruction that feeds a jump, if it is of some kind. -/
def Site.slotIf (q : Instr → Bool) (s : Site) : Option Slot :=
  s.feeder.bind fun (slot, i) => if q i then some slot else none

/-- The place of the reference that feeds a jump. -/
def Site.reference? (s : Site) : Option Slot :=
  s.feeder.bind fun (slot, i) => if i.isReference then some slot else none

theorem references_eq (k : Nat) (p : Int) (rs : List Routine) :
    references k rs = (places k p rs).filterMap Place.reference? := by
  have hcons : ∀ (slot : Slot) (i : Instr) (r : Routine), referencesFrom slot (i :: r) =
      if i.isReference then slot :: referencesFrom slot.next r else referencesFrom slot.next r := by
    intro slot i r
    by_cases hi : i.isReference = true
    · obtain ⟨target, adjust, rfl⟩ := i.exists_of_isReference hi
      rfl
    · rw [if_neg hi, referencesFrom]
      · rfl
      · rintro target adjust rfl
        exact hi rfl
  have hroutine : ∀ (r : Routine) (slot : Slot) (p : Int),
      referencesFrom slot r = (placesFrom slot p r).filterMap Place.reference? := by
    intro r
    induction r with
    | nil => intro slot p; rfl
    | cons i r ih =>
      intro slot p
      rw [hcons, placesFrom, List.filterMap_cons, ih slot.next (p + i.size), Place.reference?]
      by_cases hi : i.isReference = true
      · simp only [hi, if_true]
      · simp only [hi, if_false, Bool.false_eq_true]
  induction rs generalizing k p with
  | nil => rfl
  | cons r rs ih => rw [references, places, List.filterMap_append, ← ih, ← hroutine]

/-- The jumps that instructions of some kind feed, and the instructions of that kind that feed jumps, in
order. -/
theorem filterMap_sites_slotIf {q : Instr → Bool} (hq : ∀ m, isMarker m = true → q m = false)
    (k : Nat) (p : Int)
    (rs : List Routine) :
    (sites k p rs).filterMap (Site.slotIf q) =
      ((places k p rs).filter fun a => a.rest.feedsJump).filterMap (Place.slotIf q) := by
  have hplaces : ∀ l : List Place,
      ((l.filter fun a => !isMarker a.instr && a.rest.feedsJump).map Place.site).filterMap
        (Site.slotIf q) = (l.filter fun a => a.rest.feedsJump).filterMap (Place.slotIf q) := by
    intro l
    rw [List.filterMap_map, List.filterMap_filter, List.filterMap_filter]
    congr 1
    funext a
    show (if _ then (if q a.instr then some a.slot else none) else none) =
      if _ then (if q a.instr then some a.slot else none) else none
    by_cases hf : a.rest.feedsJump = true
    · by_cases hm : isMarker a.instr = true
      · simp [hq _ hm]
      · simp [hf, hm]
    · simp [hf]
  induction rs generalizing k p with
  | nil => rfl
  | cons r rs ih =>
    rw [sites, places, List.filterMap_append, ih, sitesFrom_eq, List.filterMap_append, hplaces,
      List.filter_append, List.filterMap_append]
    split <;> rfl

/-- The references that feed jumps, in order. -/
theorem filterMap_sites (k : Nat) (p : Int) (rs : List Routine) :
    (sites k p rs).filterMap Site.reference? =
      ((places k p rs).filter fun a => a.rest.feedsJump).filterMap Place.reference? := by
  refine @filterMap_sites_slotIf Instr.isReference (fun m hm => ?_) k p rs
  rw [Instr.isReference, hm, Bool.not_true, Bool.and_false]

theorem length_references (k : Nat) (rs : List Routine) :
    (references k rs).length = Routine.remaining .jumps rs := by
  have hroutine : ∀ (r : Routine) (slot : Slot) (p : Int),
      ((placesFrom slot p r).filterMap Place.reference?).length = Routine.remaining .jumps [r] := by
    intro r
    induction r with
    | nil => intro slot p; rfl
    | cons i r ih =>
      intro slot p
      rw [placesFrom, List.filterMap_cons]
      unfold Place.reference?
      by_cases hm : isMarker i = true
      · simp only [Instr.isReference, hm, Bool.not_true, Bool.and_false, Routine.remaining_marker hm]
        exact ih _ _
      · rw [Bool.not_eq_true] at hm
        simp only [Instr.isReference, hm, Bool.not_false, Bool.and_true, Routine.remaining_instr hm,
          decide_eq_true_eq]
        split
        · next h =>
          split at h
          · cases h
          · next hs =>
            rw [if_neg hs]
            exact ih _ _
        · next h =>
          split at h
          · next hs =>
            rw [if_pos hs, List.length_cons]
            exact congrArg (· + 1) (ih _ _)
          · cases h
  rw [references_eq k 0]
  generalize (0 : Int) = p
  induction rs generalizing k p with
  | nil => rfl
  | cons r rs ih =>
    rw [places, List.filterMap_append, List.length_append, ih, hroutine, Routine.remaining_cons _ r rs]

theorem map_fst_markers (p : Int) (rs : List Routine) :
    (markers p rs).map Prod.fst = Routine.ids Instr.jumpId? rs := by
  unfold Routine.ids
  induction rs generalizing p with
  | nil => rfl
  | cons r rs ih =>
    rw [markers, List.map_append, ih, ← Routine.marksFrom_jumpId?, Routine.map_fst_marksFrom,
      List.flatMap_cons]

theorem duplicate?_eq_none_iff {seen l : List UInt32} :
    duplicate? seen l = none ↔ l.Nodup ∧ ∀ id ∈ l, id ∉ seen := by
  induction l generalizing seen with
  | nil => exact iff_of_true rfl ⟨List.nodup_nil, nofun⟩
  | cons id l ih =>
    rw [duplicate?, List.nodup_cons]
    by_cases hid : id ∈ seen
    · rw [if_pos hid]
      exact iff_of_false nofun fun h => h.2 id List.mem_cons_self hid
    · rw [if_neg hid, ih]
      simp only [List.mem_cons, not_or]
      constructor
      · rintro ⟨hl, hseen⟩
        refine ⟨⟨fun hin => (hseen id hin).1 rfl, hl⟩, ?_⟩
        rintro x (rfl | hx)
        · exact hid
        · exact (hseen x hx).2
      · rintro ⟨⟨hnew, hl⟩, hseen⟩
        refine ⟨hl, fun x hx => ⟨?_, hseen x (Or.inr hx)⟩⟩
        rintro rfl
        exact hnew hx

/-! ## Removing -/

/-- What is answered at a jump: the distance that a reference before it stands for, if one feeds it. -/
theorem distance_site_eq_ok_iff {F : Frame} {a : Place} {y : Option (Slot × Int32)}
    (hfeeds : a.rest.feedsJump = true) (hm : isMarker a.instr = false) :
    distance F.jumps F.finish a.site = .ok y ↔
      (a.instr.subject? ≠ some .jumps ∧ y = none) ∨
        (a.instr.subject? = some .jumps ∧ ∃ d,
          Denotes F a.position a.rest.feedsJump a.instr (.pushInt32 d) ∧ y = some (a.slot, d)) := by
  obtain ⟨slot, p, i, r⟩ := a
  by_cases hi : i.subject? = some .jumps
  · obtain ⟨target, adjust, rfl⟩ := i.exists_of_isReference (Instr.isReference_iff.2 ⟨hi, hm⟩)
    have hsize : Instr.size (.symbolic (.jumpPush target adjust)) = Opcode.pushInt32.size := rfl
    unfold distance
    dsimp only [Place.site]
    constructor
    · intro h
      split at h
      · cases h
      · next marker hmark =>
        split at h
        · cases h
        · next hend =>
          split at h
          · next d hword =>
            cases h
            rw [int32?_eq_some_iff, hsize] at hword
            refine Or.inr ⟨hi, d, Denotes.jump rfl hfeeds hmark (by omega) ?_, rfl⟩
            show marker + adjust.toNat = p + Opcode.pushInt32.size + Opcode.jumpRelative.size + d.toInt
            omega
          · cases h
    · rintro (⟨hne, -⟩ | ⟨-, d, hd, rfl⟩)
      · exact absurd hi hne
      · obtain ⟨_, _, marker, d', heq, -, hmark, hend, hsum, hop⟩ := hd.jump_of_subject rfl
        cases heq
        cases hop
        have hword : int32? (marker + adjust.toNat -
            (p + Instr.size (.symbolic (.jumpPush target adjust)) + Opcode.jumpRelative.size)) = some d := by
          rw [int32?_eq_some_iff, hsize]
          omega
        rw [hmark]
        dsimp only
        rw [if_neg (by omega), hword]
  · have hnone : distance F.jumps F.finish (Place.site ⟨slot, p, i, r⟩) = .ok none := by
      simp only [distance, Place.site]
      split
      · next heq =>
        cases heq
        exact absurd rfl hi
      · rfl
    rw [hnone]
    constructor
    · intro h
      cases h
      exact Or.inl ⟨hi, rfl⟩
    · rintro (⟨-, rfl⟩ | ⟨h, -⟩)
      · rfl
      · exact absurd h hi

/-- Distances are answered for exactly the jumps that references feed. -/
theorem map_fst_of_distance {marks : List (UInt32 × Int)} {finish : Int} (s : Site)
    (y : Option (Slot × Int32)) (h : distance marks finish s = .ok y) : y.map Prod.fst = s.reference? := by
  obtain ⟨q, feeder⟩ := s
  unfold distance at h
  simp only at h
  split at h
  · next slot target adjust =>
    split at h
    · cases h
    · split at h
      · cases h
      · split at h
        · cases h
          rfl
        · cases h
  · next hne =>
    cases h
    cases feeder with
    | none => rfl
    | some x =>
      obtain ⟨slot, i⟩ := x
      have hno : i.isReference = false := by
        rw [← Bool.not_eq_true]
        intro h
        obtain ⟨target, adjust, rfl⟩ := i.exists_of_isReference h
        exact hne slot target adjust rfl
      show none = if i.isReference = true then some slot else none
      rw [hno]
      rfl

/-- Whether an instruction is a jump marker, by its pass. -/
theorem isTarget_iff {m : Instr} (hm : isMarker m = true) :
    isTarget m = true ↔ m.subject? = some .jumps := by
  obtain ⟨id, rfl | rfl⟩ := isMarker_iff.1 hm
  · exact iff_of_true rfl rfl
  · exact iff_of_false nofun nofun

theorem isMarker_of_isTarget {i : Instr} (h : isTarget i = true) : isMarker i = true := by
  unfold isTarget at h
  split at h
  · rfl
  · cases h

/-- Distances for exactly the references: each is what a reference stands for, and each reference
has one. -/
structure Distances (F : Frame) (start : Int) (rs : List Routine) (found : List (Slot × Int32)) : Prop where
  sound : ∀ x ∈ found, ∃ a ∈ places 0 start rs, a.slot = x.1 ∧ isMarker a.instr = false ∧
    a.instr.subject? = some .jumps ∧ Denotes F a.position a.rest.feedsJump a.instr (.pushInt32 x.2)
  complete : ∀ a ∈ places 0 start rs, isMarker a.instr = false → a.instr.subject? = some .jumps →
    ∃ d, (a.slot, d) ∈ found

/-- Setting the distances lowers the references. -/
theorem Distances.respelled {F : Frame} {start : Int} {rs : List Routine} {found : List (Slot × Int32)}
    (h : Distances F start rs found) :
    Along (fun p r r' => Respelled (lowering .jumps F) (fun _ => False) (fun _ => False) p r r') start rs
      (setAll rs (found.map fun x => (x.1, Instr.op (.pushInt32 x.2)))) := by
  let changes := found.map fun x => (x.1, Instr.op (.pushInt32 x.2))
  show Along _ start rs (setAll rs changes)
  rw [setAll_eq]
  refine along_replaceAll (fun hr => hr) ?_ ?_
  · intro a ha hm
    rcases edited_cases changes a.slot a.instr with hin | ⟨-, hsame⟩
    · obtain ⟨x, hx, heq⟩ := List.mem_map.1 hin
      obtain ⟨b, hb, hslot, hm', -⟩ := h.sound x hx
      rw [eq_of_slot_eq hb ha (hslot.trans (congrArg Prod.fst heq)), hm] at hm'
      cases hm'
    · exact hsame
  · intro a ha hm
    rcases edited_cases changes a.slot a.instr with hin | ⟨hnone, hsame⟩
    · obtain ⟨x, hx, heq⟩ := List.mem_map.1 hin
      obtain ⟨b, hb, hslot, -, hsubject, ho⟩ := h.sound x hx
      obtain rfl := eq_of_slot_eq hb ha (hslot.trans (congrArg Prod.fst heq))
      exact Or.inr ⟨hsubject, _, ho, (congrArg Prod.snd heq).symm⟩
    · refine Or.inl ⟨fun hsubject => ?_, hsame⟩
      obtain ⟨d, hd⟩ := h.complete a ha hm hsubject
      exact hnone _ (List.mem_map.2 ⟨_, hd, rfl⟩)

/-- Setting the distances and dropping the markers lowers the routines. -/
theorem Distances.lowered {F : Frame} {start : Int} {rs : List Routine} {found : List (Slot × Int32)}
    (h : Distances F start rs found) :
    Along (fun p r r' => r.Lowered .jumps F p r') start rs
      ((setAll rs (found.map fun x => (x.1, Instr.op (.pushInt32 x.2)))).map
        fun r => r.filter fun i => !isTarget i) := by
  refine h.respelled.map fun {p r r'} hr => ?_
  exact (Respelled.filter_iff (lowering_faithful _ _) (fun _ => isMarker_of_isTarget) isTarget_iff).2
    ⟨r', hr, rfl⟩

/-- Removing succeeds exactly if the identifiers of markers are distinct, every reference feeds a jump,
and every jump that a reference feeds has a distance; then the distances are put in their places and
the markers dropped. -/
theorem remove_eq_ok_iff_found {base : UInt32} {n : Nat} {rs rs' : List Routine} :
    remove base rs = .ok (n, rs') ↔ (Routine.ids Instr.jumpId? rs).Nodup ∧
      ∃ found, (sites 0 base.toNat rs).mapM (distance (markers base.toNat rs) (layout base.toNat rs).2) =
          .ok found ∧
        (∀ slot ∈ references 0 rs, slot ∈ (found.filterMap id).map Prod.fst) ∧
        n = (found.filterMap id).length ∧
        rs' = (setAll rs ((found.filterMap id).map fun x => (x.1, Instr.op (.pushInt32 x.2)))).map
          fun r => r.filter fun i => !isTarget i := by
  have hdup : duplicate? [] ((markers base.toNat rs).map Prod.fst) = none ↔
      (Routine.ids Instr.jumpId? rs).Nodup := by
    rw [duplicate?_eq_none_iff, map_fst_markers]
    exact ⟨fun h => h.1, fun h => ⟨h, fun _ _ => List.not_mem_nil⟩⟩
  have hfind : ∀ found : List (Option (Slot × Int32)),
      ((references 0 rs).find? fun slot => slot ∉ (found.filterMap id).map Prod.fst) = none ↔
        ∀ slot ∈ references 0 rs, slot ∈ (found.filterMap id).map Prod.fst := by
    intro found
    rw [List.find?_eq_none]
    refine forall₂_congr fun slot _ => ?_
    rw [decide_eq_true_eq, Decidable.not_not]
  rw [← hdup]
  unfold remove
  simp only
  cases duplicate? [] ((markers base.toNat rs).map Prod.fst) with
  | some id => exact iff_of_false nofun nofun
  | none =>
    simp only [true_and]
    rw [Run.except_bind_eq_ok_iff]
    refine exists_congr fun found => and_congr_right fun _ => ?_
    rw [← hfind]
    split
    · next h => exact iff_of_false nofun fun hnone => by rw [h] at hnone; cases hnone.1
    · next h =>
      constructor
      · intro heq
        cases heq
        exact ⟨h, rfl, rfl⟩
      · rintro ⟨-, rfl, rfl⟩
        rfl

section Removal

variable {F : Frame} {base : UInt32} {rs : List Routine} {found : List (Option (Slot × Int32))}

/-- The answers of a removal that goes through. -/
theorem distances_of_mapM
    (hfound : (sites 0 base.toNat rs).mapM (distance F.jumps F.finish) = .ok found)
    (hpaired : ∀ slot ∈ references 0 rs, slot ∈ (found.filterMap id).map Prod.fst) :
    Distances F base.toNat rs (found.filterMap id) ∧
      (found.filterMap id).length = Routine.remaining .jumps rs := by
  have hslots : (found.filterMap id).map Prod.fst =
      ((places 0 base.toNat rs).filter fun a => a.rest.feedsJump).filterMap Place.reference? := by
    rw [← filterMap_sites, List.map_filterMap]
    have hmap := Run.map_eq_of_mapM map_fst_of_distance hfound
    have hcollect := congrArg (List.filterMap id) hmap
    rw [List.filterMap_map, List.filterMap_map] at hcollect
    exact hcollect
  -- a reference whose place is among the answers feeds the jump there
  have hfeeds : ∀ a ∈ places 0 base.toNat rs, a.instr.isReference = true → a.rest.feedsJump = true := by
    intro a ha hi
    have hin : a.slot ∈ references 0 rs := by
      rw [references_eq 0 base.toNat]
      exact List.mem_filterMap.2 ⟨a, ha, if_pos hi⟩
    have hin' := hpaired _ hin
    rw [hslots] at hin'
    obtain ⟨a', ha', hslot⟩ := List.mem_filterMap.1 hin'
    obtain ⟨ha', hfeeds⟩ := List.mem_filter.1 ha'
    unfold Place.reference? at hslot
    split at hslot
    · rw [← eq_of_slot_eq ha' ha (Option.some.inj hslot)]
      exact hfeeds
    · cases hslot
  have hall : (found.filterMap id).map Prod.fst = references 0 rs := by
    rw [hslots, references_eq 0 base.toNat, List.filterMap_filter]
    refine List.filterMap_congr fun a ha => ?_
    by_cases hi : a.instr.isReference = true
    · rw [if_pos (hfeeds a ha hi)]
    · rw [Place.reference?, if_neg hi, ite_self]
  refine ⟨⟨?_, ?_⟩, ?_⟩
  · rintro ⟨slot, d⟩ h
    obtain ⟨x, hx, heq⟩ := List.mem_filterMap.1 h
    obtain rfl : x = some (slot, d) := heq
    obtain ⟨s, hs, hdist⟩ := Run.exists_of_mem_of_mapM hfound hx
    rcases site_cases hs with hnone | ⟨a, ha, hm, hfed, rfl⟩
    · rw [distance, hnone] at hdist
      cases hdist
    · rcases (distance_site_eq_ok_iff hfed hm).1 hdist with ⟨-, h⟩ | ⟨hsubject, d', hd, h⟩
      · cases h
      · cases h
        exact ⟨a, ha, rfl, hm, hsubject, hd⟩
  · intro a ha hm hsubject
    have hin : a.slot ∈ references 0 rs := by
      rw [references_eq 0 base.toNat]
      exact List.mem_filterMap.2 ⟨a, ha, if_pos (Instr.isReference_iff.2 ⟨hsubject, hm⟩)⟩
    obtain ⟨⟨slot, d⟩, hx, heq⟩ := List.mem_map.1 (hpaired _ hin)
    exact ⟨d, heq ▸ hx⟩
  · rw [← length_references 0, ← hall, List.length_map]

/-- If every reference stands for a distance, all jumps are answered and no reference is left over. -/
theorem exists_mapM_of_along {rs' : List Routine}
    (halong : Along (fun start r r' => r.Lowered .jumps F start r') base.toNat rs rs') :
    ∃ found, (sites 0 base.toNat rs).mapM (distance F.jumps F.finish) = .ok found ∧
      ∀ slot ∈ references 0 rs, slot ∈ (found.filterMap id).map Prod.fst := by
  have hdenotes : ∀ a ∈ places 0 base.toNat rs, isMarker a.instr = false →
      a.instr.subject? = some .jumps → a.rest.feedsJump = true ∧ ∃ d,
        Denotes F a.position a.rest.feedsJump a.instr (.pushInt32 d) := by
    intro a ha hm hsubject
    obtain ⟨o, ho⟩ := exists_denotes_of_along halong ha hm hsubject
    obtain ⟨hfeeds, d, rfl⟩ := ho.pushes_of_jumps hsubject
    exact ⟨hfeeds, d, ho⟩
  have hanswered : ∀ s ∈ sites 0 base.toNat rs, ∃ y, distance F.jumps F.finish s = .ok y := by
    intro s hs
    rcases site_cases hs with hnone | ⟨a, ha, hm, hfeeds, rfl⟩
    · refine ⟨none, ?_⟩
      rw [distance, hnone]
    · by_cases hsubject : a.instr.subject? = some .jumps
      · obtain ⟨-, d, hd⟩ := hdenotes a ha hm hsubject
        exact ⟨_, (distance_site_eq_ok_iff hfeeds hm).2 (Or.inr ⟨hsubject, d, hd, rfl⟩)⟩
      · exact ⟨_, (distance_site_eq_ok_iff hfeeds hm).2 (Or.inl ⟨hsubject, rfl⟩)⟩
  obtain ⟨found, hfound⟩ := Run.exists_mapM hanswered
  refine ⟨found, hfound, ?_⟩
  intro slot hslot
  rw [references_eq 0 base.toNat] at hslot
  obtain ⟨a, ha, hslot⟩ := List.mem_filterMap.1 hslot
  unfold Place.reference? at hslot
  split at hslot
  · next hi =>
    cases hslot
    obtain ⟨hsubject, hm⟩ := Instr.isReference_iff.1 hi
    obtain ⟨hfeeds, -⟩ := hdenotes a ha hm hsubject
    obtain ⟨y, hy, hdist⟩ := Run.mem_of_mapM hfound (site_mem ha hm hfeeds)
    rcases (distance_site_eq_ok_iff hfeeds hm).1 hdist with ⟨hne, -⟩ | ⟨-, d, -, rfl⟩
    · exact absurd hsubject hne
    · exact List.mem_map.2 ⟨_, List.mem_filterMap.2 ⟨_, hy, rfl⟩, rfl⟩
  · cases hslot

/-- Removing succeeds exactly if the identifiers of markers are distinct and every reference stands
for a distance. -/
theorem remove_eq_ok_iff {F : Int → Routine → Frame}
    (hjumps : ∀ start r, (F start r).jumps = markers base.toNat rs)
    (hfinish : ∀ start r, (F start r).finish = (layout base.toNat rs).2) {n : Nat} {rs' : List Routine} :
    remove base rs = .ok (n, rs') ↔
      (Routine.ids Instr.jumpId? rs).Nodup ∧ n = Routine.remaining .jumps rs ∧
        Along (fun start r r' => r.Lowered .jumps (F start r) start r') base.toNat rs rs' := by
  let G := F base.toNat []
  have hagree : ∀ start r, Frame.Agrees .jumps G (F start r) ∧ Frame.Agrees .jumps (F start r) G := by
    intro start r
    refine ⟨⟨?_, ?_⟩, ⟨?_, ?_⟩⟩
    · rw [hfinish, hfinish]
    · rw [hjumps, hjumps]
    · rw [hfinish, hfinish]
    · rw [hjumps, hjumps]
  have hsame : Along (fun start r r' => r.Lowered .jumps (F start r) start r') base.toNat rs rs' ↔
      Along (fun start r r' => r.Lowered .jumps G start r') base.toNat rs rs' :=
    Along.iff fun {start r _} => ⟨fun h => h.congr (hagree start r).2, fun h => h.congr (hagree start r).1⟩
  rw [remove_eq_ok_iff_found, ← hjumps base.toNat [], ← hfinish base.toNat [], hsame]
  refine and_congr_right fun _ => ?_
  constructor
  · rintro ⟨found, hfound, hpaired, rfl, rfl⟩
    obtain ⟨hdistances, hcount⟩ := distances_of_mapM hfound hpaired
    exact ⟨hcount, hdistances.lowered⟩
  · rintro ⟨rfl, halong⟩
    obtain ⟨found, hfound, hpaired⟩ := exists_mapM_of_along halong
    obtain ⟨hdistances, hcount⟩ := distances_of_mapM hfound hpaired
    refine ⟨found, hfound, hpaired, hcount.symm, halong.unique ?_ hdistances.lowered⟩
    intro p r b b'
    exact Routine.Lowered.unique

end Removal

/-! ## Adding -/

/-- A jump whose distance is pushed as a number goes to a boundary or to the end, up to an
adjustment. -/
theorem resolve_site {bs : List (Int × Slot)} {base finish : Int} {a : Place} {push : Resolved}
    (h : resolve bs base finish a.site = .ok (some push)) :
    ∃ d, a.instr = .op (.pushInt32 d) ∧ push.slot = a.slot ∧
      push.target + push.adjust.toNat =
        a.position + Opcode.pushInt32.size + Opcode.jumpRelative.size + d.toInt ∧
      push.target + push.adjust.toNat ≤ finish := by
  obtain ⟨slot, p, i, r⟩ := a
  unfold resolve Place.site at h
  simp only at h
  split at h
  · next slot' d heq =>
    cases heq
    split at h
    · cases h
    · next hinside =>
      split at h
      · next target adjust hsnap =>
        cases h
        have hsum := snap_spec hsnap
        refine ⟨d, rfl, rfl, ?_, ?_⟩
        · rw [hsum]
          rfl
        · rw [hsum]
          omega
      · cases h
  · cases h
  · cases h

theorem resolve_unfed {bs : List (Int × Slot)} {base finish : Int} {s : Site} (hs : s.feeder = none)
    (push : Option Resolved) : resolve bs base finish s ≠ .ok push := by
  unfold resolve
  rw [hs]
  exact nofun

/-- Each target position has one identifier in the end, and no others are handed out. -/
theorem assignIds_spec {low next : UInt32} {ids ids' : List (Int × UInt32)} {targets : List Int}
    (hids : Assigned low next ids) (h : assignIds next ids targets = .ok ids') :
    (∃ next', Assigned low next' ids') ∧ (∀ x ∈ ids', x ∈ ids ∨ x.1 ∈ targets) ∧
      (∀ x ∈ ids, x ∈ ids') ∧ ∀ target ∈ targets, ∃ id, (target, id) ∈ ids' := by
  induction targets generalizing next ids with
  | nil =>
    cases h
    exact ⟨⟨next, hids⟩, fun x hx => Or.inl hx, fun x hx => hx, nofun⟩
  | cons target targets ih =>
    unfold assignIds at h
    cases hlookup : ids.lookup target with
    | some id =>
      rw [hlookup] at h
      obtain ⟨hassigned, horigin, hkept, htargets⟩ := ih hids h
      refine ⟨hassigned, fun x hx => (horigin x hx).imp_right (List.mem_cons_of_mem _), hkept, ?_⟩
      intro t ht
      rcases List.mem_cons.1 ht with rfl | ht
      · exact ⟨id, hkept _ (mem_of_lookup hlookup)⟩
      · exact htargets t ht
    | none =>
      rw [hlookup] at h
      obtain ⟨next', hnext, h⟩ := Run.except_bind_eq_ok_iff.1 h
      obtain ⟨hassigned, horigin, hkept, htargets⟩ := ih (hids.push hlookup hnext) h
      have hadded : (target, next) ∈ ids' :=
        hkept _ (List.mem_append_right _ (List.mem_singleton.2 rfl))
      refine ⟨hassigned, ?_, fun x hx => hkept x (List.mem_append_left _ hx), ?_⟩
      · intro x hx
        rcases horigin x hx with hx | hx
        · rcases List.mem_append.1 hx with hx | hx
          · exact Or.inl hx
          · obtain rfl := List.mem_singleton.1 hx
            exact Or.inr List.mem_cons_self
        · exact Or.inr (List.mem_cons_of_mem _ hx)
      · intro t ht
        rcases List.mem_cons.1 ht with rfl | ht
        · exact ⟨next, hadded⟩
        · exact htargets t ht

/-- A marker is put at the position that it marks. -/
theorem markerSlot_spec {p target : Int} {rs : List Routine} (hrs : rs ≠ []) {slot : Slot}
    (h : markerSlot rs (boundaries 0 p rs) (layout p rs).2 target = .ok slot) :
    Within rs slot ∧ position p rs slot = target := by
  unfold markerSlot at h
  split at h
  · next htarget =>
    cases h
    have hlast : rs.length - 1 < rs.length := by
      have := List.length_pos_iff.2 hrs
      omega
    have hget : rs[rs.length - 1]? = some rs[rs.length - 1] := List.getElem?_eq_getElem hlast
    have hsplit : rs = rs.take (rs.length - 1) ++ [rs[rs.length - 1]] := by
      have hdrop := List.drop_eq_getElem_cons hlast
      rw [List.drop_eq_nil_of_le (by omega : rs.length ≤ rs.length - 1 + 1)] at hdrop
      rw [← hdrop, List.take_append_drop]
    have hsum : (rs.map Routine.size).sum =
        ((rs.take (rs.length - 1)).map Routine.size).sum + Routine.size rs[rs.length - 1] := by
      conv => lhs; rw [hsplit]
      rw [List.map_append, List.sum_append_nat, List.map_cons, List.map_nil, List.sum_cons,
        List.sum_nil, Nat.add_zero]
    rw [hget]
    refine ⟨⟨_, hget, Nat.le_refl _⟩, ?_⟩
    simp only [position, hget, Option.getD_some, List.take_length]
    rw [htarget, layout_finish, hsum]
    omega
  · split at h
    · next slot' hlookup =>
      cases h
      exact within_of_mem_boundaries (mem_of_lookup hlookup)
    · cases h

/-- A pushed distance may be spelled as a reference to the identifier of a target position. -/
def adding (ids : List (Int × UInt32)) (finish : Int) : Spelling := fun p feeds i i' =>
  i' = i ∨ ∃ d target id adjust, i = .op (.pushInt32 d) ∧ i' = .symbolic (.jumpPush id adjust) ∧
    feeds = true ∧ (target, id) ∈ ids ∧ target + adjust.toNat ≤ finish ∧
    target + adjust.toNat = p + Opcode.pushInt32.size + Opcode.jumpRelative.size + d.toInt

theorem adding_faithful (ids : List (Int × UInt32)) (finish : Int) : (adding ids finish).Faithful where
  size := by
    rintro p b i i' (rfl | ⟨d, target, id, adjust, rfl, rfl, -⟩)
    · rfl
    · rfl
  marker := by
    rintro p b i i' hi (rfl | ⟨d, target, id, adjust, rfl, rfl, -⟩)
    · exact hi
    · rfl
  jump := by
    rintro p b i i' (rfl | ⟨d, target, id, adjust, rfl, rfl, -⟩)
    · exact Iff.rfl
    · exact iff_of_false nofun nofun

/-- What an addition does: pushed distances become references to identifiers, and each identifier,
which is new, gets a marker at the position that it stands for. -/
structure Addition (start : Int) (rs : List Routine) (ids : List (Int × UInt32))
    (changes inserts : List (Slot × Instr)) : Prop where
  changes : ∀ c ∈ changes, ∃ a ∈ places 0 start rs, a.slot = c.1 ∧ isMarker a.instr = false ∧
    adding ids (layout start rs).2 a.position a.rest.feedsJump a.instr c.2
  distinct : (ids.map Prod.snd).Nodup
  fresh : ∀ id ∈ Routine.ids Instr.jumpId? rs, id ∉ ids.map Prod.snd
  slots : (inserts.map Prod.fst).Nodup
  marks : inserts.map Prod.snd = ids.map fun x => Instr.symbolic (.jumpTarget x.2)
  placed : ∀ x ∈ ids, ∃ slot, Within rs slot ∧ position start rs slot = x.1 ∧
    (slot, Instr.symbolic (.jumpTarget x.2)) ∈ inserts

/-- What is resolved belongs to a place. -/
theorem place_of_push {bs : List (Int × Slot)} {start base finish : Int} {rs : List Routine}
    {found : List (Option Resolved)}
    (hfound : (sites 0 start rs).mapM (resolve bs base finish) = .ok found) {push : Resolved}
    (h : push ∈ found.filterMap id) :
    ∃ a ∈ places 0 start rs, isMarker a.instr = false ∧ a.rest.feedsJump = true ∧
      resolve bs base finish a.site = .ok (some push) := by
  obtain ⟨x, hx, heq⟩ := List.mem_filterMap.1 h
  obtain rfl : x = some push := heq
  obtain ⟨s, hs, hresolve⟩ := Run.exists_of_mem_of_mapM hfound hx
  rcases site_cases hs with hnone | ⟨a, ha, hm, hfeeds, rfl⟩
  · exact absurd hresolve (resolve_unfed hnone _)
  · exact ⟨a, ha, hm, hfeeds, hresolve⟩

/-- The marker for an identifier is put at the position that the identifier stands for. -/
theorem markerSlot_of_push {bs : List (Int × Slot)} {start base finish : Int} {rs : List Routine}
    {found : List (Option Resolved)}
    (hfound : (sites 0 start rs).mapM (resolve bs base finish) = .ok found) {next : UInt32}
    {ids : List (Int × UInt32)}
    (hids : assignIds next [] ((found.filterMap id).map Resolved.target) = .ok ids) (x : Int × UInt32)
    (hx : x ∈ ids) {slot : Slot}
    (h : markerSlot rs (boundaries 0 start rs) (layout start rs).2 x.1 = .ok slot) :
    Within rs slot ∧ position start rs slot = x.1 := by
  refine markerSlot_spec ?_ h
  -- without routines there are no targets
  rintro rfl
  rcases (assignIds_spec (Assigned.nil next) hids).2.1 x hx with hnil | htarget
  · cases hnil
  · obtain ⟨push, hmem, -⟩ := List.mem_map.1 htarget
    obtain ⟨a, ha, -⟩ := place_of_push hfound hmem
    cases ha

/-- What an addition decides before it changes anything: what becomes of each jump, the identifiers of
the target positions from `next` on, and the markers with their places. -/
structure Decided (base : UInt32) (rs : List Routine) (found : List (Option Resolved)) (next : UInt32)
    (ids : List (Int × UInt32)) (inserts : List (Slot × Instr)) : Prop where
  resolved : (sites 0 base.toNat rs).mapM
    (resolve (boundaries 0 base.toNat rs) base.toNat (layout base.toNat rs).2) = .ok found
  free : nextId rs = .ok next
  assigned : assignIds next [] ((found.filterMap id).map Resolved.target) = .ok ids
  placed : ids.mapM (fun x => do
    let slot ← markerSlot rs (boundaries 0 base.toNat rs) (layout base.toNat rs).2 x.1
    return (slot, Instr.symbolic (.jumpTarget x.2))) = .ok inserts

/-- The references that take the place of pushed distances. -/
def pushesAs (ids : List (Int × UInt32)) (pushes : List Resolved) : List (Slot × Instr) :=
  pushes.map fun p => (p.slot, Instr.symbolic (.jumpPush ((ids.lookup p.target).getD 0) p.adjust))

theorem add_eq_ok_iff {base : UInt32} {rs rs' : List Routine} {n : Nat} :
    add base rs = .ok (n, rs') ↔ ∃ found next ids inserts, Decided base rs found next ids inserts ∧
      n = (found.filterMap id).length ∧
      rs' = insertAll (setAll rs (pushesAs ids (found.filterMap id))) inserts := by
  unfold add
  simp only
  constructor
  · intro h
    obtain ⟨found, hfound, h⟩ := Run.except_bind_eq_ok_iff.1 h
    obtain ⟨next, hnext, h⟩ := Run.except_bind_eq_ok_iff.1 h
    obtain ⟨ids, hids, h⟩ := Run.except_bind_eq_ok_iff.1 h
    obtain ⟨inserts, hinserts, h⟩ := Run.except_bind_eq_ok_iff.1 h
    cases h
    exact ⟨found, next, ids, inserts, ⟨hfound, hnext, hids, hinserts⟩, rfl, rfl⟩
  · rintro ⟨found, next, ids, inserts, h, rfl, rfl⟩
    refine Run.except_bind_eq_ok_iff.2 ⟨found, h.resolved, ?_⟩
    refine Run.except_bind_eq_ok_iff.2 ⟨next, h.free, ?_⟩
    refine Run.except_bind_eq_ok_iff.2 ⟨ids, h.assigned, ?_⟩
    exact Run.except_bind_eq_ok_iff.2 ⟨inserts, h.placed, rfl⟩

theorem Decided.addition {base : UInt32} {rs : List Routine} {found : List (Option Resolved)}
    {next : UInt32} {ids : List (Int × UInt32)} {inserts : List (Slot × Instr)}
    (h : Decided base rs found next ids inserts) :
    Addition base.toNat rs ids (pushesAs ids (found.filterMap id)) inserts := by
  obtain ⟨⟨next', hassigned⟩, -, -, htargets⟩ := assignIds_spec (Assigned.nil next) h.assigned
  have hfind : ∀ x ∈ ids, ∀ slot,
      markerSlot rs (boundaries 0 (base.toNat : Int) rs) (layout (base.toNat : Int) rs).2 x.1 = .ok slot →
        Within rs slot ∧ position base.toNat rs slot = x.1 :=
    fun x hx _ => markerSlot_of_push h.resolved h.assigned x hx
  obtain ⟨hslots, hmarks, hplaced, -⟩ :=
    places_of_mapM (fun id => .symbolic (.jumpTarget id))
      (fun x hx slot hslot => (hfind x hx slot hslot).2) hassigned.targets h.placed
  refine ⟨?_, hassigned.distinct, ?_, hslots, hmarks, ?_⟩
  · intro c hc
    obtain ⟨push, hmem, rfl⟩ := List.mem_map.1 hc
    obtain ⟨a, ha, hm, hfeeds, hresolve⟩ := place_of_push h.resolved hmem
    obtain ⟨d, hinstr, hslot, hsum, hend⟩ := resolve_site hresolve
    obtain ⟨id, hid⟩ := htargets push.target (List.mem_map.2 ⟨push, hmem, rfl⟩)
    have hlookup := (lookup_eq_some_iff_mem hassigned.targets).2 hid
    refine ⟨a, ha, hslot.symm, hm, Or.inr ⟨d, push.target, id, push.adjust, hinstr, ?_, hfeeds, hid, hend, hsum⟩⟩
    rw [hlookup, Option.getD_some]
  · intro id hid hmem
    obtain ⟨x, hx, rfl⟩ := List.mem_map.1 hmem
    have hlow := (hassigned.range x hx).1
    have hlt := lt_of_nextId h.free targetId?_of_jumpId? hid
    omega
  · intro x hx
    obtain ⟨slot, hslot, hin⟩ := hplaced x hx
    obtain ⟨hwithin, hposition⟩ := hfind x hx slot hslot
    exact ⟨slot, hwithin, hposition, hin⟩

theorem exists_addition {base : UInt32} {rs rs' : List Routine} {n : Nat}
    (h : add base rs = .ok (n, rs')) :
    ∃ ids changes inserts, Addition base.toNat rs ids changes inserts ∧
      rs' = insertAll (setAll rs changes) inserts := by
  obtain ⟨found, next, ids, inserts, hdecided, -, rfl⟩ := add_eq_ok_iff.1 h
  exact ⟨ids, _, inserts, hdecided.addition, rfl⟩

/-! ## Markers after insertions -/

section Marks

variable {new : Slot → List Instr} {k : Nat} {p : Int} {rs : List Routine}

theorem mem_markers_insertEach (hnew : ∀ s, ∀ m ∈ new s, isMarker m = true) {x : UInt32 × Int}
    (hx : x ∈ markers p rs) : x ∈ markers p (insertEach new k rs) := by
  induction rs generalizing k p with
  | nil => cases hx
  | cons r rs ih =>
    rw [insertEach, markers, size_insertFrom hnew, List.mem_append]
    rcases List.mem_append.1 hx with hx | hx
    · rw [← Routine.marksFrom_jumpId?] at hx ⊢
      exact Or.inl (mem_marksFrom_insertFrom hnew hx)
    · exact Or.inr (ih hx)

theorem mem_markers_of_new (hnew : ∀ s, ∀ m ∈ new s, isMarker m = true) {slot : Slot}
    (hwithin : Within rs slot) {id : UInt32}
    (hm : Instr.symbolic (.jumpTarget id) ∈ new ⟨k + slot.routine, slot.index⟩) :
    (id, position p rs slot) ∈ markers p (insertEach new k rs) := by
  obtain ⟨j, n⟩ := slot
  obtain ⟨r, hr, hn⟩ := hwithin
  induction rs generalizing j k p with
  | nil => cases hr
  | cons r' rs ih =>
    rw [insertEach, markers, size_insertFrom hnew, List.mem_append]
    cases j with
    | zero =>
      cases hr
      refine Or.inl ?_
      have hmark := @mem_marksFrom_of_new Instr.jumpId? _ hnew ⟨k, 0⟩ p r n hn
        (.symbolic (.jumpTarget id)) (by simpa using hm) id rfl
      rw [← Routine.marksFrom_jumpId?]
      have hposition : position p (r :: rs) ⟨0, n⟩ = p + Routine.size (r.take n) := by
        simp [position]
      rw [hposition]
      exact hmark
    | succ j =>
      refine Or.inr ?_
      have hrest := @ih (k + 1) (p + r'.size) j (by
        rw [Nat.add_right_comm, Nat.add_assoc]
        exact hm) hr hn
      have hposition : position p (r' :: rs) ⟨j + 1, n⟩ = position (p + r'.size) rs ⟨j, n⟩ := by
        simp only [position, List.take_succ_cons, List.map_cons, List.sum_cons,
          List.getElem?_cons_succ]
        omega
      rw [hposition]
      exact hrest

end Marks

/-! ## Additions as respellings -/

namespace Addition

variable {start : Int} {rs : List Routine} {ids : List (Int × UInt32)}
  {changes inserts : List (Slot × Instr)}

/-- What is changed is changed as an addition may. -/
theorem adding_edited (h : Addition start rs ids changes inserts) {a : Place} (ha : a ∈ places 0 start rs) :
    adding ids (layout start rs).2 a.position a.rest.feedsJump a.instr (edited changes a.slot a.instr) := by
  rcases edited_cases changes a.slot a.instr with hin | ⟨-, hsame⟩
  · obtain ⟨b, hb, hslot, -, hstep⟩ := h.changes _ hin
    obtain rfl := eq_of_slot_eq hb ha hslot
    exact hstep
  · exact Or.inl hsame

/-- Setting the references respells, in any way in which they are spelled; markers stay. -/
theorem respelled_of_edited (h : Addition start rs ids changes inserts) {step : Spelling}
    (hstep : ∀ a ∈ places 0 start rs, isMarker a.instr = false →
      step a.position a.rest.feedsJump a.instr (edited changes a.slot a.instr)) :
    Along (fun p r r' => Respelled step (fun _ => False) (fun _ => False) p r r') start rs
      (setAll rs changes) := by
  rw [setAll_eq]
  refine along_replaceAll (fun hr => hr) (fun a ha hm => ?_) hstep
  rcases edited_cases changes a.slot a.instr with hin | ⟨-, hsame⟩
  · obtain ⟨b, hb, hslot, hm', -⟩ := h.changes _ hin
    rw [eq_of_slot_eq hb ha hslot, hm] at hm'
    cases hm'
  · exact hsame

theorem respelled_setAll (h : Addition start rs ids changes inserts) :
    Along (fun p r r' => Respelled (adding ids (layout start rs).2) (fun _ => False) (fun _ => False) p r r')
      start rs (setAll rs changes) :=
  h.respelled_of_edited fun _ ha _ => h.adding_edited ha

theorem marker_of_lookup (h : Addition start rs ids changes inserts) {slot : Slot} {m : Instr}
    (hm : m ∈ (inserts.lookup slot).toList) : isMarker m = true ∧ m.subject? = some .jumps := by
  have hin : m ∈ inserts.map Prod.snd :=
    List.mem_map.2 ⟨_, mem_of_lookup (Option.mem_toList.1 hm), rfl⟩
  rw [h.marks] at hin
  obtain ⟨x, -, rfl⟩ := List.mem_map.1 hin
  exact ⟨rfl, rfl⟩

/-- Inserting the markers respells as setting the references does. -/
theorem respelled_insertAll (h : Addition start rs ids changes inserts) {step : Spelling}
    (hset : Along (fun p r r' => Respelled step (fun _ => False) (fun _ => False) p r r') start rs
      (setAll rs changes)) :
    Along (fun p r r' => Respelled step (fun _ => False) (fun m => m.subject? = some .jumps) p r r') start rs
      (insertAll (setAll rs changes) inserts) := by
  rw [insertAll_eq _ h.slots]
  refine Along.insertEach (fun k hr => ?_) hset 0
  refine Respelled.insertFrom (fun _ _ hm => h.marker_of_lookup hm) ?_ _
  exact hr.mono (fun _ hs => hs) (fun _ => Iff.rfl) (fun _ hf => hf.elim)

theorem respelled (h : Addition start rs ids changes inserts) :
    Along (fun p r r' => Respelled (adding ids (layout start rs).2) (fun _ => False)
      (fun m => m.subject? = some .jumps) p r r') start rs (insertAll (setAll rs changes) inserts) :=
  h.respelled_insertAll h.respelled_setAll

theorem map_size (h : Addition start rs ids changes inserts) :
    ((insertAll (setAll rs changes) inserts).map Routine.size) = rs.map Routine.size :=
  h.respelled.map_congr Routine.size fun hr => hr.size (adding_faithful _ _)

/-- Old markers keep their positions. -/
theorem mem_markers_of_old (h : Addition start rs ids changes inserts) {x : UInt32 × Int}
    (hx : x ∈ markers start rs) : x ∈ markers start (insertAll (setAll rs changes) inserts) := by
  rw [insertAll_eq _ h.slots]
  refine mem_markers_insertEach (fun _ _ hm => (h.marker_of_lookup hm).1) ?_
  rw [h.respelled_setAll.jumpMarkers_eq (fun hr => hr.size (adding_faithful _ _))]
  · exact hx
  · intro p r r' hr
    exact hr.marksFrom (adding_faithful _ _) picksMarkers_jumpId? (fun _ hf => hf.elim)
      (fun _ hf => hf.elim) _

/-- New markers stand where they should. -/
theorem mem_markers_of_new (h : Addition start rs ids changes inserts) {x : Int × UInt32} (hx : x ∈ ids) :
    (x.2, x.1) ∈ markers start (insertAll (setAll rs changes) inserts) := by
  have hsizes : (setAll rs changes).map (List.map Instr.size) = rs.map (List.map Instr.size) :=
    h.respelled_setAll.map_congr _ fun hr => hr.map_size (adding_faithful _ _)
  obtain ⟨slot, hwithin, hposition, hin⟩ := h.placed x hx
  rw [insertAll_eq _ h.slots, ← hposition, ← position_congr hsizes]
  refine Jumps.mem_markers_of_new (fun _ _ hm => (h.marker_of_lookup hm).1)
    (within_congr hsizes hwithin) ?_
  rw [Nat.zero_add, (lookup_eq_some_iff_mem h.slots).2 hin]
  exact List.mem_singleton.2 rfl

theorem nodup_ids (h : Addition start rs ids changes inserts)
    (hold : (Routine.ids Instr.jumpId? rs).Nodup) :
    (Routine.ids Instr.jumpId? (insertAll (setAll rs changes) inserts)).Nodup := by
  have hids : Routine.ids Instr.jumpId? (setAll rs changes) = Routine.ids Instr.jumpId? rs :=
    h.respelled_setAll.ids_eq fun hr => hr.filterMap_ids (adding_faithful _ _) picksMarkers_jumpId?
      (fun _ hf => hf.elim) (fun _ hf => hf.elim)
  have hnew : (inserts.filterMap fun a => a.2.jumpId?) = ids.map Prod.snd :=
    filterMap_marks (fun id => .symbolic (.jumpTarget id)) (fun _ => rfl) h.marks
  refine nodup_ids_insertAll ?_ ?_ ?_
  · rw [hids]
    exact hold
  · rw [hnew]
    exact h.distinct
  · rw [hids, hnew]
    exact h.fresh

end Addition

/-- Adding spells pushed distances symbolically, and keeps what the code stands for. -/
theorem raised_of_add {image : Image} {code : List (List Op)} {n : Nat} {rs' : List Routine}
    (hstands : image.StandsFor code) (h : add image.code.base image.code.routines = .ok (n, rs')) :
    Image.Raised .jumps id image (image.withRoutines rs') := by
  obtain ⟨ids, changes, inserts, hadd, rfl⟩ := exists_addition h
  have hnodup := hadd.nodup_ids hstands.jumpIds
  have hlookup : ∀ {id : UInt32} {q : Int},
      (id, q) ∈ markers image.code.base.toNat (insertAll (setAll image.code.routines changes) inserts) →
        (markers image.code.base.toNat
          (insertAll (setAll image.code.routines changes) inserts)).lookup id = some q := by
    intro id q hmem
    refine (lookup_eq_some_iff_mem ?_).2 hmem
    rw [map_fst_markers]
    exact hnodup
  refine ⟨rfl, ?_, ?_, hnodup, ?_⟩
  · refine hadd.respelled.imp fun {p r r'} hr => ⟨?_, ?_⟩
    · refine hr.mono ?_ (fun _ => Iff.rfl) (fun _ hf => hf)
      rintro q b i i' - (rfl | ⟨d, target, id, adjust, rfl, rfl, rfl, hid, hend, hsum⟩)
      · exact Or.inl ⟨rfl, fun _ _ => rfl⟩
      · refine Or.inr ⟨_, rfl, rfl, Denotes.jump rfl rfl (hlookup (hadd.mem_markers_of_new hid)) ?_ hsum⟩
        rw [Image.frame_finish]
        show _ ≤ (image.code.base.toNat : Int) +
          ((insertAll (setAll image.code.routines changes) inserts).map Routine.size).sum
        rw [hadd.map_size, ← layout_finish]
        exact hend
    · exact Image.Extends.of_eq (hr.marksFrom (adding_faithful _ _) picksMarkers_branchId?
        (fun _ hf => hf.elim) (fun m hm => Image.branchId?_eq_none (by rw [hm]; decide)) 0)
  · intro id q hq
    exact hlookup (hadd.mem_markers_of_old (mem_of_lookup hq))
  · show (Routine.ids Instr.branchId? (insertAll (setAll image.code.routines changes) inserts)).Nodup
    rw [hadd.respelled.ids_eq fun hr => hr.filterMap_ids (adding_faithful _ _) picksMarkers_branchId?
      (fun _ hf => hf.elim) (fun m hm => Image.branchId?_eq_none (by rw [hm]; decide))]
    exact hstands.branchIds

end Jumps

end ScriptImage
