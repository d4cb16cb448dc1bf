import ScriptImage.Pass
import ScriptImage.Proofs.CodeStream

/-!
# Respellings

What a pass does to a routine: it spells some instructions differently, drops some markers
and inserts others.  `Respelled step gone fresh p r r'` says that `r'` comes from `r`, which
begins at position `p`, in that way.  A faithful step keeps sizes and jumps, so that a
respelled routine has the same layout:

    r'.size = r.size
    r'.feedsJump = r.feedsJump

The markers of a family that is neither dropped nor inserted stay where they are.
-/

namespace ScriptImage

open Jumps (isMarker)

/-! ## Subjects and markers -/

/-- The pass that a symbolic instruction belongs to. -/
def SymbolicKind.subject : SymbolicKind → Subject
  | jumpTarget | jumpPush => .jumps
  | branchTarget | branchTo | branchIfTrueTo | branchIfFalseTo => .branches
  | pushStringLiteral => .strings
  | getMemberNamed | setMemberNamed | callMethodNamed => .symbols
  | pushGlobal | popGlobal => .globals
  | newObjectNamed => .classes

/-- The pass that an instruction belongs to, if it is symbolic. -/
def Instr.subject? : Instr → Option Subject
  | op _ => none
  | symbolic s => some s.kind.subject

/-- The identifier of a jump marker. -/
def Instr.jumpId? : Instr → Option UInt32
  | symbolic (.jumpTarget id) => some id
  | _ => none

/-- The identifier of a branch marker. -/
def Instr.branchId? : Instr → Option UInt32
  | symbolic (.branchTarget id) => some id
  | _ => none

theorem isMarker_iff {i : Instr} :
    isMarker i = true ↔ ∃ id, i = .symbolic (.jumpTarget id) ∨ i = .symbolic (.branchTarget id) := by
  constructor
  · intro h
    match i, h with
    | .symbolic (.jumpTarget id), _ => exact ⟨id, Or.inl rfl⟩
    | .symbolic (.branchTarget id), _ => exact ⟨id, Or.inr rfl⟩
  · rintro ⟨id, rfl | rfl⟩
    · rfl
    · rfl

theorem size_eq_zero_of_isMarker {m : Instr} (h : isMarker m = true) : m.size = 0 := by
  obtain ⟨id, rfl | rfl⟩ := isMarker_iff.1 h
  · rfl
  · rfl

/-- A way to pick out the identifiers of one family of markers. -/
def PicksMarkers (pick : Instr → Option UInt32) : Prop :=
  ∀ i, isMarker i = false → pick i = none

theorem picksMarkers_jumpId? : PicksMarkers Instr.jumpId? := by
  intro i hi
  unfold Instr.jumpId?
  split
  · cases hi
  · rfl

theorem picksMarkers_branchId? : PicksMarkers Instr.branchId? := by
  intro i hi
  unfold Instr.branchId?
  split
  · cases hi
  · rfl

namespace Routine

/-- Whether the first instruction that is no marker is a jump. -/
def feedsJump : Routine → Bool
  | [] => false
  | i :: r => if isMarker i then feedsJump r else decide (i = .op .jumpRelative)

theorem feedsJump_marker {m : Instr} {r : Routine} (h : isMarker m = true) :
    feedsJump (m :: r) = feedsJump r := by
  rw [feedsJump, if_pos h]

theorem feedsJump_instr {i : Instr} {r : Routine} (h : isMarker i = false) :
    feedsJump (i :: r) = decide (i = .op .jumpRelative) := by
  rw [feedsJump, if_neg (by rw [h]; decide)]

/-- The markers of a family with their positions; the routine begins at `p`. -/
def marksFrom (pick : Instr → Option UInt32) : Int → Routine → List (UInt32 × Int)
  | _, [] => []
  | p, i :: r => ((pick i).map fun id => (id, p)).toList ++ marksFrom pick (p + i.size) r

/-- The identifiers of a family of markers. -/
def ids (pick : Instr → Option UInt32) (rs : List Routine) : List UInt32 :=
  rs.flatMap fun r => r.filterMap pick

theorem marksFrom_jumpId? (p : Int) (r : Routine) :
    marksFrom Instr.jumpId? p r = Jumps.markersFrom p r := by
  induction r generalizing p with
  | nil => rfl
  | cons i r ih =>
    unfold marksFrom Jumps.markersFrom
    rw [ih]
    split
    · rfl
    · next h =>
      have hnone : i.jumpId? = none := by
        unfold Instr.jumpId?
        split
        · next id => exact absurd rfl (h id)
        · rfl
      rw [hnone]
      rfl

theorem marksFrom_branchId? (p : Int) (r : Routine) :
    marksFrom Instr.branchId? p r = Branches.markersFrom p r := by
  induction r generalizing p with
  | nil => rfl
  | cons i r ih =>
    unfold marksFrom Branches.markersFrom
    rw [ih]
    split
    · rfl
    · next h =>
      have hnone : i.branchId? = none := by
        unfold Instr.branchId?
        split
        · next id => exact absurd rfl (h id)
        · rfl
      rw [hnone]
      rfl

theorem map_fst_marksFrom (pick : Instr → Option UInt32) (p : Int) (r : Routine) :
    (marksFrom pick p r).map Prod.fst = r.filterMap pick := by
  induction r generalizing p with
  | nil => rfl
  | cons i r ih =>
    rw [marksFrom, List.map_append, ih, List.filterMap_cons]
    cases pick i <;> rfl

end Routine

/-! ## Respelled routines -/

/-- How an instruction may be spelled: the position, whether the instruction feeds a jump, the
instruction and its new spelling. -/
abbrev Spelling := Int → Bool → Instr → Instr → Prop

/-- A spelling that keeps sizes, and jumps as they are, and makes no markers. -/
structure Spelling.Faithful (step : Spelling) : Prop where
  size : ∀ {p b i i'}, step p b i i' → i'.size = i.size
  marker : ∀ {p b i i'}, isMarker i = false → step p b i i' → isMarker i' = false
  jump : ∀ {p b i i'}, step p b i i' → (i' = .op .jumpRelative ↔ i = .op .jumpRelative)

/-- The second routine comes from the first, which begins at a position, by spelling instructions
differently, dropping the markers in `gone`, and inserting markers in `fresh`. -/
inductive Respelled (step : Spelling) (gone fresh : Instr → Prop) : Int → Routine → Routine → Prop
  | nil {p : Int} : Respelled step gone fresh p [] []
  | keep {p : Int} {m : Instr} {r r' : Routine} (hm : isMarker m = true) (hkept : ¬gone m)
      (h : Respelled step gone fresh p r r') : Respelled step gone fresh p (m :: r) (m :: r')
  | drop {p : Int} {m : Instr} {r r' : Routine} (hm : isMarker m = true) (hgone : gone m)
      (h : Respelled step gone fresh p r r') : Respelled step gone fresh p (m :: r) r'
  | insert {p : Int} {m : Instr} {r r' : Routine} (hm : isMarker m = true) (hfresh : fresh m)
      (h : Respelled step gone fresh p r r') : Respelled step gone fresh p r (m :: r')
  | instr {p : Int} {i i' : Instr} {r r' : Routine} (hi : isMarker i = false)
      (hstep : step p r.feedsJump i i') (h : Respelled step gone fresh (p + i.size) r r') :
      Respelled step gone fresh p (i :: r) (i' :: r')

namespace Respelled

variable {step : Spelling} {gone fresh : Instr → Prop} {p : Int} {r r' : Routine}

theorem size (hstep : step.Faithful) (h : Respelled step gone fresh p r r') : r'.size = r.size := by
  induction h with
  | nil => rfl
  | keep hm _ _ ih => rw [Routine.size_cons, Routine.size_cons, ih]
  | drop hm _ _ ih => rw [Routine.size_cons, size_eq_zero_of_isMarker hm, ih, Nat.zero_add]
  | insert hm _ _ ih => rw [Routine.size_cons, size_eq_zero_of_isMarker hm, ih, Nat.zero_add]
  | instr _ hi _ ih => rw [Routine.size_cons, Routine.size_cons, ih, hstep.size hi]

/-- Without changes of markers the sizes are those of before, one by one. -/
theorem map_size (hstep : step.Faithful)
    (h : Respelled step (fun _ => False) (fun _ => False) p r r') :
    r'.map Instr.size = r.map Instr.size := by
  induction h with
  | nil => rfl
  | keep _ _ _ ih => rw [List.map_cons, List.map_cons, ih]
  | drop _ hg _ _ => exact hg.elim
  | insert _ hf _ _ => exact hf.elim
  | instr _ hs _ ih => rw [List.map_cons, List.map_cons, ih, hstep.size hs]

theorem feedsJump (hstep : step.Faithful) (h : Respelled step gone fresh p r r') :
    r'.feedsJump = r.feedsJump := by
  induction h with
  | nil => rfl
  | keep hm _ _ ih => rw [Routine.feedsJump_marker hm, Routine.feedsJump_marker hm, ih]
  | drop hm _ _ ih => rw [Routine.feedsJump_marker hm, ih]
  | insert hm _ _ ih => rw [Routine.feedsJump_marker hm, ih]
  | instr hi hs _ _ =>
    rw [Routine.feedsJump_instr hi, Routine.feedsJump_instr (hstep.marker hi hs)]
    exact decide_eq_decide.2 (hstep.jump hs)

/-- Where the instructions of a respelled routine come from. -/
theorem mem (h : Respelled step gone fresh p r r') {i' : Instr} (hi' : i' ∈ r') :
    (isMarker i' = true ∧ ¬gone i' ∧ i' ∈ r) ∨ (isMarker i' = true ∧ fresh i') ∨
      ∃ q b i, i ∈ r ∧ isMarker i = false ∧ step q b i i' := by
  induction h with
  | nil => cases hi'
  | @keep p m r r' hm hkept _ ih =>
    rcases List.mem_cons.1 hi' with rfl | hi'
    · exact Or.inl ⟨hm, hkept, List.mem_cons_self⟩
    · rcases ih hi' with ⟨h₁, h₂, h₃⟩ | h | ⟨q, b, i, hi, h⟩
      · exact Or.inl ⟨h₁, h₂, List.mem_cons_of_mem _ h₃⟩
      · exact Or.inr (Or.inl h)
      · exact Or.inr (Or.inr ⟨q, b, i, List.mem_cons_of_mem _ hi, h⟩)
  | drop _ _ _ ih =>
    rcases ih hi' with ⟨h₁, h₂, h₃⟩ | h | ⟨q, b, i, hi, h⟩
    · exact Or.inl ⟨h₁, h₂, List.mem_cons_of_mem _ h₃⟩
    · exact Or.inr (Or.inl h)
    · exact Or.inr (Or.inr ⟨q, b, i, List.mem_cons_of_mem _ hi, h⟩)
  | insert hm hfresh _ ih =>
    rcases List.mem_cons.1 hi' with rfl | hi'
    · exact Or.inr (Or.inl ⟨hm, hfresh⟩)
    · exact ih hi'
  | @instr p i i₁ r r' hi hs _ ih =>
    rcases List.mem_cons.1 hi' with rfl | hi'
    · exact Or.inr (Or.inr ⟨p, _, i, List.mem_cons_self, hi, hs⟩)
    · rcases ih hi' with ⟨h₁, h₂, h₃⟩ | h | ⟨q, b, j, hj, h⟩
      · exact Or.inl ⟨h₁, h₂, List.mem_cons_of_mem _ h₃⟩
      · exact Or.inr (Or.inl h)
      · exact Or.inr (Or.inr ⟨q, b, j, List.mem_cons_of_mem _ hj, h⟩)

/-- What becomes of the instructions of a respelled routine. -/
theorem exists_of_mem (h : Respelled step gone fresh p r r') {i : Instr} (hi : i ∈ r)
    (hm : isMarker i = false) : ∃ q b i', i' ∈ r' ∧ step q b i i' := by
  induction h with
  | nil => cases hi
  | keep hmark _ _ ih =>
    rcases List.mem_cons.1 hi with rfl | hi
    · rw [hm] at hmark
      cases hmark
    · obtain ⟨q, b, i', hi', hs⟩ := ih hi
      exact ⟨q, b, i', List.mem_cons_of_mem _ hi', hs⟩
  | drop hmark _ _ ih =>
    rcases List.mem_cons.1 hi with rfl | hi
    · rw [hm] at hmark
      cases hmark
    · exact ih hi
  | insert _ _ _ ih =>
    obtain ⟨q, b, i', hi', hs⟩ := ih hi
    exact ⟨q, b, i', List.mem_cons_of_mem _ hi', hs⟩
  | @instr p j j' r r' _ hs _ ih =>
    rcases List.mem_cons.1 hi with rfl | hi
    · exact ⟨p, _, j', List.mem_cons_self, hs⟩
    · obtain ⟨q, b, i', hi', hs⟩ := ih hi
      exact ⟨q, b, i', List.mem_cons_of_mem _ hi', hs⟩

theorem mono {step' : Spelling} {gone' fresh' : Instr → Prop}
    (hstep : ∀ {p b i i'}, isMarker i = false → step p b i i' → step' p b i i')
    (hgone : ∀ {m}, isMarker m = true → (gone m ↔ gone' m))
    (hfresh : ∀ {m}, isMarker m = true → fresh m → fresh' m)
    (h : Respelled step gone fresh p r r') : Respelled step' gone' fresh' p r r' := by
  induction h with
  | nil => exact nil
  | keep hm hkept _ ih => exact keep hm (fun hg => hkept ((hgone hm).2 hg)) ih
  | drop hm hg _ ih => exact drop hm ((hgone hm).1 hg) ih
  | insert hm hf _ ih => exact insert hm (hfresh hm hf) ih
  | instr hi hs _ ih => exact instr hi (hstep hi hs) ih

/-- Markers of a family that is neither dropped nor inserted stay where they are. -/
theorem marksFrom {pick : Instr → Option UInt32} (hstep : step.Faithful) (hpick : PicksMarkers pick)
    (hgone : ∀ m, gone m → pick m = none) (hfresh : ∀ m, fresh m → pick m = none) (q : Int)
    (h : Respelled step gone fresh p r r') : r'.marksFrom pick q = r.marksFrom pick q := by
  induction h generalizing q with
  | nil => rfl
  | keep _ _ _ ih => rw [Routine.marksFrom, Routine.marksFrom, ih]
  | @drop p m r r' hm hg _ ih =>
    rw [Routine.marksFrom, hgone m hg, size_eq_zero_of_isMarker hm, ih]
    simp
  | @insert p m r r' hm hf _ ih =>
    rw [Routine.marksFrom, hfresh m hf, size_eq_zero_of_isMarker hm, ih]
    simp
  | instr hi hs _ ih =>
    rw [Routine.marksFrom, Routine.marksFrom, hpick _ hi, hpick _ (hstep.marker hi hs), hstep.size hs, ih]

theorem filterMap_ids {pick : Instr → Option UInt32} (hstep : step.Faithful)
    (hpick : PicksMarkers pick) (hgone : ∀ m, gone m → pick m = none)
    (hfresh : ∀ m, fresh m → pick m = none) (h : Respelled step gone fresh p r r') :
    r'.filterMap pick = r.filterMap pick := by
  have hmarks := congrArg (List.map Prod.fst) (h.marksFrom hstep hpick hgone hfresh 0)
  rwa [Routine.map_fst_marksFrom, Routine.map_fst_marksFrom] at hmarks

/-- Without insertions no identifiers are added. -/
theorem sublist_ids {pick : Instr → Option UInt32} (hstep : step.Faithful)
    (hpick : PicksMarkers pick) (h : Respelled step gone (fun _ => False) p r r') :
    (r'.filterMap pick).Sublist (r.filterMap pick) := by
  induction h with
  | nil => exact List.Sublist.refl _
  | keep _ _ _ ih =>
    rw [List.filterMap_cons, List.filterMap_cons]
    split
    · exact ih
    · exact ih.cons_cons _
  | drop _ _ _ ih =>
    rw [List.filterMap_cons]
    split
    · exact ih
    · exact ih.cons _
  | insert _ hf _ _ => exact hf.elim
  | instr hi hs _ ih =>
    rw [List.filterMap_cons_none (hpick _ hi), List.filterMap_cons_none (hpick _ (hstep.marker hi hs))]
    exact ih

/-- Dropping markers from a respelled routine. -/
theorem filter {drops : Instr → Bool} (hstep : step.Faithful)
    (hdrops : ∀ i, drops i = true → isMarker i = true)
    (h : Respelled step (fun _ => False) fresh p r r') (hfresh : ∀ m, fresh m → drops m = false) :
    Respelled step (fun m => drops m = true) fresh p r (r'.filter fun i => !drops i) := by
  induction h with
  | nil => exact nil
  | @keep p m r r' hm _ _ ih =>
    by_cases hd : drops m = true
    · rw [List.filter_cons_of_neg (by simp [hd])]
      exact drop hm hd ih
    · rw [List.filter_cons_of_pos (by simp [hd])]
      exact keep hm hd ih
  | drop _ hg _ _ => exact hg.elim
  | @insert p m r r' hm hf _ ih =>
    rw [List.filter_cons_of_pos (by simp [hfresh m hf])]
    exact insert hm hf ih
  | @instr p i i' r r' hi hs _ ih =>
    have hd : drops i' = false := by
      cases hd : drops i' with
      | false => rfl
      | true =>
        have := hdrops i' hd
        rw [hstep.marker hi hs] at this
        cases this
    rw [List.filter_cons_of_pos (by simp [hd])]
    exact instr hi hs ih

end Respelled

/-! ## Routine by routine -/

/-- A relation holds between each routine, at its start, and what belongs to it. The routines are
laid out from a position. -/
inductive Along {β : Type} (P : Int → Routine → β → Prop) : Int → List Routine → List β → Prop
  | nil {p : Int} : Along P p [] []
  | cons {p : Int} {r : Routine} {b : β} {rs : List Routine} {bs : List β} (h : P p r b)
      (hrest : Along P (p + r.size) rs bs) : Along P p (r :: rs) (b :: bs)

namespace Along

variable {β γ : Type} {P : Int → Routine → β → Prop} {p : Int} {rs : List Routine} {bs : List β}

theorem imp {Q : Int → Routine → β → Prop} (hPQ : ∀ {p r b}, P p r b → Q p r b)
    (h : Along P p rs bs) : Along Q p rs bs := by
  induction h with
  | nil => exact nil
  | cons hP _ ih => exact cons (hPQ hP) ih

theorem map {Q : Int → Routine → γ → Prop} {f : β → γ} (hPQ : ∀ {p r b}, P p r b → Q p r (f b))
    (h : Along P p rs bs) : Along Q p rs (bs.map f) := by
  induction h with
  | nil => exact nil
  | cons hP _ ih => exact cons (hPQ hP) ih

/-- From routines to respelled routines of the same sizes. -/
theorem trans {P : Int → Routine → Routine → Prop} {Q : Int → Routine → β → Prop}
    {Q' : Int → Routine → γ → Prop} {f : β → γ} {rs' : List Routine}
    (hsize : ∀ {p r r'}, P p r r' → r'.size = r.size)
    (hstep : ∀ {p r r' b}, P p r r' → Q p r b → Q' p r' (f b)) (h : Along P p rs rs')
    (hQ : Along Q p rs bs) : Along Q' p rs' (bs.map f) := by
  induction h generalizing bs with
  | nil =>
    cases hQ
    exact nil
  | cons hP _ ih =>
    cases hQ with
    | cons hb hrest =>
      refine cons (hstep hP hb) ?_
      rw [hsize hP]
      exact ih hrest

/-- What each pair of routines has in common. -/
theorem map_congr {P : Int → Routine → Routine → Prop} {rs' : List Routine} (f : Routine → γ)
    (hf : ∀ {p r r'}, P p r r' → f r' = f r) (h : Along P p rs rs') : rs'.map f = rs.map f := by
  induction h with
  | nil => rfl
  | cons hP _ ih => rw [List.map_cons, List.map_cons, hf hP, ih]

theorem exists_of_mem {rs : List Routine} (h : Along P p rs bs) {b : β} (hb : b ∈ bs) :
    ∃ q, ∃ r ∈ rs, P q r b := by
  induction h with
  | nil => cases hb
  | @cons p r b' rs bs hP _ ih =>
    rcases List.mem_cons.1 hb with rfl | hb
    · exact ⟨p, r, List.mem_cons_self, hP⟩
    · obtain ⟨q, r', hr', h⟩ := ih hb
      exact ⟨q, r', List.mem_cons_of_mem _ hr', h⟩

theorem exists_right_of_mem (h : Along P p rs bs) {r : Routine} (hr : r ∈ rs) :
    ∃ q, ∃ b ∈ bs, P q r b := by
  induction h with
  | nil => cases hr
  | @cons p r' b rs bs hP _ ih =>
    rcases List.mem_cons.1 hr with rfl | hr
    · exact ⟨p, b, List.mem_cons_self, hP⟩
    · obtain ⟨q, b', hb', h⟩ := ih hr
      exact ⟨q, b', List.mem_cons_of_mem _ hb', h⟩

theorem eq_map {g : β → Routine} (hg : ∀ {q r b}, r ∈ rs → P q r b → r = g b)
    (h : Along P p rs bs) : rs = bs.map g := by
  induction h with
  | nil => rfl
  | cons hP _ ih =>
    rw [List.map_cons, ← hg List.mem_cons_self hP,
      ← ih fun hr hP => hg (List.mem_cons_of_mem _ hr) hP]

theorem jumpMarkers_eq {P : Int → Routine → Routine → Prop} {rs' : List Routine}
    (hsize : ∀ {p r r'}, P p r r' → r'.size = r.size)
    (hmarks : ∀ {p r r'}, P p r r' → r'.marksFrom Instr.jumpId? p = r.marksFrom Instr.jumpId? p)
    (h : Along P p rs rs') : Jumps.markers p rs' = Jumps.markers p rs := by
  induction h with
  | nil => rfl
  | cons hP _ ih =>
    rw [Jumps.markers, Jumps.markers, ← Routine.marksFrom_jumpId?, ← Routine.marksFrom_jumpId?,
      hmarks hP, hsize hP, ih]

theorem ids_eq {P : Int → Routine → Routine → Prop} {pick : Instr → Option UInt32} {rs' : List Routine}
    (hids : ∀ {p r r'}, P p r r' → r'.filterMap pick = r.filterMap pick) (h : Along P p rs rs') :
    Routine.ids pick rs' = Routine.ids pick rs := by
  unfold Routine.ids
  induction h with
  | nil => rfl
  | cons hP _ ih => rw [List.flatMap_cons, List.flatMap_cons, hids hP, ih]

theorem sublist_ids {P : Int → Routine → Routine → Prop} {pick : Instr → Option UInt32}
    {rs' : List Routine}
    (hids : ∀ {p r r'}, P p r r' → (r'.filterMap pick).Sublist (r.filterMap pick))
    (h : Along P p rs rs') : (Routine.ids pick rs').Sublist (Routine.ids pick rs) := by
  unfold Routine.ids
  induction h with
  | nil => exact List.Sublist.refl _
  | cons hP _ ih =>
    rw [List.flatMap_cons, List.flatMap_cons]
    exact (hids hP).append ih

end Along

end ScriptImage
