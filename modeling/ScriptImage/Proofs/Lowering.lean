import ScriptImage.Proofs.Meaning

/-!
# Lowering one family at a time

A removing pass touches the instructions of its own family only, and what these stand for
depends only on a part of what is around: their pool, the class table, or the markers of
their family and the layout (`Frame.Agrees`).  So the passes of two families do not see each
other, and routines that are lowered for one and then for the other can be lowered in the
opposite order:

    r.Lowered t G p r₁ → r₁.Lowered s F p r₂ → ∃ r₁', r.Lowered s F p r₁' ∧ r₁'.Lowered t G p r₂

The lowered routine is determined by the routine (`Lowered.unique`), and a pass leaves the
instructions of all other families as they are (`Lowered.filter_of_ne`).
-/

namespace ScriptImage

open Jumps (isMarker)

variable {s t : Subject} {F F' G : Frame} {p : Int} {b : Bool} {i i' : Instr} {o : Op}

/-! ## What a family can refer to -/

/-- Two frames agree on what the instructions of a pass can refer to. -/
def Frame.Agrees (s : Subject) (F F' : Frame) : Prop :=
  match s with
  | .strings => F'.header.strings = F.header.strings
  | .symbols => F'.header.symbols = F.header.symbols
  | .globals => F'.header.globals = F.header.globals
  | .classes => F'.header.classes = F.header.classes
  | .branches => F'.start = F.start ∧ F'.size = F.size ∧ F'.branches = F.branches
  | .jumps => F'.finish = F.finish ∧ F'.jumps = F.jumps

theorem Frame.Agrees.pool {kind : PoolKind} (h : Frame.Agrees kind.subject F F') :
    F'.header.pool kind = F.header.pool kind := by
  cases kind with
  | strings => exact h
  | symbols => exact h
  | globals => exact h

/-- What an instruction stands for depends only on what its family can refer to. -/
theorem Denotes.congr (h : Denotes F p b i o) (hi : i.subject? = some s) (hF : Frame.Agrees s F F') :
    Denotes F' p b i o := by
  cases h with
  | op => exact Denotes.op _
  | jump hs hfeeds hmark hend hd =>
    subst hs
    cases hi
    obtain ⟨hfinish, hjumps⟩ := hF
    rw [← hfinish] at hend
    rw [← hjumps] at hmark
    exact Denotes.jump rfl hfeeds hmark hend hd
  | branch hs hmark hend hd =>
    obtain rfl : Subject.branches = s :=
      (Symbolic.subject_of_branch? hs).symm.trans (Option.some.inj hi)
    obtain ⟨hstart, hsize, hbranches⟩ := hF
    rw [← hsize] at hend
    rw [← hstart] at hd
    rw [← hbranches] at hmark
    exact Denotes.branch hs hmark hend hd
  | @entry _ rule _ _ _ _ _ _ hrule hkind hargs hindex hraw hcode hoperands =>
    have hsubject := (Inlining.rule_spec hrule).2.2
    rw [← hkind, Option.some.inj hi] at hsubject
    subst hsubject
    rw [← hF.pool] at hindex
    exact Denotes.entry hrule hkind hargs hindex hraw hcode hoperands
  | newObject hs hindex hwidth =>
    subst hs
    cases hi
    have hclasses : F'.header.classes = F.header.classes := hF
    rw [← hclasses] at hindex
    exact Denotes.newObject rfl hindex hwidth

theorem lowering_congr (hF : Frame.Agrees s F F') (h : lowering s F p b i i') :
    lowering s F' p b i i' := by
  rcases h with hkept | ⟨hi, o, ho, rfl⟩
  · exact Or.inl hkept
  · exact Or.inr ⟨hi, o, ho.congr hi hF, rfl⟩

theorem lowering_unique {j j' : Instr} (h : lowering s F p b i j) (h' : lowering s F p b i j') :
    j = j' := by
  rcases h with ⟨hi, rfl⟩ | ⟨hi, o, ho, rfl⟩
  · rcases h' with ⟨-, rfl⟩ | ⟨hi', -⟩
    · rfl
    · exact absurd hi' hi
  · rcases h' with ⟨hi', -⟩ | ⟨-, o', ho', rfl⟩
    · exact absurd hi hi'
    · rw [ho.unique ho']

/-- Instructions of other families are kept. -/
theorem lowering_of_ne (hi : i.subject? ≠ some s) : lowering s F p b i i' ↔ i' = i := by
  constructor
  · rintro (⟨-, h⟩ | ⟨hi', -⟩)
    · exact h
    · exact absurd hi' hi
  · exact fun h => Or.inl ⟨hi, h⟩

/-! ## Dropping markers -/

namespace Respelled

variable {step : Spelling} {gone : Instr → Prop} {r r' r'' : Routine}

/-! A respelling that adds no markers follows the routine. -/

theorem nil_iff : Respelled step gone (fun _ => False) p [] r' ↔ r' = [] := by
  constructor
  · intro h
    cases h with
    | nil => rfl
    | insert _ hf _ => exact hf.elim
  · rintro rfl
    exact nil

theorem marker_iff {m : Instr} (hm : isMarker m = true) :
    Respelled step gone (fun _ => False) p (m :: r) r' ↔
      (gone m ∧ Respelled step gone (fun _ => False) p r r') ∨
        (¬gone m ∧ ∃ r₁, Respelled step gone (fun _ => False) p r r₁ ∧ r' = m :: r₁) := by
  constructor
  · intro h
    cases h with
    | keep _ hkept h => exact Or.inr ⟨hkept, _, h, rfl⟩
    | drop _ hg h => exact Or.inl ⟨hg, h⟩
    | insert _ hf _ => exact hf.elim
    | instr hi _ _ =>
      rw [hm] at hi
      cases hi
  · rintro (⟨hg, h⟩ | ⟨hkept, r₁, h, rfl⟩)
    · exact drop hm hg h
    · exact keep hm hkept h

theorem instr_iff {i : Instr} (hi : isMarker i = false) :
    Respelled step gone (fun _ => False) p (i :: r) r' ↔
      ∃ i' r₁, step p r.feedsJump i i' ∧ Respelled step gone (fun _ => False) (p + i.size) r r₁ ∧
        r' = i' :: r₁ := by
  constructor
  · intro h
    cases h with
    | keep hm _ _ =>
      rw [hi] at hm
      cases hm
    | drop hm _ _ =>
      rw [hi] at hm
      cases hm
    | insert _ hf _ => exact hf.elim
    | instr _ hs h => exact ⟨_, _, hs, h, rfl⟩
  · rintro ⟨i', r₁, hs, h, rfl⟩
    exact instr hi hs h

/-- A spelling that leaves no choice makes the routine unique. -/
theorem unique (hstep : ∀ {q b i j j'}, step q b i j → step q b i j' → j = j')
    (h : Respelled step gone (fun _ => False) p r r') (h' : Respelled step gone (fun _ => False) p r r'') :
    r' = r'' := by
  induction h generalizing r'' with
  | nil => exact (nil_iff.1 h').symm
  | keep hm hkept _ ih =>
    rcases (marker_iff hm).1 h' with ⟨hg, -⟩ | ⟨-, r₁, hrest, rfl⟩
    · exact absurd hg hkept
    · rw [ih hrest]
  | drop hm hg _ ih =>
    rcases (marker_iff hm).1 h' with ⟨-, h'⟩ | ⟨hkept, -⟩
    · exact ih h'
    · exact absurd hg hkept
  | insert _ hf _ _ => exact hf.elim
  | instr hi hs _ ih =>
    obtain ⟨i', r₁, hs', hrest, rfl⟩ := (instr_iff hi).1 h'
    rw [hstep hs hs', ih hrest]

/-- Dropping markers while spelling is spelling and then dropping them. -/
theorem filter_iff {drops : Instr → Bool} (hstep : step.Faithful)
    (hdrops : ∀ i, drops i = true → isMarker i = true)
    (hgone : ∀ {m}, isMarker m = true → (drops m = true ↔ gone m)) :
    Respelled step gone (fun _ => False) p r r' ↔
      ∃ r₁, Respelled step (fun _ => False) (fun _ => False) p r r₁ ∧
        r' = r₁.filter fun i => !drops i := by
  constructor
  · intro h
    induction h with
    | nil => exact ⟨[], Respelled.nil, rfl⟩
    | @keep p m _ _ hm hkept _ ih =>
      obtain ⟨r₁, h₁, rfl⟩ := ih
      refine ⟨m :: r₁, Respelled.keep hm (fun hf => hf) h₁, ?_⟩
      rw [List.filter_cons_of_pos (by simpa using fun hd => hkept ((hgone hm).1 hd))]
    | @drop p m _ _ hm hg _ ih =>
      obtain ⟨r₁, h₁, rfl⟩ := ih
      refine ⟨m :: r₁, Respelled.keep hm (fun hf => hf) h₁, ?_⟩
      rw [List.filter_cons_of_neg (by simpa using (hgone hm).2 hg)]
    | insert _ hf _ _ => exact hf.elim
    | @instr p i i' _ _ hi hs _ ih =>
      obtain ⟨r₁, h₁, rfl⟩ := ih
      refine ⟨i' :: r₁, Respelled.instr hi hs h₁, ?_⟩
      have hmarker := hstep.marker hi hs
      rw [List.filter_cons_of_pos]
      cases hd : drops i' with
      | false => rfl
      | true =>
        rw [hdrops i' hd] at hmarker
        cases hmarker
  · rintro ⟨r₁, h₁, rfl⟩
    exact (h₁.filter hstep hdrops (fun _ hf => hf.elim)).mono (fun _ hs => hs) hgone (fun _ hf => hf)

end Respelled

/-! ## Lowered routines -/

namespace Routine

/-- The second routine has the instructions of a pass lowered and the markers of the pass dropped. -/
def Lowered (s : Subject) (F : Frame) (p : Int) (r r' : Routine) : Prop :=
  Respelled (lowering s F) (fun m => m.subject? = some s) (fun _ => False) p r r'

/-- The instructions of routines that belong to a pass, in order. -/
def about (s : Subject) (rs : List Routine) : List Instr :=
  rs.flatMap fun r => r.filter fun i => i.subject? = some s

/-- How many instructions of routines a pass that removes symbolic operands has to change. -/
def remaining (s : Subject) (rs : List Routine) : Nat :=
  (about s rs).countP fun i => !isMarker i

theorem remaining_cons (s : Subject) (r : Routine) (rs : List Routine) :
    remaining s (r :: rs) = remaining s [r] + remaining s rs := by
  simp only [remaining, about, List.flatMap_cons, List.flatMap_nil, List.append_nil, List.countP_append]

theorem remaining_marker {s : Subject} {m : Instr} (hm : isMarker m = true) (r : Routine) :
    remaining s [m :: r] = remaining s [r] := by
  simp only [remaining, about, List.flatMap_cons, List.flatMap_nil, List.append_nil, List.filter_cons]
  split
  · rw [List.countP_cons_of_neg (by simp [hm])]
  · rfl

theorem remaining_instr {s : Subject} {i : Instr} (hi : isMarker i = false) (r : Routine) :
    remaining s [i :: r] = if i.subject? = some s then remaining s [r] + 1 else remaining s [r] := by
  simp only [remaining, about, List.flatMap_cons, List.flatMap_nil, List.append_nil, List.filter_cons,
    decide_eq_true_eq]
  split
  · rw [List.countP_cons_of_pos (by simp [hi])]
  · rfl

namespace Lowered

variable {r r' r₁ r₂ : Routine}

theorem size (h : r.Lowered s F p r') : r'.size = r.size :=
  Respelled.size (lowering_faithful s F) h

theorem unique (h : r.Lowered s F p r₁) (h' : r.Lowered s F p r₂) : r₁ = r₂ := by
  refine @Respelled.unique p (lowering s F) _ _ _ _ ?_ h h'
  intro q b i j j'
  exact lowering_unique

theorem congr (hF : Frame.Agrees s F F') (h : r.Lowered s F p r') : r.Lowered s F' p r' :=
  Respelled.mono (fun _ hs => lowering_congr hF hs) (fun _ => Iff.rfl) (fun _ hf => hf) h

/-- Markers of another family stay where they are. -/
theorem marksFrom {pick : Instr → Option UInt32} (hpick : PicksMarkers pick)
    (hgone : ∀ m, m.subject? = some s → pick m = none) (q : Int) (h : r.Lowered s F p r') :
    r'.marksFrom pick q = r.marksFrom pick q :=
  Respelled.marksFrom (lowering_faithful s F) hpick hgone (fun _ hf => hf.elim) q h

/-- A pass leaves the instructions of other families. -/
theorem filter_of_ne (hst : s ≠ t) (h : r.Lowered t G p r') :
    (r'.filter fun i => i.subject? = some s) = r.filter fun i => i.subject? = some s := by
  have hdrop : ∀ {i : Instr} {r : Routine}, i.subject? = some t ∨ i.subject? = none →
      ((i :: r).filter fun i => i.subject? = some s) = r.filter fun i => i.subject? = some s := by
    intro i r hi
    refine List.filter_cons_of_neg ?_
    rw [decide_eq_true_eq]
    rcases hi with hi | hi
    · rw [hi]
      exact fun h => hst (Option.some.inj h).symm
    · rw [hi]
      exact nofun
  unfold Lowered at h
  induction h with
  | nil => rfl
  | keep _ _ _ ih => rw [List.filter_cons, List.filter_cons, ih]
  | drop _ hg _ ih => rw [hdrop (Or.inl hg), ih]
  | insert _ hf _ _ => exact hf.elim
  | instr _ hs _ ih =>
    rcases hs with ⟨-, rfl⟩ | ⟨hi, o, -, rfl⟩
    · rw [List.filter_cons, List.filter_cons, ih]
    · rw [hdrop (Or.inl hi), hdrop (Or.inr rfl), ih]

/-- Two families can be lowered in either order. -/
theorem swap (hst : s ≠ t) (h₁ : r.Lowered t G p r₁) (h₂ : r₁.Lowered s F p r₂) :
    ∃ r₁', r.Lowered s F p r₁' ∧ r₁'.Lowered t G p r₂ := by
  unfold Lowered at h₁ h₂ ⊢
  induction h₁ generalizing r₂ with
  | nil =>
    obtain rfl := Respelled.nil_iff.1 h₂
    exact ⟨[], Respelled.nil, Respelled.nil⟩
  | @keep p m r r₁ hm hkept _ ih =>
    rcases (Respelled.marker_iff hm).1 h₂ with ⟨hg, hrest⟩ | ⟨hkept', r₂, hrest, rfl⟩
    · obtain ⟨r₁', h, h'⟩ := ih hrest
      exact ⟨r₁', Respelled.drop hm hg h, h'⟩
    · obtain ⟨r₁', h, h'⟩ := ih hrest
      exact ⟨m :: r₁', Respelled.keep hm hkept' h, Respelled.keep hm hkept h'⟩
  | @drop p m r r₁ hm hg _ ih =>
    obtain ⟨r₁', h, h'⟩ := ih h₂
    have hkept : ¬m.subject? = some s := by
      rw [hg]
      exact fun h => hst (Option.some.inj h).symm
    exact ⟨m :: r₁', Respelled.keep hm hkept h, Respelled.drop hm hg h'⟩
  | insert _ hf _ _ => exact hf.elim
  | @instr p i i₁ r r₁ hi hs hrest ih =>
    have hi₁ := (lowering_faithful t G).marker hi hs
    obtain ⟨i₂, r₂, hs₂, hrest₂, rfl⟩ := (Respelled.instr_iff hi₁).1 h₂
    rw [hrest.feedsJump (lowering_faithful t G)] at hs₂
    rw [(lowering_faithful t G).size hs] at hrest₂
    obtain ⟨r₁', h, h'⟩ := ih hrest₂
    rcases hs with ⟨hne, rfl⟩ | ⟨hsubject, o, ho, rfl⟩
    · -- the first pass leaves the instruction, and leaves what the second makes of it
      have hleft : i₂.subject? ≠ some t := by
        rcases hs₂ with ⟨-, rfl⟩ | ⟨-, o, -, rfl⟩
        · exact hne
        · exact nofun
      refine ⟨i₂ :: r₁', Respelled.instr hi hs₂ h,
        Respelled.instr ((lowering_faithful s F).marker hi hs₂) (Or.inl ⟨hleft, rfl⟩) ?_⟩
      rw [(lowering_faithful s F).size hs₂]
      exact h'
    · -- the second pass leaves what the first makes of the instruction
      have hne : i.subject? ≠ some s := by
        rw [hsubject]
        exact fun h => hst (Option.some.inj h).symm
      obtain rfl := (lowering_of_ne (i := .op o) nofun).1 hs₂
      refine ⟨i :: r₁', Respelled.instr hi (Or.inl ⟨hne, rfl⟩) h, Respelled.instr hi ?_ h'⟩
      rw [h.feedsJump (lowering_faithful s F)]
      exact Or.inr ⟨hsubject, o, ho, rfl⟩

/-- A family without markers has none to drop. -/
theorem iff_of_unmarked (hj : s ≠ .jumps) (hb : s ≠ .branches) :
    r.Lowered s F p r' ↔
      Respelled (lowering s F) (fun _ => False) (fun _ => False) p r r' := by
  have hgone : ∀ {m}, isMarker m = true → ¬m.subject? = some s := by
    intro m hm
    obtain ⟨id, rfl | rfl⟩ := isMarker_iff.1 hm
    · exact fun h => hj (Option.some.inj h).symm
    · exact fun h => hb (Option.some.inj h).symm
  constructor
  · intro h
    exact h.mono (fun _ hs => hs) (fun hm => iff_of_false (hgone hm) id) (fun _ hf => hf)
  · intro h
    exact h.mono (fun _ hs => hs) (fun hm => iff_of_false id (hgone hm)) (fun _ hf => hf)

end Lowered

end Routine

/-- A routine that stands for something can be lowered. -/
theorem Means.exists_lowered {r : Routine} {os : List Op} (s : Subject) (h : Means F p r os) :
    ∃ r', r.Lowered s F p r' := by
  unfold Routine.Lowered
  induction h with
  | nil => exact ⟨[], Respelled.nil⟩
  | @mark p m r os hm _ ih =>
    obtain ⟨r', h⟩ := ih
    by_cases hg : m.subject? = some s
    · exact ⟨r', Respelled.drop hm hg h⟩
    · exact ⟨m :: r', Respelled.keep hm hg h⟩
  | @instr p i r o os hi _ ih =>
    obtain ⟨r', h⟩ := ih
    by_cases hs : i.subject? = some s
    · exact ⟨.op o :: r', Respelled.instr hi.isMarker (Or.inr ⟨hs, o, hi, rfl⟩) h⟩
    · exact ⟨i :: r', Respelled.instr hi.isMarker (Or.inl ⟨hs, rfl⟩) h⟩

/-- Every instruction but a marker stands for something in a routine that does. -/
theorem Means.exists_denotes {r : Routine} {os : List Op} (h : Means F p r os) (hi : i ∈ r)
    (hm : isMarker i = false) : ∃ q b o, Denotes F q b i o := by
  induction h with
  | nil => cases hi
  | mark hmark _ ih =>
    rcases List.mem_cons.1 hi with rfl | hi
    · rw [hm] at hmark
      cases hmark
    · exact ih hi
  | instr ho _ ih =>
    rcases List.mem_cons.1 hi with rfl | hi
    · exact ⟨_, _, _, ho⟩
    · exact ih hi

/-! ## Routine by routine -/

namespace Along

variable {β γ : Type} {rs rs₁ rs₂ : List Routine}

theorem exists_right {P : Int → Routine → β → Prop} {Q : Int → Routine → γ → Prop} {bs : List β}
    (hPQ : ∀ {p r b}, P p r b → ∃ c, Q p r c) (h : Along P p rs bs) : ∃ cs, Along Q p rs cs := by
  induction h with
  | nil => exact ⟨[], nil⟩
  | cons hP _ ih =>
    obtain ⟨c, hc⟩ := hPQ hP
    obtain ⟨cs, hcs⟩ := ih
    exact ⟨c :: cs, cons hc hcs⟩

theorem unique {P : Int → Routine → β → Prop} {bs bs' : List β}
    (hP : ∀ {p r b b'}, P p r b → P p r b' → b = b') (h : Along P p rs bs) (h' : Along P p rs bs') :
    bs = bs' := by
  induction h generalizing bs' with
  | nil =>
    cases h'
    rfl
  | cons hb _ ih =>
    cases h' with
    | cons hb' h' => rw [hP hb hb', ih h']

theorem iff {P Q : Int → Routine → β → Prop} {bs : List β} (hPQ : ∀ {p r b}, P p r b ↔ Q p r b) :
    Along P p rs bs ↔ Along Q p rs bs :=
  ⟨imp hPQ.1, imp hPQ.2⟩

/-- Two respellings can be made in either order if they can be for each routine. -/
theorem swap {P Q P' Q' : Int → Routine → Routine → Prop}
    (hP : ∀ {p r r'}, P p r r' → r'.size = r.size) (hQ' : ∀ {p r r'}, Q' p r r' → r'.size = r.size)
    (hswap : ∀ {p r r₁ r₂}, P p r r₁ → Q p r₁ r₂ → ∃ r₁', Q' p r r₁' ∧ P' p r₁' r₂)
    (h₁ : Along P p rs rs₁) (h₂ : Along Q p rs₁ rs₂) :
    ∃ rs₁', Along Q' p rs rs₁' ∧ Along P' p rs₁' rs₂ := by
  induction h₁ generalizing rs₂ with
  | nil =>
    cases h₂
    exact ⟨[], nil, nil⟩
  | cons hr _ ih =>
    cases h₂ with
    | cons hr₂ h₂ =>
      rw [hP hr] at h₂
      obtain ⟨r₁', hr', hr₁'⟩ := hswap hr hr₂
      obtain ⟨rs₁', h, h'⟩ := ih h₂
      refine ⟨r₁' :: rs₁', cons hr' h, cons hr₁' ?_⟩
      rw [hQ' hr']
      exact h'

end Along

end ScriptImage
