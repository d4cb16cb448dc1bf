import ScriptImage.Proofs.BranchPasses
import ScriptImage.Proofs.InliningPasses
import ScriptImage.Proofs.JumpPasses
import ScriptImage.Pass

/-!
# What a removing pass does to an image

A pass that removes symbolic operands takes what it needs into its part of the header
(`Subject.Takes`), lowers its instructions against the header that results, drops its
markers, and leaves everything else (`Image.Cleared`).  It succeeds exactly if that can be
done, and then there is one way to do it:

    (Pass.remove s).apply image = .ok (n, image') ↔ image.Cleared s n image'
-/

namespace ScriptImage

open Jumps (isMarker)

variable {s t : Subject}

/-! ## The part of the header that a pass is about -/

namespace Header

/-- The header with the part that a pass is about taken from another one. -/
def adopt (h : Header) (s : Subject) (h' : Header) : Header :=
  match s with
  | .strings => { h with strings := h'.strings }
  | .symbols => { h with symbols := h'.symbols }
  | .globals => { h with globals := h'.globals }
  | .classes => { h with classes := h'.classes }
  | .branches => h
  | .jumps => h

@[simp]
theorem adopt_self (h : Header) (s : Subject) : h.adopt s h = h := by
  cases s <;> rfl

/-- Different parts can be taken over in either order. -/
theorem adopt_comm (hst : s ≠ t) (h h₁ h₂ : Header) :
    (h.adopt t h₁).adopt s h₂ = (h.adopt s h₂).adopt t h₁ := by
  cases s <;> cases t <;> first | rfl | exact absurd rfl hst

@[simp]
theorem adopt_adopt (h h₁ h₂ : Header) (s : Subject) : h.adopt s (h₁.adopt s h₂) = h.adopt s h₂ := by
  cases s <;> rfl

theorem adopt_adopt_of_ne (hst : s ≠ t) (h h₁ h₂ : Header) :
    h.adopt t (h₁.adopt s h₂) = h.adopt t h₁ := by
  cases s <;> cases t <;> first | rfl | exact absurd rfl hst

theorem pool_adopt_of_ne {kind : PoolKind} (hs : kind.subject ≠ s) (h h' : Header) :
    (h.adopt s h').pool kind = h.pool kind := by
  cases s <;> cases kind <;> first | rfl | exact absurd rfl hs

def withPool (h : Header) (kind : PoolKind) (pool : StringPool) : Header :=
  match kind with
  | .strings => { h with strings := pool }
  | .symbols => { h with symbols := pool }
  | .globals => { h with globals := pool }

@[simp]
theorem pool_withPool (h : Header) (kind : PoolKind) (pool : StringPool) :
    (h.withPool kind pool).pool kind = pool := by
  cases kind <;> rfl

/-- The part of a pass on a pool is that pool. -/
theorem adopt_subject (h : Header) (kind : PoolKind) (h' : Header) :
    h.adopt kind.subject h' = h.withPool kind (h'.pool kind) := by
  cases kind <;> rfl

theorem adopt_withPool (h : Header) (kind : PoolKind) (pool : StringPool) :
    h.adopt kind.subject (h.withPool kind pool) = h.withPool kind pool := by
  cases kind <;> rfl

end Header

def Frame.withHeader (F : Frame) (h : Header) : Frame :=
  { F with header := h }

namespace Frame

variable {F F' F'' : Frame}

theorem Agrees.symm (h : Agrees s F F') : Agrees s F' F := by
  cases s with
  | strings => exact Eq.symm h
  | symbols => exact Eq.symm h
  | globals => exact Eq.symm h
  | classes => exact Eq.symm h
  | branches => exact ⟨h.1.symm, h.2.1.symm, h.2.2.symm⟩
  | jumps => exact ⟨h.1.symm, h.2.symm⟩

theorem Agrees.trans (h : Agrees s F F') (h' : Agrees s F' F'') : Agrees s F F'' := by
  cases s with
  | strings => exact Eq.trans h' h
  | symbols => exact Eq.trans h' h
  | globals => exact Eq.trans h' h
  | classes => exact Eq.trans h' h
  | branches => exact ⟨h'.1.trans h.1, h'.2.1.trans h.2.1, h'.2.2.trans h.2.2⟩
  | jumps => exact ⟨h'.1.trans h.1, h'.2.trans h.2⟩

/-- Taking over the part of a pass is all that its instructions see of a header. -/
theorem agrees_adopt (h h' : Header) :
    Agrees s (F.withHeader h') (F.withHeader (h.adopt s h')) := by
  cases s <;> first | rfl | exact ⟨rfl, rfl⟩ | exact ⟨rfl, rfl, rfl⟩

/-- Instructions do not see the part of another pass. -/
theorem agrees_adopt_of_ne (hst : s ≠ t) (h h' : Header) :
    Agrees s (F.withHeader (h.adopt t h')) (F.withHeader h) := by
  cases s <;> cases t <;>
    first | rfl | exact ⟨rfl, rfl⟩ | exact ⟨rfl, rfl, rfl⟩ | exact absurd rfl hst

/-- Frames that agree on positions and markers agree with a common header. -/
theorem Agrees.withHeader (h : Agrees s F F') (header : Header) :
    Agrees s (F.withHeader header) (F'.withHeader header) := by
  cases s <;> first | rfl | exact h

end Frame

/-! ## What a pass takes in -/

/-- What a removing pass asks for, and what becomes of its part of the header: texts are taken into
their pool, class names must not be ambiguous, and no identifier of a marker may come twice. -/
def Subject.Takes (s : Subject) (rs : List Routine) (h h' : Header) : Prop :=
  match s with
  | .strings => h.strings.intern (Inlining.texts .strings rs) = .ok h'.strings
  | .symbols => h.symbols.intern (Inlining.texts .symbols rs) = .ok h'.symbols
  | .globals => h.globals.intern (Inlining.texts .globals rs) = .ok h'.globals
  | .classes => h'.classes = h.classes ∧ ∀ r ∈ rs, ∀ name : Name,
      .symbolic (.newObjectNamed name) ∈ r → h.classes.occurrences name.bytes ≤ 1
  | .branches => (Routine.ids Instr.branchId? rs).Nodup
  | .jumps => (Routine.ids Instr.jumpId? rs).Nodup

/-- What is collected from the instructions of one pass. -/
theorem Routine.flatMap_filterMap_about {γ : Type} {f : Instr → Option γ}
    (hf : ∀ i, i.subject? ≠ some s → f i = none) (rs : List Routine) :
    (rs.flatMap fun r => r.filterMap f) = (about s rs).filterMap f := by
  have hroutine : ∀ r : Routine, (r.filter fun i => i.subject? = some s).filterMap f = r.filterMap f := by
    intro r
    rw [List.filterMap_filter]
    refine List.filterMap_congr fun i _ => ?_
    by_cases hi : i.subject? = some s
    · rw [if_pos (decide_eq_true hi)]
    · rw [if_neg (by simpa using hi), hf i hi]
  rw [about, List.filterMap_flatMap]
  simp only [hroutine]

theorem Routine.mem_about {i : Instr} (hi : i.subject? = some s) {rs : List Routine} :
    i ∈ about s rs ↔ ∃ r ∈ rs, i ∈ r := by
  unfold about
  simp only [List.mem_flatMap, List.mem_filter, decide_eq_true_eq, hi, and_true]

namespace Subject

variable {rs rs' : List Routine} {h h' : Header}

theorem takes_pool {kind : PoolKind} :
    kind.subject.Takes rs h h' ↔
      (h.pool kind).intern (Inlining.texts kind rs) = .ok (h'.pool kind) := by
  cases kind <;> exact Iff.rfl

/-- A pass takes in only what its own instructions hold. -/
theorem takes_congr (habout : Routine.about s rs' = Routine.about s rs) :
    s.Takes rs' h h' ↔ s.Takes rs h h' := by
  have htexts : ∀ kind : PoolKind, kind.subject = s → Inlining.texts kind rs' = Inlining.texts kind rs := by
    rintro kind rfl
    unfold Inlining.texts
    rw [Routine.flatMap_filterMap_about fun i hi => Inlining.text?_of_ne hi, habout,
      ← Routine.flatMap_filterMap_about fun i hi => Inlining.text?_of_ne hi]
  cases s with
  | strings => rw [Takes, Takes, htexts .strings rfl]
  | symbols => rw [Takes, Takes, htexts .symbols rfl]
  | globals => rw [Takes, Takes, htexts .globals rfl]
  | classes =>
    refine and_congr_right fun _ => ?_
    have hmem : ∀ name : Name, (∃ r ∈ rs', Instr.symbolic (.newObjectNamed name) ∈ r) ↔
        ∃ r ∈ rs, Instr.symbolic (.newObjectNamed name) ∈ r := by
      intro name
      rw [← Routine.mem_about (s := .classes) rfl, habout, Routine.mem_about rfl]
    constructor
    · intro hunique r hr name hname
      obtain ⟨r', hr', hname'⟩ := (hmem name).2 ⟨r, hr, hname⟩
      exact hunique r' hr' name hname'
    · intro hunique r hr name hname
      obtain ⟨r', hr', hname'⟩ := (hmem name).1 ⟨r, hr, hname⟩
      exact hunique r' hr' name hname'
  | branches =>
    rw [Takes, Takes, Routine.ids, Routine.ids,
      Routine.flatMap_filterMap_about fun i hi => Image.branchId?_eq_none hi, habout,
      ← Routine.flatMap_filterMap_about fun i hi => Image.branchId?_eq_none hi]
  | jumps =>
    rw [Takes, Takes, Routine.ids, Routine.ids,
      Routine.flatMap_filterMap_about fun i hi => Image.jumpId?_eq_none hi, habout,
      ← Routine.flatMap_filterMap_about fun i hi => Image.jumpId?_eq_none hi]

/-- A pass does not look at the part of another one. -/
theorem takes_adopt_left (hst : s ≠ t) (g : Header) :
    s.Takes rs (h.adopt t g) h' ↔ s.Takes rs h h' := by
  cases s <;> cases t <;> first | exact Iff.rfl | exact absurd rfl hst

theorem takes_adopt_right (g : Header) : s.Takes rs h (g.adopt s h') ↔ s.Takes rs h h' := by
  cases s <;> exact Iff.rfl

theorem takes_adopt_right_of_ne (hst : s ≠ t) (g : Header) :
    s.Takes rs h (h'.adopt t g) ↔ s.Takes rs h h' := by
  cases s <;> cases t <;> first | exact Iff.rfl | exact absurd rfl hst

end Subject

/-! ## Cleared images -/

namespace Image

/-- Of two images the second has the symbolic instructions of a pass lowered, and the texts that they
held taken into the header. -/
structure Cleared (s : Subject) (image : Image) (n : Nat) (image' : Image) : Prop where
  takes : s.Takes image.code.routines image.header image'.header
  count : n = Routine.remaining s image.code.routines
  header : image'.header = image.header.adopt s image'.header
  same : image' = { image.withRoutines image'.code.routines with header := image'.header }
  lowered : Along (fun start r r' => r.Lowered s ((image.frame start r).withHeader image'.header) start r')
    image.code.base.toNat image.code.routines image'.code.routines

end Image

namespace Pass

variable {image image' : Image} {n : Nat}

/-- A pass that takes texts into a pool. -/
theorem cleared_iff_of_pool (kind : PoolKind) :
    (Inlining.remove kind (image.header.pool kind) image.code.routines).map (fun x =>
        (x.2.1, ({ image.withRoutines x.2.2 with header := image.header.withPool kind x.1 } : Image))) =
      .ok (n, image') ↔ image.Cleared kind.subject n image' := by
  have hremove : ∀ {h' : Header} {rs' : List Routine},
      Inlining.remove kind (image.header.pool kind) image.code.routines = .ok (h'.pool kind, n, rs') ↔
        kind.subject.Takes image.code.routines image.header h' ∧
          n = Routine.remaining kind.subject image.code.routines ∧
          Along (fun start r r' => r.Lowered kind.subject ((image.frame start r).withHeader h') start r')
            image.code.base.toNat image.code.routines rs' := by
    intro h' rs'
    have hpool : ∀ start r, ((image.frame start r).withHeader h').header.pool kind = h'.pool kind :=
      fun _ _ => rfl
    rw [Subject.takes_pool]
    exact Inlining.remove_eq_ok_iff hpool _
  rw [Run.except_map_eq_ok_iff]
  constructor
  · rintro ⟨⟨pool', n', rs'⟩, hrun, heq⟩
    cases heq
    rw [← Header.pool_withPool image.header kind pool'] at hrun
    obtain ⟨htakes, hcount, hlowered⟩ := hremove.1 hrun
    exact ⟨htakes, hcount, (Header.adopt_withPool _ _ _).symm, rfl, hlowered⟩
  · intro h
    refine ⟨_, hremove.2 ⟨h.takes, h.count, h.lowered⟩, ?_⟩
    rw [← Header.adopt_subject, ← h.header]
    exact congrArg (Prod.mk n) h.same

/-- A pass that leaves the header. -/
theorem cleared_iff_of_check {result : Except Error (Nat × List Routine)}
    (hheader : ∀ h', s.Takes image.code.routines image.header h' → image.header.adopt s h' = image.header)
    (hresult : ∀ rs', result = .ok (n, rs') ↔ s.Takes image.code.routines image.header image.header ∧
      n = Routine.remaining s image.code.routines ∧
      Along (fun start r r' => r.Lowered s (image.frame start r) start r') image.code.base.toNat
        image.code.routines rs') :
    result.map (fun x => (x.1, image.withRoutines x.2)) = .ok (n, image') ↔ image.Cleared s n image' := by
  rw [Run.except_map_eq_ok_iff]
  constructor
  · rintro ⟨⟨n', rs'⟩, hrun, heq⟩
    cases heq
    obtain ⟨htakes, hcount, hlowered⟩ := (hresult rs').1 hrun
    exact ⟨htakes, hcount, (Header.adopt_self _ _).symm, rfl, hlowered⟩
  · intro h
    have hkept : image'.header = image.header := h.header.trans (hheader _ h.takes)
    have hsame := h.same
    have htakes := h.takes
    have hlowered := h.lowered
    rw [hkept] at hsame htakes hlowered
    exact ⟨_, (hresult _).2 ⟨htakes, h.count, hlowered⟩, congrArg (Prod.mk n) hsame⟩

/-- **Removing passes.** A pass that removes symbolic operands succeeds exactly if it can take in what
it needs and lower all its instructions, and then does that. -/
theorem apply_remove_eq_ok_iff : (Pass.remove s).apply image = .ok (n, image') ↔ image.Cleared s n image' := by
  cases s with
  | strings => exact cleared_iff_of_pool .strings
  | symbols => exact cleared_iff_of_pool .symbols
  | globals => exact cleared_iff_of_pool .globals
  | classes =>
    refine cleared_iff_of_check (fun h' htakes => ?_) fun rs' => ?_
    · show { image.header with classes := h'.classes } = image.header
      rw [htakes.1]
    · have hclasses : ∀ start r, (image.frame start r).header.classes = image.header.classes :=
        fun _ _ => rfl
      rw [ClassNames.remove_eq_ok_iff hclasses image.code.base.toNat]
      exact and_congr_left' ⟨fun h => ⟨rfl, h⟩, fun h => h.2⟩
  | branches =>
    refine cleared_iff_of_check (fun _ _ => rfl) fun rs' => ?_
    exact Branches.remove_eq_ok_iff (Branches.framed image) _
  | jumps =>
    refine cleared_iff_of_check (fun _ _ => rfl) fun rs' => ?_
    exact Jumps.remove_eq_ok_iff (fun _ _ => rfl) fun _ _ => by rw [Targets.layout_finish]; rfl

end Pass

/-! ## Code that stands for something -/

namespace Image

variable {image : Image} {code : List (List Op)}

/-- Code that stands for something holds all that a pass takes in, if class names are not ambiguous. -/
theorem StandsFor.takes (hstands : image.StandsFor code)
    (hunique : s = .classes → ∀ r ∈ image.code.routines, ∀ name : Name,
      .symbolic (.newObjectNamed name) ∈ r → image.header.classes.occurrences name.bytes ≤ 1) :
    s.Takes image.code.routines image.header image.header := by
  have hpool : ∀ kind : PoolKind,
      kind.subject.Takes image.code.routines image.header image.header := by
    intro kind
    rw [Subject.takes_pool]
    refine StringPool.intern_of_found fun text htext => ?_
    obtain ⟨r, hr, htext⟩ := List.mem_flatMap.1 htext
    obtain ⟨i, hi, htext⟩ := List.mem_filterMap.1 htext
    obtain ⟨p, os, -, hmeans⟩ := hstands.means.exists_right_of_mem hr
    obtain ⟨_, _, o, ho⟩ := hmeans.exists_denotes hi (Inlining.isMarker_of_text? htext)
    exact Inlining.indexOf?_of_denotes ho htext
  cases s with
  | strings => exact hpool .strings
  | symbols => exact hpool .symbols
  | globals => exact hpool .globals
  | classes => exact ⟨rfl, hunique rfl⟩
  | branches => exact hstands.branchIds
  | jumps => exact hstands.jumpIds

/-- So a removing pass clears it and leaves the header. -/
theorem StandsFor.exists_cleared (hstands : image.StandsFor code)
    (hunique : s = .classes → ∀ r ∈ image.code.routines, ∀ name : Name,
      .symbolic (.newObjectNamed name) ∈ r → image.header.classes.occurrences name.bytes ≤ 1) :
    ∃ n rs', image.Cleared s n (image.withRoutines rs') ∧ Lowered s image (image.withRoutines rs') := by
  obtain ⟨rs', hlowered⟩ := hstands.means.exists_right fun h => h.exists_lowered s
  exact ⟨_, rs', ⟨hstands.takes hunique, rfl, (Header.adopt_self _ _).symm, rfl, hlowered⟩, rfl, hlowered⟩

end Image

end ScriptImage
