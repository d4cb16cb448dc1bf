import ScriptImage.Proofs.Handles
import ScriptImage.Proofs.PassRuns

/-!
# Passes never move code

The footprint of a routine says where its sized instructions lie and how long they are.
Every pass replaces instructions by others of their size, and inserts or deletes markers
only, so footprints stay, and with them everything that is read off the layout:

    Pass.runAll ps image = .ok () image' → image.Unmoved ps image'

Of the header only the pools change, and those only by entries that removing passes add.
Offsets that were current before a run are current after it unless that happened.
-/

namespace ScriptImage

open Jumps (isMarker)

/-! ## Footprints -/

namespace Routine

/-- The positions and sizes of the sized instructions of a routine that begins at `p`. -/
def footprint (p : Nat) (r : Routine) : List (Nat × Nat) :=
  ((r.positionsFrom p).zip (r.map Instr.size)).filter fun x => 0 < x.2

theorem footprint_cons (p : Nat) (i : Instr) (r : Routine) :
    footprint p (i :: r) =
      if 0 < i.size then (p, i.size) :: footprint (p + i.size) r else footprint p r := by
  unfold footprint
  rw [positionsFrom, List.map_cons, List.zip_cons_cons]
  by_cases hi : 0 < i.size
  · rw [List.filter_cons_of_pos (by simpa using hi), if_pos hi]
  · rw [List.filter_cons_of_neg (by simpa using hi), if_neg hi]
    have hp : p + i.size = p := by omega
    rw [hp]

theorem footprint_marker {m : Instr} (hm : isMarker m = true) (p : Nat) (r : Routine) :
    footprint p (m :: r) = footprint p r := by
  rw [footprint_cons, size_eq_zero_of_isMarker hm]
  rfl

/-- A routine is as long as its sized instructions together. -/
theorem size_eq_footprint (p : Nat) (r : Routine) : r.size = ((r.footprint p).map Prod.snd).sum := by
  induction r generalizing p with
  | nil => rfl
  | cons i r ih =>
    rw [size_cons, footprint_cons]
    by_cases hi : 0 < i.size
    · rw [if_pos hi, List.map_cons, List.sum_cons, ← ih]
    · rw [if_neg hi, ← ih]
      omega

end Routine

/-- A respelling that keeps sizes keeps the footprint. -/
theorem Respelled.footprint {step : Spelling} {gone fresh : Instr → Prop} {p : Int} {r r' : Routine}
    (hstep : step.Faithful) (h : Respelled step gone fresh p r r') (q : Nat) :
    r'.footprint q = r.footprint q := by
  induction h generalizing q with
  | nil => rfl
  | keep hm _ _ ih => rw [Routine.footprint_marker hm, Routine.footprint_marker hm, ih]
  | drop hm _ _ ih => rw [Routine.footprint_marker hm, ih]
  | insert hm _ _ ih => rw [Routine.footprint_marker hm, ih]
  | instr _ hs _ ih =>
    rw [Routine.footprint_cons, Routine.footprint_cons, hstep.size hs]
    simp only [ih]

/-! ## Pools that grow -/

namespace StringPool

variable {p p' : StringPool}

theorem size_eq (p : StringPool) :
    p.size = 2 + (p.contents.map fun bytes => p.form.overhead + bytes.length).sum := by
  unfold size contents
  rw [List.map_map]
  rfl

/-- Every entry that is added takes room. -/
theorem size_of_isPrefix (hform : p'.form = p.form) (h : p.contents <+: p'.contents) :
    p.entries.size ≤ p'.entries.size ∧ p.size + (p'.entries.size - p.entries.size) ≤ p'.size ∧
      (p'.entries.size = p.entries.size → p'.size = p.size) := by
  obtain ⟨rest, hrest⟩ := h
  have hlength : p'.entries.size = p.entries.size + rest.length := by
    rw [← length_contents, ← length_contents, ← hrest, List.length_append]
  have hsize : p'.size = p.size + (rest.map fun bytes => p.form.overhead + bytes.length).sum := by
    rw [size_eq, size_eq, hform, ← hrest, List.map_append, List.sum_append]
    omega
  have hroom : 0 < p.form.overhead := by
    obtain ⟨width, terminated⟩ := p.form
    cases width <;> cases terminated <;> decide
  have hlow : rest.length ≤ (rest.map fun bytes => p.form.overhead + bytes.length).sum := by
    clear hrest hlength hsize
    induction rest with
    | nil => exact Nat.le_refl 0
    | cons bytes rest ih =>
      rw [List.map_cons, List.sum_cons, List.length_cons]
      omega
  refine ⟨by omega, by omega, fun hsame => ?_⟩
  have hnil : rest = [] := List.length_eq_zero_iff.1 (by omega)
  rw [hsize, hnil]
  rfl

end StringPool

/-- The second header is the first one with entries added to the pools that removing passes are
about. -/
structure Header.Grown (ps : List Pass) (h h' : Header) : Prop where
  same : h' = { h with strings := h'.strings, symbols := h'.symbols, globals := h'.globals }
  form : ∀ kind, (h'.pool kind).form = (h.pool kind).form
  entries : ∀ kind, (h.pool kind).contents <+: (h'.pool kind).contents
  untouched : ∀ kind, .remove kind.subject ∉ ps → h'.pool kind = h.pool kind

namespace Header.Grown

variable {ps qs : List Pass} {h h' h'' : Header}

theorem refl (ps : List Pass) (h : Header) : h.Grown ps h :=
  ⟨rfl, fun _ => rfl, fun _ => List.prefix_refl _, fun _ _ => rfl⟩

theorem trans (hg : h.Grown ps h') (hg' : h'.Grown qs h'') : h.Grown (ps ++ qs) h'' where
  same := by
    rw [hg'.same, hg.same]
  form := fun kind => (hg'.form kind).trans (hg.form kind)
  entries := fun kind => (hg.entries kind).trans (hg'.entries kind)
  untouched := by
    intro kind hkind
    rw [List.mem_append, not_or] at hkind
    rw [hg'.untouched kind hkind.2, hg.untouched kind hkind.1]

/-- The header takes as much room as before exactly if no pool has got entries. -/
theorem size_eq_iff (hg : h.Grown ps h') :
    h'.size = h.size ↔ ∀ kind, (h'.pool kind).entries.size = (h.pool kind).entries.size := by
  have hpool := fun kind => StringPool.size_of_isPrefix (hg.form kind) (hg.entries kind)
  have hstrings := hpool .strings
  have hsymbols := hpool .symbols
  have hglobals := hpool .globals
  simp only [Header.pool] at hstrings hsymbols hglobals
  have hsize : h'.size + (h.strings.size + h.symbols.size + h.globals.size) =
      h.size + (h'.strings.size + h'.symbols.size + h'.globals.size) := by
    rw [hg.same]
    simp only [Header.size]
    omega
  constructor
  · intro hsame kind
    cases kind <;> simp only [Header.pool] <;> omega
  · intro hsame
    have h₁ := hsame .strings
    have h₂ := hsame .symbols
    have h₃ := hsame .globals
    simp only [Header.pool] at h₁ h₂ h₃
    omega

end Header.Grown

/-! ## Images whose code stays where it is -/

namespace Image

/-- Of two images the second has the code of the first at the same places, and a header that passes
may have let grow. -/
structure Unmoved (ps : List Pass) (image image' : Image) : Prop where
  footprint : ∀ p, image'.code.routines.map (Routine.footprint p) =
    image.code.routines.map (Routine.footprint p)
  header : image.header.Grown ps image'.header
  same : image' = { image.withRoutines image'.code.routines with header := image'.header }

theorem firstStale?_congr {rs rs' : List Routine} (h : rs'.map Routine.size = rs.map Routine.size)
    (k p : Nat) (offsets : List UInt32) :
    firstStale? k p (rs'.zip offsets) = firstStale? k p (rs.zip offsets) := by
  induction rs generalizing rs' k p offsets with
  | nil =>
    obtain rfl := List.map_eq_nil_iff.1 h
    rfl
  | cons r rs ih =>
    cases rs' with
    | nil => cases h
    | cons r' rs' =>
      rw [List.map_cons, List.map_cons, List.cons.injEq] at h
      cases offsets with
      | nil => rfl
      | cons o offsets =>
        rw [List.zip_cons_cons, List.zip_cons_cons, firstStale?, firstStale?, h.1, ih h.2]

theorem base_of_current {image : Image} (h : image.stale? = none) :
    image.code.base.toNat = image.header.size := by
  refine Decidable.byContradiction fun hne => ?_
  unfold stale? at h
  simp only [if_pos hne] at h
  cases h

namespace Unmoved

variable {ps qs : List Pass} {image image' image'' : Image}

theorem refl (ps : List Pass) (image : Image) : image.Unmoved ps image :=
  ⟨fun _ => rfl, Header.Grown.refl _ _, rfl⟩

theorem trans (h : image.Unmoved ps image') (h' : image'.Unmoved qs image'') :
    image.Unmoved (ps ++ qs) image'' where
  footprint := fun p => (h'.footprint p).trans (h.footprint p)
  header := h.header.trans h'.header
  same := by
    have hsame := h'.same
    rw [h.same] at hsame
    exact hsame

/-- Routines that are respelled stay where they are. -/
theorem of_along {P : Int → Routine → Routine → Prop} {rs' : List Routine} {p : Int}
    (hP : ∀ {start r r'}, P start r r' → ∀ q, r'.footprint q = r.footprint q)
    (h : Along P p image.code.routines rs') : image.Unmoved ps (image.withRoutines rs') :=
  ⟨fun q => h.map_congr _ fun hr => hP hr q, Header.Grown.refl _ _, rfl⟩

theorem offsets (h : image.Unmoved ps image') : image'.code.offsets = image.code.offsets := by
  rw [h.same]
  rfl

theorem base (h : image.Unmoved ps image') : image'.code.base = image.code.base := by
  rw [h.same]
  rfl

theorem map_size (h : image.Unmoved ps image') :
    image'.code.routines.map Routine.size = image.code.routines.map Routine.size := by
  have hsize : (fun l : List (Nat × Nat) => (l.map Prod.snd).sum) ∘ Routine.footprint 0 = Routine.size := by
    funext r
    exact (r.size_eq_footprint 0).symm
  rw [← hsize, ← List.map_map, ← List.map_map, h.footprint 0]

theorem length (h : image.Unmoved ps image') :
    image'.code.routines.length = image.code.routines.length := by
  simpa using congrArg List.length h.map_size

/-- Offsets that were running sums of sizes still are. -/
theorem backToBack (h : image.Unmoved ps image') {p : Nat} (hp : image.code.BackToBack p) :
    image'.code.BackToBack p := by
  refine ⟨?_, fun id hid => ?_⟩
  · rw [h.offsets, h.length]
    exact hp.length
  · rw [h.length] at hid
    obtain ⟨o, ho, hsum⟩ := hp.offset id hid
    refine ⟨o, ?_, ?_⟩
    · rw [Code.offsetOf?, h.offsets]
      exact ho
    · rw [List.map_take, h.map_size, ← List.map_take]
      exact hsum

/-- Whether offsets are current is the same as before if the header takes as much room. -/
theorem stale?_eq (h : image.Unmoved ps image') (hsize : image'.header.size = image.header.size) :
    image'.stale? = image.stale? := by
  unfold stale? Code.placed
  simp only [hsize, h.base, h.offsets, firstStale?_congr h.map_size]

/-- Current offsets become stale exactly if a removing pass has added entries to a pool. -/
theorem stale?_ne_none_iff (h : image.Unmoved ps image') (hcurrent : image.stale? = none) :
    image'.stale? ≠ none ↔ ∃ kind, .remove kind.subject ∈ ps ∧
      (image.header.pool kind).entries.size < (image'.header.pool kind).entries.size := by
  constructor
  · intro hstale
    have hsize : ¬image'.header.size = image.header.size :=
      fun hsize => hstale ((h.stale?_eq hsize).trans hcurrent)
    rw [h.header.size_eq_iff] at hsize
    obtain ⟨kind, hkind⟩ := Classical.not_forall.1 hsize
    refine ⟨kind, ?_, ?_⟩
    · refine Decidable.byContradiction fun hnot => hkind ?_
      rw [h.header.untouched kind hnot]
    · have hle := (StringPool.size_of_isPrefix (h.header.form kind) (h.header.entries kind)).1
      omega
  · rintro ⟨kind, -, hmore⟩ hnone
    have hbase := base_of_current hcurrent
    have hbase' := base_of_current hnone
    rw [h.base, hbase] at hbase'
    have hkind := h.header.size_eq_iff.1 hbase'.symm kind
    omega

end Unmoved

/-- A removing pass leaves the code where it is. -/
theorem Cleared.unmoved {s : Subject} {image image' : Image} {n : Nat} (h : image.Cleared s n image') :
    image.Unmoved [.remove s] image' := by
  have hkept : ∀ kind : PoolKind, kind.subject ≠ s → image'.header.pool kind = image.header.pool kind := by
    intro kind hkind
    rw [h.header, Header.pool_adopt_of_ne hkind]
  have hpool : ∀ kind, (image'.header.pool kind).form = (image.header.pool kind).form ∧
      (image.header.pool kind).contents <+: (image'.header.pool kind).contents := by
    intro kind
    by_cases hkind : kind.subject = s
    · subst hkind
      exact StringPool.intern_spec (Subject.takes_pool.1 h.takes)
    · rw [hkept kind hkind]
      exact ⟨rfl, List.prefix_refl _⟩
  refine ⟨fun p => h.lowered.map_congr _ fun hr => Respelled.footprint (lowering_faithful _ _) hr p,
    ⟨?_, fun kind => (hpool kind).1, fun kind => (hpool kind).2, fun kind hkind => hkept kind ?_⟩, h.same⟩
  · have hheader := h.header
    cases s with
    | classes =>
      rw [Header.adopt, h.takes.1] at hheader
      rw [hheader]
    | strings | symbols | globals | branches | jumps =>
      rw [hheader]
      rfl
  · rintro rfl
    exact hkind List.mem_cons_self

end Image

namespace Pass

variable {image image' : Image} {n : Nat}

/-- Every pass leaves the code where it is. -/
theorem unmoved_of_apply {p : Pass} (h : p.apply image = .ok (n, image')) : image.Unmoved [p] image' := by
  have hpool : ∀ {kind : PoolKind} {rs' : List Routine},
      Inlining.add kind (image.header.pool kind) image.code.routines = .ok (n, rs') →
        image.Unmoved [p] (image.withRoutines rs') := by
    intro kind rs' hadd
    have hheader : ∀ start r, (image.frame start r).header = image.header := fun _ _ => rfl
    refine Image.Unmoved.of_along (fun hr => ?_) (Inlining.respelled_of_add hheader hadd 0)
    exact hr.footprint (raising_faithful _ (Op.harmless_canonicalPool _ _) _)
  cases p with
  | remove s => exact (apply_remove_eq_ok_iff.1 h).unmoved
  | add s =>
    cases s with
    | strings =>
      obtain ⟨rs', hadd, rfl⟩ := exists_of_map h
      exact hpool hadd
    | symbols =>
      obtain ⟨rs', hadd, rfl⟩ := exists_of_map h
      exact hpool hadd
    | globals =>
      obtain ⟨rs', hadd, rfl⟩ := exists_of_map h
      exact hpool hadd
    | classes =>
      obtain ⟨rs', hadd, rfl⟩ := exists_of_map h
      have hclasses : ∀ start r, (image.frame start r).header.classes = image.header.classes :=
        fun _ _ => rfl
      refine Image.Unmoved.of_along (fun hr => ?_) (ClassNames.respelled_of_add hclasses hadd 0)
      exact hr.footprint (raising_faithful _ (Op.harmless_of_code (Op.code_canonicalClass _)) _)
    | branches =>
      obtain ⟨rs', hadd, rfl⟩ := exists_of_map h
      refine Image.Unmoved.of_along (fun hr => ?_) (Branches.respelled_of_add hadd 0)
      obtain ⟨ids, hr⟩ := hr
      exact hr.footprint (Branches.adding_faithful _ _ _)
    | jumps =>
      obtain ⟨rs', hadd, rfl⟩ := exists_of_map h
      obtain ⟨ids, changes, inserts, haddition, rfl⟩ := Jumps.exists_addition hadd
      refine Image.Unmoved.of_along (fun hr => ?_) haddition.respelled
      exact hr.footprint (Jumps.adding_faithful _ _)

/-- So does every run of passes. -/
theorem unmoved_of_runAll {ps : List Pass} (h : runAll ps image = .ok () image') :
    image.Unmoved ps image' := by
  induction ps generalizing image with
  | nil =>
    cases h
    exact Image.Unmoved.refl _ _
  | cons p ps ih =>
    obtain ⟨n, image₁, happly, hrest⟩ := exists_of_runAll_cons h
    exact (unmoved_of_apply happly).trans (ih hrest)

/-- **Passes never move code.** Successful passes keep the number of routines, their sizes, and where
the sized instructions of each lie and how long they are. So stored offsets, which stay, fit the
layout if they did; and they become stale exactly if a removing pass has added entries to a pool. -/
theorem runAll_footprint {ps : List Pass} (h : runAll ps image = .ok () image') :
    image'.code.routines.length = image.code.routines.length ∧
    image'.code.routines.map Routine.size = image.code.routines.map Routine.size ∧
    (∀ p, image'.code.routines.map (Routine.footprint p) =
      image.code.routines.map (Routine.footprint p)) ∧
    image'.code.offsets = image.code.offsets ∧
    (∀ p, image.code.BackToBack p → image'.code.BackToBack p) ∧
    ((∀ kind : PoolKind, .remove kind.subject ∈ ps →
      (image'.header.pool kind).entries.size = (image.header.pool kind).entries.size) →
        image'.stale? = image.stale?) ∧
    (image.stale? = none → (image'.stale? ≠ none ↔ ∃ kind : PoolKind, .remove kind.subject ∈ ps ∧
      (image.header.pool kind).entries.size < (image'.header.pool kind).entries.size)) := by
  have hunmoved := unmoved_of_runAll h
  refine ⟨hunmoved.length, hunmoved.map_size, hunmoved.footprint, hunmoved.offsets,
    fun _ => hunmoved.backToBack, fun hsame => ?_, hunmoved.stale?_ne_none_iff⟩
  refine hunmoved.stale?_eq (hunmoved.header.size_eq_iff.2 fun kind => ?_)
  by_cases hkind : .remove kind.subject ∈ ps
  · exact hsame kind hkind
  · rw [hunmoved.header.untouched kind hkind]

/-- Code with a text that the pool lacks, a branch to the end, and a jump to itself. -/
def textSample : Image where
  header := Header.empty .v41
  code :=
    { routines :=
        [[.symbolic ⟨.pushStringLiteral, (.letter 98, ())⟩, .op (.branch .ifTrue 6),
          .op (.pushInt32 (-1)), .op .jumpRelative, .op .endRoutine]]
      offsets := [20]
      index := [(20, 0)]
      base := 20 }
  order := .little

/-- The same code with markers, and with the text in the pool. -/
def markedSample : Image where
  header := { textSample.header with strings := .letters .p16z [98] }
  code := { textSample.code with
    routines :=
      [[.op ⟨.pushString, (0, ())⟩, .symbolic (.branchTo .ifTrue 0 0), .symbolic (.jumpPush 1 0),
        .symbolic (.jumpTarget 1), .op .jumpRelative, .symbolic (.branchTarget 0), .op .endRoutine]] }
  order := .little

/-- Markers do not move code, but the text moves the place where code has to begin. -/
theorem runAll_footprint_text :
    textSample.stale? = none ∧
      runAll [.add .branches, .add .jumps, .remove .strings] textSample = .ok () markedSample ∧
      (∀ p, markedSample.code.routines.map (Routine.footprint p) =
        textSample.code.routines.map (Routine.footprint p)) ∧
      markedSample.stale? ≠ none := by
  have hcurrent : textSample.stale? = none := by decide
  have hrun : runAll [.add .branches, .add .jumps, .remove .strings] textSample = .ok () markedSample := by
    decide +kernel
  obtain ⟨-, -, hfootprint, -, -, -, hstale⟩ := runAll_footprint hrun
  exact ⟨hcurrent, hrun, hfootprint, (hstale hcurrent).2 ⟨.strings, by decide, by decide⟩⟩

end Pass

end ScriptImage
