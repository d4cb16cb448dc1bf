import ScriptImage.Proofs.Clearing

/-!
# Runs of passes

All passes on images at once.  A pass that adds symbolic operands changes what the image
stands for only by putting canonical indices in the place of others (`Subject.canonical`);
a pass that removes them does not change it.  A pass that fails leaves the image as it is.
So whatever passes run, in whatever order and whether they fail or not, the image keeps
standing for the original code as long as indices are canonical anyway, and the removing
passes lead back to it:

    Pass.removeAll order (image.leftBy ps) = .ok () image
-/

namespace ScriptImage

/-! ## Strings of one letter -/

theorem StringForm.admits_letter (form : StringForm) {b : UInt8} (hb : b ≠ 0) : form.Admits [b] := by
  refine ⟨?_, fun _ hmem => hb (List.mem_singleton.1 hmem).symm⟩
  show 1 ≤ 256 ^ form.width.size - 1
  cases form.width <;> decide

/-- The string of one byte, or the empty string for NUL. -/
def ByteString.letter {form : StringForm} (b : UInt8) : ByteString form :=
  if hb : b = 0 then .empty form else ⟨[b], form.admits_letter hb⟩

/-- The pool with an entry for each of these bytes, as far as there is room. -/
def StringPool.letters (form : StringForm) (bytes : List UInt8) : StringPool where
  form := form
  entries := ((bytes.take maxEntries).map ByteString.letter).toArray
  size_le := by
    rw [List.size_toArray, List.length_map, List.length_take]
    exact Nat.min_le_left _ _

/-! ## Single passes -/

/-- What a pass that adds symbolic operands makes of the instructions that the image stands for. -/
def Subject.canonical (h : Header) : Subject → Op → Op
  | strings => Op.canonicalPool .strings h
  | symbols => Op.canonicalPool .symbols h
  | globals => Op.canonicalPool .globals h
  | classes => Op.canonicalClass h.classes
  | branches => id
  | jumps => id

theorem Subject.harmless_canonical (s : Subject) (h : Header) : Op.Harmless (s.canonical h) := by
  cases s with
  | strings => exact Op.harmless_canonicalPool _ h
  | symbols => exact Op.harmless_canonicalPool _ h
  | globals => exact Op.harmless_canonicalPool _ h
  | classes => exact Op.harmless_of_code (Op.code_canonicalClass _)
  | branches => exact Op.harmless_id
  | jumps => exact Op.harmless_id

theorem Denotes.canonical {F : Frame} {p : Int} {b : Bool} {s : Symbolic} {o : Op}
    (h : Denotes F p b (.symbolic s) o) (t : Subject) : t.canonical F.header o = o := by
  cases t with
  | strings => exact h.canonicalPool .strings
  | symbols => exact h.canonicalPool .symbols
  | globals => exact h.canonicalPool .globals
  | classes => exact h.canonicalClass
  | branches => rfl
  | jumps => rfl

namespace Pass

variable {s : Subject} {image image' : Image} {code : List (List Op)} {n : Nat}

theorem exists_of_map {result : Except Error (Nat × List Routine)}
    (h : (result.map fun x => (x.1, image.withRoutines x.2)) = .ok (n, image')) :
    ∃ rs', result = .ok (n, rs') ∧ image' = image.withRoutines rs' := by
  obtain ⟨⟨n', rs'⟩, hresult, heq⟩ := Run.except_map_eq_ok_iff.1 h
  cases heq
  exact ⟨rs', hresult, rfl⟩

/-- Adding symbolic operands raises the image. -/
theorem raised_of_apply (hstands : image.StandsFor code)
    (h : (Pass.add s).apply image = .ok (n, image')) :
    Image.Raised s (s.canonical image.header) image image' := by
  cases s with
  | strings =>
    obtain ⟨rs', hadd, rfl⟩ := exists_of_map h
    exact Inlining.raised_of_add hstands hadd
  | symbols =>
    obtain ⟨rs', hadd, rfl⟩ := exists_of_map h
    exact Inlining.raised_of_add hstands hadd
  | globals =>
    obtain ⟨rs', hadd, rfl⟩ := exists_of_map h
    exact Inlining.raised_of_add hstands hadd
  | classes =>
    obtain ⟨rs', hadd, rfl⟩ := exists_of_map h
    exact ClassNames.raised_of_add hstands hadd
  | branches =>
    obtain ⟨rs', hadd, rfl⟩ := exists_of_map h
    exact Branches.raised_of_add hstands hadd
  | jumps =>
    obtain ⟨rs', hadd, rfl⟩ := exists_of_map h
    exact Jumps.raised_of_add hstands hadd

theorem standsFor_of_apply (hstands : image.StandsFor code)
    (h : (Pass.add s).apply image = .ok (n, image')) :
    image'.StandsFor (code.map (List.map (s.canonical image.header))) :=
  hstands.raised (s.harmless_canonical image.header) (fun hd => hd.canonical s)
    (raised_of_apply hstands h)

/-- Removing symbolic operands succeeds and lowers the image, if class names are not ambiguous. -/
theorem exists_lowered (hstands : image.StandsFor code)
    (hunique : s = .classes → ∀ r ∈ image.code.routines, ∀ name : Name,
      .symbolic (.newObjectNamed name) ∈ r → image.header.classes.occurrences name.bytes ≤ 1) :
    ∃ n image', (Pass.remove s).apply image = .ok (n, image') ∧ Image.Lowered s image image' := by
  obtain ⟨n, rs', hcleared, hlowered⟩ := hstands.exists_cleared hunique
  exact ⟨n, _, apply_remove_eq_ok_iff.2 hcleared, hlowered⟩

theorem run_of_ok {p : Pass} (h : p.apply image = .ok (n, image')) : p.run image = .ok n image' := by
  unfold run
  rw [Run.bind_of_ok (show (get : ImageM Image) image = .ok image image from rfl), h]
  rfl

/-- A pass that fails leaves the image as it is. -/
theorem run_of_error {p : Pass} {e : Error} (h : p.apply image = .error e) :
    p.run image = .error e image := by
  unfold run
  rw [Run.bind_of_ok (show (get : ImageM Image) image = .ok image image from rfl), h]
  rfl

theorem run_eq_ok_iff {p : Pass} : p.run image = .ok n image' ↔ p.apply image = .ok (n, image') := by
  refine ⟨fun h => ?_, run_of_ok⟩
  cases happly : p.apply image with
  | error e =>
    rw [run_of_error happly] at h
    cases h
  | ok x =>
    obtain ⟨n', image₁⟩ := x
    rw [run_of_ok happly] at h
    cases h
    rfl

/-- Runs passes one after the other; stops at the first that fails. -/
def runAll (ps : List Pass) : ImageM Unit :=
  ps.forM fun p => do
    let _ ← p.run

theorem runAll_cons_of_ok {p : Pass} {ps : List Pass} (h : p.apply image = .ok (n, image')) :
    runAll (p :: ps) image = runAll ps image' := by
  have hfirst : (do let _ ← p.run : ImageM Unit) image = .ok () image' :=
    Run.bind_eq_ok_iff.2 ⟨n, image', run_of_ok h, rfl⟩
  exact Run.bind_of_ok hfirst

theorem runAll_cons_of_error {p : Pass} {ps : List Pass} {e : Error} (h : p.apply image = .error e) :
    runAll (p :: ps) image = .error e image := by
  have hfirst : (do let _ ← p.run : ImageM Unit) image = .error e image :=
    Run.bind_of_error (run_of_error h)
  exact Run.bind_of_error hfirst

theorem exists_of_runAll_cons {p : Pass} {ps : List Pass} (h : runAll (p :: ps) image = .ok () image') :
    ∃ n image₁, p.apply image = .ok (n, image₁) ∧ runAll ps image₁ = .ok () image' := by
  cases happly : p.apply image with
  | error e =>
    rw [runAll_cons_of_error happly] at h
    cases h
  | ok x =>
    obtain ⟨n, image₁⟩ := x
    rw [runAll_cons_of_ok happly] at h
    exact ⟨n, image₁, rfl, h⟩

theorem runAll_map (f : Subject → Pass) (order : List Subject) :
    runAll (order.map f) = (order.forM fun s => (do let _ ← (f s).run) : ImageM Unit) := by
  induction order with
  | nil => rfl
  | cons s order ih =>
    exact congrArg (fun rest => (do let _ ← (f s).run : ImageM Unit) >>= fun _ => rest) ih

end Pass

namespace Image

theorem symbolize_eq (sel : PassSelection) : symbolize sel = Pass.runAll (sel.subjects.map Pass.add) :=
  (Pass.runAll_map _ _).symm

theorem lower_eq (sel : PassSelection) :
    lower sel = (Pass.runAll (sel.subjects.reverse.map Pass.remove) >>= fun _ => updateOffsets) := by
  rw [Pass.runAll_map]
  rfl

/-! ## What a run leaves -/

/-- An image that holds other routines than the original and stands for the given code. -/
structure Spells (original : Image) (code : List (List Op)) (image : Image) : Prop where
  same : image = original.withRoutines image.code.routines
  stands : image.StandsFor code

/-- The image that a computation leaves, whether it succeeds or fails. -/
def left {α : Type} (m : ImageM α) (image : Image) : Image :=
  match m image with
  | .ok _ image' => image'
  | .error _ image' => image'

/-- The image that passes leave which run one after the other, also after one that fails. -/
def leftBy (ps : List Pass) (image : Image) : Image :=
  ps.foldl (fun image p => image.left p.run) image

/-- Whether an instantiation names a class whose name occurs more than once. -/
def Ambiguous (image : Image) : Prop :=
  ∃ r ∈ image.code.routines, ∃ name : Name, .symbolic (.newObjectNamed name) ∈ r ∧
    1 < image.header.classes.occurrences name.bytes

namespace Spells

variable {original image image' : Image} {code : List (List Op)} {s : Subject} {n : Nat}

theorem of_concrete (h : original.code.routines = code.map (List.map Instr.op)) :
    Spells original code original :=
  ⟨rfl, standsFor_of_concrete h⟩

theorem header (h : Spells original code image) : image.header = original.header := by
  rw [h.same]
  rfl

theorem trans_same (h : Spells original code image)
    (hsame : image' = image.withRoutines image'.code.routines) :
    image' = original.withRoutines image'.code.routines := by
  rw [hsame, h.same]
  rfl

theorem add (h : Spells original code image) (happly : (Pass.add s).apply image = .ok (n, image')) :
    Spells original (code.map (List.map (s.canonical original.header))) image' := by
  refine ⟨h.trans_same (Pass.raised_of_apply h.stands happly).same, ?_⟩
  rw [← h.header]
  exact Pass.standsFor_of_apply h.stands happly

theorem lowered (h : Spells original code image) (hl : Lowered s image image') :
    Spells original code image' :=
  ⟨h.trans_same hl.same, h.stands.lowered hl⟩

end Spells

theorem Lowered.ambiguous {image image' : Image} {s : Subject} (h : Lowered s image image')
    (hambiguous : image'.Ambiguous) : image.Ambiguous := by
  obtain ⟨r', hr', name, hname, hmany⟩ := hambiguous
  obtain ⟨r, hr, hin⟩ := h.mem hr' hname
  refine ⟨r, hr, name, hin, ?_⟩
  rw [h.same] at hmany
  exact hmany

/-- Removing passes, in any order, succeed and leave nothing of what they are about. -/
theorem Spells.exists_runAll {original image : Image} {code : List (List Op)} {order : List Subject}
    (h : Spells original code image) (hunique : .classes ∈ order → ¬image.Ambiguous) :
    ∃ image', Pass.runAll (order.map Pass.remove) image = .ok () image' ∧ Spells original code image' ∧
      (∀ s ∈ order, Free s image'.code.routines) ∧
      ∀ t, Free t image.code.routines → Free t image'.code.routines := by
  induction order generalizing image with
  | nil => exact ⟨image, rfl, h, nofun, fun _ ht => ht⟩
  | cons s order ih =>
    have hnames : s = .classes → ∀ r ∈ image.code.routines, ∀ name : Name,
        .symbolic (.newObjectNamed name) ∈ r → image.header.classes.occurrences name.bytes ≤ 1 := by
      rintro rfl r hr name hname
      refine Nat.le_of_not_lt fun hmany => ?_
      exact hunique List.mem_cons_self ⟨r, hr, name, hname, hmany⟩
    obtain ⟨n, image₁, happly, hlowered⟩ := Pass.exists_lowered h.stands hnames
    have hunique₁ : .classes ∈ order → ¬image₁.Ambiguous := fun hin hambiguous =>
      hunique (List.mem_cons_of_mem _ hin) (hlowered.ambiguous hambiguous)
    obtain ⟨image', hrun, hspells, hfree, hkept⟩ := ih (h.lowered hlowered) hunique₁
    refine ⟨image', ?_, hspells, ?_, fun t ht => hkept t (hlowered.free_of_free ht)⟩
    · rw [List.map_cons, Pass.runAll_cons_of_ok happly]
      exact hrun
    · intro t ht
      rcases List.mem_cons.1 ht with rfl | ht
      · exact hkept t hlowered.free
      · exact hfree t ht

end Image

/-! ## Distinct entries -/

/-- No two entries of a pool have the same content, and no two classes the same name. -/
structure Header.Distinct (h : Header) : Prop where
  strings : h.strings.contents.Nodup
  globals : h.globals.contents.Nodup
  symbols : h.symbols.contents.Nodup
  classes : (h.classes.entries.map fun c => c.name.bytes).Nodup

namespace Header.Distinct

variable {h : Header}

theorem occurrences_le (hd : h.Distinct) (name : List UInt8) : h.classes.occurrences name ≤ 1 := by
  rw [ClassTable.occurrences_eq]
  exact List.nodup_iff_count.1 hd.classes name

theorem canonical_eq (hd : h.Distinct) (s : Subject) : s.canonical h = id := by
  cases s with
  | strings => exact Op.canonicalPool_of_nodup hd.strings
  | symbols => exact Op.canonicalPool_of_nodup hd.symbols
  | globals => exact Op.canonicalPool_of_nodup hd.globals
  | classes =>
    funext o
    exact Op.canonicalClass_of_unique fun _ c _ _ => hd.occurrences_le c.name.bytes
  | branches => rfl
  | jumps => rfl

end Header.Distinct

namespace Image

theorem not_ambiguous {image : Image} (hd : image.header.Distinct) : ¬image.Ambiguous := by
  rintro ⟨r, -, name, -, hmany⟩
  exact Nat.not_lt_of_le (hd.occurrences_le name.bytes) hmany

/-- An image on which no pass has anything left to do holds the code that it stands for. -/
theorem Spells.eq_of_free {original image : Image} {code : List (List Op)}
    (h : Spells original code image) (hfree : ∀ s, Free s image.code.routines) :
    image = original.withRoutines (code.map (List.map Instr.op)) := by
  rw [h.same, h.stands.eq_of_free hfree]

namespace Spells

variable {original image : Image} {code : List (List Op)}

/-- No pass changes what the image stands for, whether it succeeds or fails. -/
theorem left_run (hd : original.header.Distinct) (h : Spells original code image) (p : Pass) :
    Spells original code (image.left p.run) := by
  unfold left
  cases happly : p.apply image with
  | error e =>
    rw [Pass.run_of_error happly]
    exact h
  | ok x =>
    obtain ⟨n, image'⟩ := x
    rw [Pass.run_of_ok happly]
    cases p with
    | add s =>
      have hadded := h.add happly
      rw [hd.canonical_eq s] at hadded
      simpa using hadded
    | remove s =>
      have hunique : s = .classes → ∀ r ∈ image.code.routines, ∀ name : Name,
          .symbolic (.newObjectNamed name) ∈ r → image.header.classes.occurrences name.bytes ≤ 1 := by
        intro _ r _ name _
        rw [h.header]
        exact hd.occurrences_le name.bytes
      obtain ⟨n', image₁, happly', hlowered⟩ := Pass.exists_lowered h.stands hunique
      rw [happly] at happly'
      cases happly'
      exact h.lowered hlowered

theorem leftBy (hd : original.header.Distinct) (h : Spells original code image) (ps : List Pass) :
    Spells original code (image.leftBy ps) := by
  unfold Image.leftBy
  induction ps generalizing image with
  | nil => exact h
  | cons p ps ih => exact ih (h.left_run hd p)

/-- The same for passes of which the first that fails stops the run. -/
theorem left_runAll (hd : original.header.Distinct) (h : Spells original code image) (ps : List Pass) :
    Spells original code (image.left (Pass.runAll ps)) := by
  induction ps generalizing image with
  | nil => exact h
  | cons p ps ih =>
    have hfirst := h.left_run hd p
    unfold left at hfirst ⊢
    cases happly : p.apply image with
    | error e =>
      rw [Pass.runAll_cons_of_error happly]
      exact h
    | ok x =>
      obtain ⟨n, image'⟩ := x
      rw [Pass.run_of_ok happly] at hfirst
      rw [Pass.runAll_cons_of_ok happly]
      exact ih hfirst

/-- The removing passes, each at least once and in any order, lead back to the original. -/
theorem runAll_remove (hd : original.header.Distinct) (h : Spells original code image)
    (hcode : original.code.routines = code.map (List.map Instr.op)) {order : List Subject}
    (horder : ∀ s, s ∈ order) : Pass.runAll (order.map Pass.remove) image = .ok () original := by
  have hunique : .classes ∈ order → ¬image.Ambiguous := by
    intro _
    refine not_ambiguous ?_
    rw [h.header]
    exact hd
  obtain ⟨image', hrun, hspells, hfree, -⟩ := h.exists_runAll hunique
  have hback := hspells.eq_of_free fun s => hfree s (horder s)
  rw [← hcode] at hback
  rw [hrun, hback]
  rfl

end Spells

theorem exists_ops {image : Image} (h : image.code.Concrete) :
    ∃ code : List (List Op), image.code.routines = code.map (List.map Instr.op) := by
  have hall : ∀ r ∈ image.code.routines, ∃ os : List Op, r = os.map Instr.op :=
    fun r hr => Routine.concrete_iff.1 (h r hr)
  generalize image.code.routines = rs at hall
  induction rs with
  | nil => exact ⟨[], rfl⟩
  | cons r rs ih =>
    obtain ⟨os, hos⟩ := hall r List.mem_cons_self
    obtain ⟨code, hcode⟩ := ih fun r' hr' => hall r' (List.mem_cons_of_mem _ hr')
    exact ⟨os :: code, by rw [hos, hcode]; rfl⟩

/-- **Passes lose nothing.** Storable code whose tables hold no entry twice comes back, with all that
is around it, if the removing passes run, in any order: after any passes, of which any may have
failed, and after any passes of which the first that failed stopped the run. -/
theorem runAll_remove_of_left {image : Image} (hconcrete : image.code.Concrete)
    (hdistinct : image.header.Distinct) {order : List Subject} (horder : order.Perm Subject.all) :
    (∀ ps : List Pass, Pass.runAll (order.map Pass.remove) (image.leftBy ps) = .ok () image) ∧
    ∀ sel : PassSelection,
      Pass.runAll (order.map Pass.remove) (image.left (symbolize sel)) = .ok () image := by
  obtain ⟨code, hcode⟩ := exists_ops hconcrete
  have hspells := Spells.of_concrete hcode
  have hall : ∀ s, s ∈ order := by
    intro s
    refine horder.mem_iff.2 ?_
    cases s <;> decide
  refine ⟨fun ps => ?_, fun sel => ?_⟩
  · exact (hspells.leftBy hdistinct ps).runAll_remove hdistinct hcode hall
  · rw [symbolize_eq]
    exact (hspells.left_runAll hdistinct _).runAll_remove hdistinct hcode hall

/-- Code with raw operands of every kind, with a jump that nothing feeds, and with an empty routine. -/
def unfedSample : Image where
  header := { Header.empty .v41 with
    strings := .letters .p16z [97, 98]
    globals := .letters .p8z [103]
    symbols := .letters .p8z [115]
    classes := ⟨.one, [⟨.letter 67, [], []⟩]⟩ }
  code :=
    { routines :=
        [[.op ⟨.pushString, (1, ())⟩, .op ⟨.getMember, (0, ())⟩, .op ⟨.pushVariable, (0x8000, ())⟩,
          .op (.newObject 0), .op (.branch .ifTrue (-3)), .op (.pushInt32 0), .op .jumpRelative],
         [.op .jumpRelative], []]
      offsets := [7, 0, 0]
      index := [(7, 0)]
      base := 7 }
  order := .little

/-- A run that stops at the jumps, when other operands are symbolic already, is undone. -/
theorem runAll_remove_of_left_unfed :
    unfedSample.code.Concrete ∧ unfedSample.header.Distinct ∧
      [Subject.jumps, .strings, .branches, .classes, .globals, .symbols].Perm Subject.all ∧
      unfedSample.left (symbolize ⟨true, true, true, true, false, true⟩) ≠ unfedSample ∧
      Pass.runAll ([Subject.jumps, .strings, .branches, .classes, .globals, .symbols].map Pass.remove)
        (unfedSample.left (symbolize ⟨true, true, true, true, false, true⟩)) = .ok () unfedSample := by
  have hconcrete : unfedSample.code.Concrete := by decide
  have hdistinct : unfedSample.header.Distinct := ⟨by decide, by decide, by decide, by decide⟩
  have horder : [Subject.jumps, .strings, .branches, .classes, .globals, .symbols].Perm Subject.all := by
    decide
  have h := runAll_remove_of_left hconcrete hdistinct horder
  exact ⟨hconcrete, hdistinct, horder, by decide, h.2 _⟩

end Image

end ScriptImage
