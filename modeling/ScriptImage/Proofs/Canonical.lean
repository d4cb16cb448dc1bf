import ScriptImage.Proofs.PassRuns
import ScriptImage.Proofs.RoundTrip

/-!
# Symbolic form and back, with duplicate entries

When tables hold entries twice, the symbolic form forgets which of them an index meant.
Lowering then takes the first, so that `Image.lower` after `Image.symbolize` gives the
image with canonical indices and all else as before.  Class names are different: a name
that occurs twice cannot be lowered at all.  So lowering succeeds exactly if no
instantiation has a class whose name is ambiguous:

    symbolize sel image = .ok () image₁ → lower sel image₁ = .ok () image₂ →
      image₂ = image.withRoutines (… canonical …)
-/

namespace ScriptImage

open Jumps (isMarker)

/-! ## Ambiguous class names -/

/-- Whether an instantiation has the index of a class whose name occurs more than once. -/
def Image.UsesAmbiguous (image : Image) : Prop :=
  ∃ r ∈ image.code.routines, ∃ index c, Instr.op (.newObject index) ∈ r ∧
    image.header.classes.entries[index.toNat]? = some c ∧
    1 < image.header.classes.occurrences c.name.bytes

theorem Subject.code_canonical (s : Subject) (h : Header) (o : Op) : (s.canonical h o).code = o.code := by
  cases s with
  | strings => exact Op.code_mapPoolOperand _ _ o
  | symbols => exact Op.code_mapPoolOperand _ _ o
  | globals => exact Op.code_mapPoolOperand _ _ o
  | classes => exact Op.code_canonicalClass _ o
  | branches => rfl
  | jumps => rfl

/-- Only an instantiation by name stands for an instantiation. -/
theorem Denotes.subject_of_newObject {F : Frame} {p : Int} {b : Bool} {s : Symbolic} {o : Op}
    (h : Denotes F p b (.symbolic s) o) (ho : o.code = .newObject) : s.kind.subject = .classes := by
  cases h with
  | jump => cases ho
  | @branch _ c => cases c <;> cases ho
  | entry hrule _ _ _ _ hcode _ =>
    rw [hcode] at ho
    exact absurd ho (Inlining.code_ne_newObject hrule)
  | newObject hs =>
    rw [hs]
    rfl

namespace Image

variable {s : Subject} {image image' : Image} {code : List (List Op)} {n : Nat}

/-- Passes that are not about classes keep instantiations by name. -/
theorem Raised.ambiguous_iff {f : Op → Op} (hs : s ≠ .classes) (h : Raised s f image image') :
    image'.Ambiguous ↔ image.Ambiguous := by
  have hheader : image'.header = image.header := by
    rw [h.same]
    rfl
  unfold Ambiguous
  rw [hheader]
  constructor
  · rintro ⟨r', hr', name, hname, hmany⟩
    obtain ⟨r, hr, hin⟩ := h.mem hr' hname fun hsubject => hs (Option.some.inj hsubject).symm
    exact ⟨r, hr, name, hin, hmany⟩
  · rintro ⟨r, hr, name, hname, hmany⟩
    obtain ⟨p, r', hr', hspell, -⟩ := h.respelled.exists_right_of_mem hr
    refine ⟨r', hr', name, ?_, hmany⟩
    obtain ⟨q, b, i', hi', hstep⟩ := hspell.exists_of_mem hname rfl
    rcases hstep with ⟨rfl, -⟩ | ⟨o, heq, -⟩
    · exact hi'
    · cases heq

/-- No pass adds instantiations by index. -/
theorem Raised.usesAmbiguous {f : Op → Op} (h : Raised s f image image')
    (hambiguous : image'.UsesAmbiguous) : image.UsesAmbiguous := by
  have hheader : image'.header = image.header := by
    rw [h.same]
    rfl
  obtain ⟨r', hr', index, c, hin, hc⟩ := hambiguous
  obtain ⟨r, hr, hin⟩ := h.mem hr' hin nofun
  rw [hheader] at hc
  exact ⟨r, hr, index, c, hin, hc⟩

/-- Passes that are not about classes keep instantiations by index. -/
theorem Raised.usesAmbiguous_iff {f : Op → Op} (hf : ∀ o, (f o).code = o.code) (hs : s ≠ .classes)
    (h : Raised s f image image') : image'.UsesAmbiguous ↔ image.UsesAmbiguous := by
  refine ⟨h.usesAmbiguous, ?_⟩
  rintro ⟨r, hr, index, c, hin, hc⟩
  obtain ⟨p, r', hr', hspell, -⟩ := h.respelled.exists_right_of_mem hr
  refine ⟨r', hr', index, c, ?_, ?_⟩
  · obtain ⟨q, b, i', hi', hstep⟩ := hspell.exists_of_mem hin rfl
    rcases hstep with ⟨rfl, -⟩ | ⟨o, heq, hsubject, hd⟩
    · exact hi'
    · cases heq
      cases i' with
      | op o' => cases hsubject
      | symbolic s' =>
        have hclass := hd.subject_of_newObject (hf _)
        exact absurd ((Option.some.inj hsubject).symm.trans hclass) hs
  · rw [h.same]
    exact hc

/-- The pass on class names turns instantiations by index into instantiations by name. -/
theorem ambiguous_of_add_classes (h : (Pass.add .classes).apply image = .ok (n, image')) :
    image'.Ambiguous ↔ image.Ambiguous ∨ image.UsesAmbiguous := by
  obtain ⟨rs', hadd, rfl⟩ := Pass.exists_of_map h
  have hspells := Visit.along_of_each ClassNames.embed_marker hadd image.code.base.toNat
  constructor
  · rintro ⟨r', hr', name, hname, hmany⟩
    obtain ⟨p, r, hr, hspell⟩ := hspells.exists_of_mem hr'
    rcases hspell.mem hname with ⟨hm, -⟩ | ⟨hm, -⟩ | ⟨q, b, i, hi, -, hstep⟩
    · cases hm
    · cases hm
    · rcases hstep with ⟨-, rfl⟩ | hstep
      · exact Or.inl ⟨r, hr, name, hi, hmany⟩
      · unfold ClassNames.embed at hstep
        split at hstep
        · next index =>
          split at hstep
          · next c hc =>
            cases hstep
            exact Or.inr ⟨r, hr, index, c, hi, hc, hmany⟩
          · cases hstep
        · cases hstep
  · rintro (⟨r, hr, name, hname, hmany⟩ | ⟨r, hr, index, c, hin, hc, hmany⟩)
    · obtain ⟨p, r', hr', hspell⟩ := hspells.exists_right_of_mem hr
      obtain ⟨q, b, i', hi', hstep⟩ := hspell.exists_of_mem hname rfl
      rcases hstep with ⟨-, rfl⟩ | hstep
      · exact ⟨r', hr', name, hi', hmany⟩
      · cases hstep
    · obtain ⟨p, r', hr', hspell⟩ := hspells.exists_right_of_mem hr
      obtain ⟨q, b, i', hi', hstep⟩ := hspell.exists_of_mem hin rfl
      have hembed : ClassNames.embed image.header.classes (.op (.newObject index)) =
          .ok (some (.symbolic (.newObjectNamed c.name))) := by
        simp only [ClassNames.embed, hc]
      rcases hstep with ⟨hnone, -⟩ | hsome
      · rw [hembed] at hnone
        cases hnone
      · rw [hembed] at hsome
        cases hsome
        exact ⟨r', hr', c.name, hi', hmany⟩

/-- The pass that lowers class names fails on an ambiguous one. -/
theorem exists_error_of_ambiguous (h : image.Ambiguous) :
    ∃ e, (Pass.remove .classes).apply image = .error e := by
  cases happly : (Pass.remove .classes).apply image with
  | error e => exact ⟨e, rfl⟩
  | ok x =>
    obtain ⟨n, image'⟩ := x
    obtain ⟨r, hr, name, hname, hmany⟩ := h
    have hunique := (Pass.apply_remove_eq_ok_iff.1 happly).takes.2 r hr name hname
    exact absurd hmany (Nat.not_lt_of_le hunique)

theorem Lowered.ambiguous_of_ne (hs : s ≠ .classes) (h : Lowered s image image')
    (hambiguous : image.Ambiguous) : image'.Ambiguous := by
  obtain ⟨r, hr, name, hname, hmany⟩ := hambiguous
  obtain ⟨r', hr', hin⟩ := h.exists_of_mem hr hname rfl fun hsubject => hs (Option.some.inj hsubject).symm
  refine ⟨r', hr', name, hin, ?_⟩
  rw [h.same]
  exact hmany

/-! ## Runs -/

namespace Spells

variable {original : Image} {order : List Subject}

/-- What a run of adding passes makes of the code. -/
theorem runAll_add (h : Spells original code image)
    (hrun : Pass.runAll (order.map Pass.add) image = .ok () image') :
    Spells original (code.map (List.map fun o => order.foldl (fun o s => s.canonical original.header o) o))
        image' ∧
      ∀ t, t ∉ order → Free t image.code.routines → Free t image'.code.routines := by
  induction order generalizing image code with
  | nil =>
    cases hrun
    refine ⟨?_, fun t _ ht => ht⟩
    simpa using h
  | cons s order ih =>
    obtain ⟨n, image₁, happly, hrest⟩ := Pass.exists_of_runAll_cons hrun
    obtain ⟨hspells, hfree⟩ := ih (h.add happly) hrest
    refine ⟨?_, fun t ht hfree₀ => hfree t (fun hin => ht (List.mem_cons_of_mem _ hin)) ?_⟩
    · simpa [List.map_map, Function.comp_def] using hspells
    · refine (Pass.raised_of_apply h.stands happly).free_of_free ?_ hfree₀
      rintro rfl
      exact ht List.mem_cons_self

theorem ambiguous_of_runAll_add (h : Spells original code image)
    (hrun : Pass.runAll (order.map Pass.add) image = .ok () image') :
    image'.Ambiguous ↔ image.Ambiguous ∨ (.classes ∈ order ∧ image.UsesAmbiguous) := by
  induction order generalizing image code with
  | nil =>
    cases hrun
    simp
  | cons s order ih =>
    obtain ⟨n, image₁, happly, hrest⟩ := Pass.exists_of_runAll_cons hrun
    have hraised := Pass.raised_of_apply h.stands happly
    rw [ih (h.add happly) hrest, List.mem_cons]
    by_cases hs : s = .classes
    · subst hs
      rw [ambiguous_of_add_classes happly]
      constructor
      · rintro ((hamb | huse) | ⟨-, huse⟩)
        · exact Or.inl hamb
        · exact Or.inr ⟨Or.inl rfl, huse⟩
        · exact Or.inr ⟨Or.inl rfl, hraised.usesAmbiguous huse⟩
      · rintro (hamb | ⟨-, huse⟩)
        · exact Or.inl (Or.inl hamb)
        · exact Or.inl (Or.inr huse)
    · rw [hraised.ambiguous_iff hs, hraised.usesAmbiguous_iff (Subject.code_canonical s _) hs]
      have hne : ¬Subject.classes = s := fun heq => hs heq.symm
      simp only [hne, false_or]

/-- A run of removing passes fails if it meets an ambiguous class name. -/
theorem exists_error_of_ambiguous (h : Spells original code image) (hin : .classes ∈ order)
    (hambiguous : image.Ambiguous) :
    ∃ e image', Pass.runAll (order.map Pass.remove) image = .error e image' := by
  induction order generalizing image with
  | nil => cases hin
  | cons s order ih =>
    rw [List.map_cons]
    by_cases hs : s = .classes
    · subst hs
      obtain ⟨e, he⟩ := Image.exists_error_of_ambiguous hambiguous
      exact ⟨e, image, Pass.runAll_cons_of_error he⟩
    · obtain ⟨n, image₁, happly, hlowered⟩ := Pass.exists_lowered h.stands fun heq => absurd heq hs
      rw [Pass.runAll_cons_of_ok happly]
      refine ih (h.lowered hlowered) ?_ (hlowered.ambiguous_of_ne hs hambiguous)
      rcases List.mem_cons.1 hin with heq | hin
      · exact absurd heq.symm hs
      · exact hin

end Spells

end Image

/-! ## Files -/

/-- Changes the instruction if it is storable. -/
def Instr.mapOp (f : Op → Op) : Instr → Instr
  | op o => op (f o)
  | symbolic s => symbolic s

theorem Routine.size_mapOp {f : Op → Op} (hf : ∀ o, (f o).code = o.code) (r : Routine) :
    Routine.size (r.map (Instr.mapOp f)) = r.size := by
  unfold Routine.size
  rw [List.map_map]
  refine congrArg List.sum (List.map_congr_left fun i _ => ?_)
  cases i with
  | op o => exact congrArg Opcode.size (hf o)
  | symbolic s => rfl

namespace PassSelection

theorem mem_subjects {sel : PassSelection} {s : Subject} :
    s ∈ sel.subjects ↔ sel.includes s = true := by
  have hall : s ∈ Subject.all := by cases s <;> decide
  rw [subjects, List.mem_filter]
  exact ⟨fun h => h.2, fun h => ⟨hall, h⟩⟩

/-- The instruction with canonical indices into the selected pools. -/
def canonical (sel : PassSelection) (h : Header) (o : Op) : Op :=
  let o := if sel.strings then o.canonicalPool .strings h else o
  let o := if sel.symbols then o.canonicalPool .symbols h else o
  if sel.globals then o.canonicalPool .globals h else o

theorem code_canonical (sel : PassSelection) (h : Header) (o : Op) :
    (sel.canonical h o).code = o.code := by
  have hone : ∀ (b : Bool) (kind : PoolKind) (o : Op),
      (if b then o.canonicalPool kind h else o).code = o.code := by
    intro b kind o
    cases b with
    | true => exact Op.code_mapPoolOperand kind _ o
    | false => rfl
  unfold canonical
  rw [hone, hone, hone]

theorem canonical_newObject (sel : PassSelection) (h : Header) (index : UInt16) :
    sel.canonical h (.newObject index) = .newObject index := by
  have hone : ∀ (b : Bool) (kind : PoolKind),
      (if b then (Op.newObject index).canonicalPool kind h else .newObject index) = .newObject index := by
    intro b kind
    cases b <;> cases kind <;> rfl
  unfold canonical
  simp only [hone]

/-- All passes of a selection together put canonical indices into the selected pools; classes stay,
if their names are not ambiguous. -/
theorem foldl_subjects {sel : PassSelection} {h : Header} {o : Op}
    (hunique : sel.classes = true → ∀ index c, o = .newObject index →
      h.classes.entries[index.toNat]? = some c → h.classes.occurrences c.name.bytes ≤ 1) :
    sel.subjects.foldl (fun o s => s.canonical h o) o = sel.canonical h o := by
  have hclass : (if sel.classes then (sel.canonical h o).canonicalClass h.classes else sel.canonical h o) =
      sel.canonical h o := by
    by_cases hc : sel.classes = true
    · rw [if_pos hc]
      refine Op.canonicalClass_of_unique fun index c heq hentry => ?_
      have hcode : o.code = .newObject := by
        rw [← sel.code_canonical h o, heq]
      obtain ⟨code, operands⟩ := o
      cases hcode
      obtain ⟨index', ⟨⟩⟩ := operands
      have hsame := (sel.canonical_newObject h index').symm.trans heq
      exact hunique hc index c hsame hentry
    · rw [if_neg hc]
  obtain ⟨strings, symbols, globals, classes, branches, jumps⟩ := sel
  unfold subjects Subject.all
  rw [List.foldl_filter]
  -- the passes on branches and jumps change nothing, selected or not
  cases branches <;> cases jumps <;> exact hclass

end PassSelection

namespace Image

/-- Where routines keep their sizes, offsets are up to date. -/
theorem WellFormed.updateOffsets {image : Image} (h : image.WellFormed true) {rs : List Routine}
    (hsizes : rs.map Routine.size = image.code.routines.map Routine.size) :
    Image.updateOffsets (image.withRoutines rs) = .ok () (image.withRoutines rs) := by
  refine updateOffsets_of_laidOut ?_ ?_ ?_ (h.starts rfl)
  · have hoffsets := congrArg Code.offsets h.laidOut
    have hindex := congrArg Code.index h.laidOut
    have hbase := congrArg Code.base h.laidOut
    unfold Code.laidOut
    simp only [withRoutines]
    rw [Code.startsFrom_congr hsizes, Code.mk.injEq]
    exact ⟨rfl, hoffsets, hindex, hbase⟩
  · intro r hr
    have hsize : r.size ∈ image.code.routines.map Routine.size := by
      rw [← hsizes]
      exact List.mem_map.2 ⟨r, hr, rfl⟩
    obtain ⟨r₀, hr₀, heq⟩ := List.mem_map.1 hsize
    have hpos := (h.ends r₀ hr₀).size_pos
    omega
  · show image.header.size + (rs.map Routine.size).sum ≤ maxOffset
    rw [hsizes]
    exact h.fits

/-- The storable code of an image, instruction by instruction changed. -/
theorem map_mapOp {image : Image} {code : List (List Op)}
    (hcode : image.code.routines = code.map (List.map Instr.op)) (f : Op → Op) :
    (code.map (List.map f)).map (List.map Instr.op) =
      image.code.routines.map (List.map (Instr.mapOp f)) := by
  rw [hcode, List.map_map, List.map_map]
  refine List.map_congr_left fun os _ => ?_
  show (os.map f).map Instr.op = (os.map Instr.op).map (Instr.mapOp f)
  rw [List.map_map, List.map_map]
  rfl

theorem free_of_concrete {image : Image} (h : image.code.Concrete) (s : Subject) :
    Free s image.code.routines := by
  intro r hr i hi
  cases i with
  | op o => exact nofun
  | symbolic s' => cases h r hr _ hi

theorem not_ambiguous_of_concrete {image : Image} (h : image.code.Concrete) : ¬image.Ambiguous := by
  rintro ⟨r, hr, name, hname, -⟩
  cases h r hr _ hname

/-- Without ambiguous classes lowering succeeds, and all that changes is indices. -/
theorem lower_of_not_usesAmbiguous {image image₁ : Image} {sel : PassSelection}
    (hwf : image.WellFormed true) (hsymbolize : symbolize sel image = .ok () image₁)
    (hclasses : sel.classes = true → ¬image.UsesAmbiguous) :
    lower sel image₁ = .ok () (image.withRoutines
      (image.code.routines.map (List.map (Instr.mapOp (sel.canonical image.header))))) := by
  obtain ⟨code, hcode⟩ := exists_ops hwf.concrete
  have hspells := Spells.of_concrete hcode
  rw [symbolize_eq] at hsymbolize
  obtain ⟨hspells₁, hfree₁⟩ := hspells.runAll_add hsymbolize
  have hunique : .classes ∈ sel.subjects.reverse → ¬image₁.Ambiguous := by
    intro hin
    rw [hspells.ambiguous_of_runAll_add hsymbolize]
    rintro (hamb | ⟨-, huse⟩)
    · exact not_ambiguous_of_concrete hwf.concrete hamb
    · exact hclasses (PassSelection.mem_subjects.1 (List.mem_reverse.1 hin)) huse
  obtain ⟨image₂, hrun, hspells₂, hfree₂, hkept⟩ := hspells₁.exists_runAll hunique
  have hfree : ∀ s, Free s image₂.code.routines := by
    intro s
    by_cases hs : s ∈ sel.subjects
    · exact hfree₂ s (List.mem_reverse.2 hs)
    · exact hkept s (hfree₁ s hs (free_of_concrete hwf.concrete s))
  have hops : (code.map (List.map fun o => sel.subjects.foldl (fun o s => s.canonical image.header o) o)) =
      code.map (List.map (sel.canonical image.header)) := by
    refine List.map_congr_left fun os hos => List.map_congr_left fun o ho => ?_
    refine PassSelection.foldl_subjects fun hsel index c heq hc => Nat.le_of_not_lt fun hmany => ?_
    refine hclasses hsel ⟨os.map Instr.op, ?_, index, c, ?_, hc, hmany⟩
    · rw [hcode]
      exact List.mem_map.2 ⟨os, hos, rfl⟩
    · rw [← heq]
      exact List.mem_map.2 ⟨o, ho, rfl⟩
  have himage : image₂ = image.withRoutines
      (image.code.routines.map (List.map (Instr.mapOp (sel.canonical image.header)))) := by
    rw [hspells₂.eq_of_free hfree, hops, map_mapOp hcode]
  rw [lower_eq, Run.bind_of_ok hrun, himage]
  refine hwf.updateOffsets ?_
  rw [List.map_map]
  refine List.map_congr_left fun r _ => ?_
  exact Routine.size_mapOp (sel.code_canonical image.header) r

/-- **Lowering a file from symbolic form gives it back with canonical indices.** Of a file whose
functions and methods point at routines, symbolic form can be lowered exactly if no instantiation
has the index of a class whose name is ambiguous, or classes are left alone; then the indices into
the selected pools are the first with the same content, and all else is as before. -/
theorem lower_of_symbolize {order : Option ByteOrder} {bytes : List UInt8} {image image₁ : Image}
    (hdecode : Image.decode ⟨order, true⟩ bytes = .ok image) {sel : PassSelection}
    (hsymbolize : symbolize sel image = .ok () image₁) :
    ((∃ image₂, lower sel image₁ = .ok () image₂) ↔ (sel.classes = true → ¬image.UsesAmbiguous)) ∧
    ∀ image₂, lower sel image₁ = .ok () image₂ →
      image₂ = image.withRoutines
        (image.code.routines.map (List.map (Instr.mapOp (sel.canonical image.header)))) := by
  obtain ⟨-, hwf, -⟩ := decode_eq_ok_iff.1 hdecode
  have hgood := lower_of_not_usesAmbiguous hwf hsymbolize
  have hneeded : ∀ image₂, lower sel image₁ = .ok () image₂ → sel.classes = true →
      ¬image.UsesAmbiguous := by
    intro image₂ hlower hsel huse
    obtain ⟨code, hcode⟩ := exists_ops hwf.concrete
    have hspells := Spells.of_concrete hcode
    rw [symbolize_eq] at hsymbolize
    have hin : .classes ∈ sel.subjects := PassSelection.mem_subjects.2 hsel
    have hambiguous := (hspells.ambiguous_of_runAll_add hsymbolize).2 (Or.inr ⟨hin, huse⟩)
    obtain ⟨e, image', herror⟩ := (hspells.runAll_add hsymbolize).1.exists_error_of_ambiguous
      (List.mem_reverse.2 hin) hambiguous
    rw [lower_eq, Run.bind_of_error herror] at hlower
    cases hlower
  refine ⟨⟨fun ⟨image₂, hlower⟩ => hneeded image₂ hlower, fun h => ⟨_, hgood h⟩⟩, ?_⟩
  intro image₂ hlower
  have hsame := (hgood (hneeded image₂ hlower)).symm.trans hlower
  cases hsame
  rfl

/-- A file with strings, globals and classes that occur twice, and with an index beyond its table. -/
def duplicateSample : Image where
  header := { Header.empty .v41 with
    strings := .letters .p16z [97, 98, 97]
    globals := .letters .p8z [103, 103]
    classes := ⟨.one, [⟨.letter 67, [], []⟩, ⟨.letter 67, [], [⟨0, 59⟩]⟩,
      ⟨.letter 68, [], []⟩]⟩ }
  code :=
    { routines :=
        [[.op ⟨.pushString, (2, ())⟩, .op ⟨.pushString, (7, ())⟩, .op ⟨.pushVariable, (0x8001, ())⟩,
          .op ⟨.pushVariable, (1, ())⟩, .op (.newObject 2), .op .endRoutine]]
      offsets := [59]
      index := [(59, 0)]
      base := 59 }
  order := .big

theorem wellFormed_duplicateSample : duplicateSample.WellFormed true where
  storable := ⟨rfl, rfl, by decide, by decide⟩
  forms := ⟨rfl, rfl, rfl, fun p hp => by cases hp; rfl⟩
  ends := by decide
  concrete := by decide
  laidOut := rfl
  fits := by decide
  starts := fun _ _ ho => ho

theorem not_usesAmbiguous_duplicateSample : ¬duplicateSample.UsesAmbiguous := by
  rintro ⟨r, hr, index, c, hin, hc, hmany⟩
  obtain rfl := List.mem_singleton.1 hr
  have hindex : index = 2 := by
    simp at hin
    exact congrArg Prod.fst hin
  rw [hindex] at hc
  cases hc
  revert hmany
  decide

theorem lower_of_symbolize_duplicates :
    Image.decode .standard duplicateSample.stored = .ok duplicateSample ∧
      ∃ image₁, symbolize ⟨true, true, true, true, false, false⟩ duplicateSample = .ok () image₁ ∧
        lower ⟨true, true, true, true, false, false⟩ image₁ = .ok () (duplicateSample.withRoutines
          [[.op ⟨.pushString, (0, ())⟩, .op ⟨.pushString, (7, ())⟩, .op ⟨.pushVariable, (0x8000, ())⟩,
            .op ⟨.pushVariable, (1, ())⟩, .op (.newObject 2), .op .endRoutine]]) := by
  have hdecode : Image.decode .standard duplicateSample.stored = .ok duplicateSample :=
    decode_eq_ok_iff.2 ⟨by simp [DecodeOptions.standard], wellFormed_duplicateSample, rfl⟩
  refine ⟨hdecode, _, rfl, ?_⟩
  have h := @lower_of_symbolize _ _ _ _ hdecode ⟨true, true, true, true, false, false⟩ rfl
  obtain ⟨image₂, hlower⟩ := h.1.2 fun _ => not_usesAmbiguous_duplicateSample
  rw [hlower, h.2 image₂ hlower]
  rfl

end Image

end ScriptImage
