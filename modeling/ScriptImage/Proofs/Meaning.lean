import ScriptImage.Proofs.Respelling

/-!
# What symbolic code stands for

A symbolic instruction stands for a storable one.  Which one depends on the markers around
it and on the tables of the header; `Denotes` gives one rule for each kind of instruction.
`Image.StandsFor image code` says that the instructions of an image stand for the given
storable code and that no two markers share an identifier.

Passes are respellings.  Adding symbolic operands (`raising`) and removing them
(`lowering`) both keep what the image stands for:

    image.StandsFor code → image'.StandsFor code      (StandsFor.lowered)
-/

namespace ScriptImage

open Jumps (isMarker)

/-! ## Single instructions -/

/-- The pool that instructions of a kind refer to. -/
def Header.pool (h : Header) : PoolKind → StringPool
  | .strings => h.strings
  | .symbols => h.symbols
  | .globals => h.globals

/-- The pass that a pool belongs to. -/
def PoolKind.subject : PoolKind → Subject
  | strings => .strings
  | symbols => .symbols
  | globals => .globals

/-- The index of the first class with this name. -/
def ClassTable.firstIndex? (t : ClassTable) (name : List UInt8) : Option Nat :=
  t.entries.findIdx? fun c => c.name.bytes == name

/-- What the instructions of a routine can refer to. -/
structure Frame where
  header : Header
  /-- The position of the routine. -/
  start : Int
  /-- The size of the routine. -/
  size : Nat
  /-- The position after the last routine. -/
  finish : Int
  /-- The branch markers, with positions counted from the beginning of the routine. -/
  branches : List (UInt32 × Int)
  /-- The jump markers of all routines. -/
  jumps : List (UInt32 × Int)

/-- The storable instruction that an instruction at position `p` stands for; `feeds` tells whether
the instruction after it, markers left out, is a jump. -/
inductive Denotes (F : Frame) (p : Int) (feeds : Bool) : Instr → Op → Prop
  | op (o : Op) : Denotes F p feeds (.op o) o
  | jump {s : Symbolic} {target adjust : UInt32} {marker : Int} {d : Int32}
      (hs : s = .jumpPush target adjust) (hfeeds : feeds = true)
      (hmark : F.jumps.lookup target = some marker) (hend : marker + adjust.toNat ≤ F.finish)
      (hd : marker + adjust.toNat =
        p + Opcode.pushInt32.size + Opcode.jumpRelative.size + d.toInt) :
      Denotes F p feeds (.symbolic s) (.pushInt32 d)
  | branch {s : Symbolic} {c : Condition} {target adjust : UInt32} {marker : Int} {d : Int16}
      (hs : s.branch? = some (c, target, adjust)) (hmark : F.branches.lookup target = some marker)
      (hend : marker + adjust.toNat ≤ F.size)
      (hd : F.start + (marker + adjust.toNat) = p + (Op.branch c d).size + d.toInt) :
      Denotes F p feeds (.symbolic s) (.branch c d)
  | entry {s : Symbolic} {rule : Inlining.Rule} {form : StringForm} {text : ByteString form}
      {args : List Cell} {index : Nat} {raw : UInt16} {o : Op} (hrule : rule ∈ Inlining.rules)
      (hkind : s.kind = rule.kind) (hargs : s.args = ⟨.string form, text⟩ :: args)
      (hindex : (F.header.pool rule.pool).indexOf? text.bytes = some index)
      (hraw : Inlining.operandOf rule.pool index = .ok raw) (hcode : o.code = rule.code)
      (hoperands : o.args = ⟨.uint16, raw⟩ :: args) : Denotes F p feeds (.symbolic s) o
  | newObject {s : Symbolic} {name : Name} {index : Nat} (hs : s = .newObjectNamed name)
      (hindex : F.header.classes.firstIndex? name.bytes = some index) (hwidth : index < 65536) :
      Denotes F p feeds (.symbolic s) (.newObject (UInt16.ofNat index))

theorem isMarker_symbolic_iff {s : Symbolic} :
    isMarker (.symbolic s) = true ↔ s.kind = .jumpTarget ∨ s.kind = .branchTarget := by
  constructor
  · intro h
    obtain ⟨id, heq | heq⟩ := isMarker_iff.1 h
    · cases heq
      exact Or.inl rfl
    · cases heq
      exact Or.inr rfl
  · obtain ⟨kind, operands⟩ := s
    rintro (rfl | rfl)
    · rfl
    · rfl

/-- What the table of rules guarantees of each rule. -/
theorem Inlining.rule_spec {rule : Rule} (h : rule ∈ rules) :
    rule.kind.size = rule.code.size ∧ rule.code ≠ .jumpRelative ∧
      rule.kind.subject = rule.pool.subject := by
  have hall : ∀ rule ∈ rules, rule.kind.size = rule.code.size ∧ rule.code ≠ .jumpRelative ∧
      rule.kind.subject = rule.pool.subject := by
    decide
  exact hall rule h

theorem Inlining.rule_unique {a b : Rule} (ha : a ∈ rules) (hb : b ∈ rules) (h : a.kind = b.kind) :
    a = b := by
  simp only [rules, List.mem_cons, List.not_mem_nil, or_false] at ha hb
  rcases ha with rfl | rfl | rfl | rfl | rfl | rfl <;>
    rcases hb with rfl | rfl | rfl | rfl | rfl | rfl <;> first | rfl | cases h

theorem PoolKind.subject_ne (kind : PoolKind) :
    kind.subject ≠ .jumps ∧ kind.subject ≠ .branches ∧ kind.subject ≠ .classes := by
  cases kind <;> decide

theorem Symbolic.of_branch? {s : Symbolic} {c : Condition} {target adjust : UInt32}
    (h : s.branch? = some (c, target, adjust)) : s = .branchTo c target adjust := by
  unfold Symbolic.branch? at h
  split at h
  · cases h
    rfl
  · cases h
    rfl
  · cases h
    rfl
  · cases h

theorem Symbolic.subject_of_branch? {s : Symbolic} {c : Condition} {target adjust : UInt32}
    (h : s.branch? = some (c, target, adjust)) : s.kind.subject = .branches := by
  rw [Symbolic.of_branch? h]
  cases c <;> rfl

theorem Op.of_branch? {o : Op} {c : Condition} {d : Int16} (h : o.branch? = some (c, d)) :
    o = .branch c d := by
  unfold Op.branch? at h
  split at h
  · cases h
    rfl
  · cases h
    rfl
  · cases h
    rfl
  · cases h

theorem Op.ext_args {o o' : Op} (hcode : o.code = o'.code) (hargs : o.args = o'.args) : o = o' := by
  obtain ⟨code, xs⟩ := o
  obtain ⟨code', ys⟩ := o'
  obtain rfl : code = code' := hcode
  have hcells : Operands.toCells xs = Operands.toCells ys := hargs
  have h := Operands.ofCells?_toCells xs
  rw [hcells, Operands.ofCells?_toCells ys] at h
  rw [Option.some.inj h]

namespace Denotes

variable {F F' : Frame} {p : Int} {feeds : Bool} {i : Instr} {s : Symbolic} {o : Op}

theorem size (h : Denotes F p feeds i o) : i.size = o.size := by
  cases h with
  | op => rfl
  | jump hs =>
    rw [hs]
    rfl
  | @branch s c _ _ _ _ hs =>
    rw [Symbolic.of_branch? hs]
    cases c <;> rfl
  | entry hrule hkind _ _ _ hcode _ =>
    show SymbolicKind.size _ = Opcode.size _
    rw [hkind, hcode]
    exact (Inlining.rule_spec hrule).1
  | newObject hs =>
    rw [hs]
    rfl

theorem isMarker (h : Denotes F p feeds i o) : Jumps.isMarker i = false := by
  cases h with
  | op => rfl
  | jump hs =>
    rw [hs]
    rfl
  | @branch s c _ _ _ _ hs =>
    rw [Symbolic.of_branch? hs]
    cases c <;> rfl
  | @entry s rule _ _ _ _ _ _ hrule hkind =>
    rw [← Bool.not_eq_true, isMarker_symbolic_iff]
    have hsubject := (Inlining.rule_spec hrule).2.2
    obtain ⟨hj, hb, -⟩ := rule.pool.subject_ne
    rw [← hkind] at hsubject
    rw [← hsubject] at hj hb
    rintro (hk | hk)
    · exact hj (by rw [hk]; rfl)
    · exact hb (by rw [hk]; rfl)
  | newObject hs =>
    rw [hs]
    rfl

theorem op_eq {o' : Op} (h : Denotes F p feeds (.op o) o') : o' = o := by
  cases h
  rfl

/-- An instruction that belongs to a pool stands for an instruction with an index. -/
theorem entry_of_subject {kind : PoolKind} (h : Denotes F p feeds (.symbolic s) o)
    (hs : s.kind.subject = kind.subject) :
    ∃ rule ∈ Inlining.rules, rule.pool = kind ∧ s.kind = rule.kind ∧ ∃ form, ∃ text : ByteString form,
      ∃ args index raw, s.args = ⟨.string form, text⟩ :: args ∧
        (F.header.pool kind).indexOf? text.bytes = some index ∧
        Inlining.operandOf kind index = .ok raw ∧ o.code = rule.code ∧
        o.args = ⟨.uint16, raw⟩ :: args := by
  obtain ⟨hj, hb, hc⟩ := kind.subject_ne
  cases h with
  | jump hs' =>
    rw [hs'] at hs
    exact absurd hs.symm hj
  | branch hs' =>
    rw [Symbolic.subject_of_branch? hs'] at hs
    exact absurd hs.symm hb
  | @entry _ rule _ _ _ _ _ _ hrule hkind hargs hindex hraw hcode hoperands =>
    obtain rfl : rule.pool = kind := by
      have hsubject := (Inlining.rule_spec hrule).2.2
      rw [← hkind, hs] at hsubject
      cases kind <;> cases hp : rule.pool <;> rw [hp] at hsubject <;> first | rfl | cases hsubject
    exact ⟨rule, hrule, rfl, hkind, _, _, _, _, _, hargs, hindex, hraw, hcode, hoperands⟩
  | newObject hs' =>
    rw [hs'] at hs
    exact absurd hs.symm hc

theorem jump_of_subject (h : Denotes F p feeds (.symbolic s) o) (hs : s.kind.subject = .jumps) :
    ∃ target adjust marker d, s = .jumpPush target adjust ∧ feeds = true ∧
      F.jumps.lookup target = some marker ∧ marker + adjust.toNat ≤ F.finish ∧
      marker + adjust.toNat = p + Opcode.pushInt32.size + Opcode.jumpRelative.size + d.toInt ∧
      o = .pushInt32 d := by
  cases h with
  | jump hs' hfeeds hmark hend hd => exact ⟨_, _, _, _, hs', hfeeds, hmark, hend, hd, rfl⟩
  | branch hs' => cases (Symbolic.subject_of_branch? hs').symm.trans hs
  | @entry _ rule _ _ _ _ _ _ hrule hkind =>
    rw [hkind, (Inlining.rule_spec hrule).2.2] at hs
    exact absurd hs rule.pool.subject_ne.1
  | newObject hs' =>
    rw [hs'] at hs
    cases hs

theorem branch_of_subject (h : Denotes F p feeds (.symbolic s) o) (hs : s.kind.subject = .branches) :
    ∃ c target adjust marker d, s.branch? = some (c, target, adjust) ∧
      F.branches.lookup target = some marker ∧ marker + adjust.toNat ≤ F.size ∧
      F.start + (marker + adjust.toNat) = p + (Op.branch c d).size + d.toInt ∧ o = .branch c d := by
  cases h with
  | jump hs' =>
    rw [hs'] at hs
    cases hs
  | branch hs' hmark hend hd => exact ⟨_, _, _, _, _, hs', hmark, hend, hd, rfl⟩
  | @entry _ rule _ _ _ _ _ _ hrule hkind =>
    rw [hkind, (Inlining.rule_spec hrule).2.2] at hs
    exact absurd hs rule.pool.subject_ne.2.1
  | newObject hs' =>
    rw [hs'] at hs
    cases hs

theorem newObject_of_subject (h : Denotes F p feeds (.symbolic s) o) (hs : s.kind.subject = .classes) :
    ∃ name index, s = .newObjectNamed name ∧ F.header.classes.firstIndex? name.bytes = some index ∧
      index < 65536 ∧ o = .newObject (UInt16.ofNat index) := by
  cases h with
  | jump hs' =>
    rw [hs'] at hs
    cases hs
  | branch hs' => cases (Symbolic.subject_of_branch? hs').symm.trans hs
  | @entry _ rule _ _ _ _ _ _ hrule hkind =>
    rw [hkind, (Inlining.rule_spec hrule).2.2] at hs
    exact absurd hs rule.pool.subject_ne.2.2
  | newObject hs' hindex hwidth => exact ⟨_, _, hs', hindex, hwidth, rfl⟩

/-- An instruction stands for at most one storable instruction. -/
theorem unique {o' : Op} (h : Denotes F p feeds i o) (h' : Denotes F p feeds i o') : o = o' := by
  cases h with
  | op => exact h'.op_eq.symm
  | @jump _ _ _ _ d hs _ hmark _ hd =>
    obtain ⟨_, _, _, d', hs', -, hmark', -, hd', rfl⟩ := h'.jump_of_subject (by rw [hs]; rfl)
    rw [hs] at hs'
    cases hs'
    rw [hmark] at hmark'
    cases hmark'
    have hdd : d.toInt = d'.toInt := by omega
    rw [Int32.toInt_inj.1 hdd]
  | @branch _ c _ _ _ d hs hmark _ hd =>
    obtain ⟨_, _, _, _, d', hs', hmark', -, hd', rfl⟩ :=
      h'.branch_of_subject (Symbolic.subject_of_branch? hs)
    rw [hs] at hs'
    cases hs'
    rw [hmark] at hmark'
    cases hmark'
    have hsizes : (Op.branch c d).size = (Op.branch c d').size := by cases c <;> rfl
    have hdd : d.toInt = d'.toInt := by omega
    rw [Int16.toInt_inj.1 hdd]
  | @entry _ rule _ _ _ _ _ _ hrule hkind hargs hindex hraw hcode hoperands =>
    have hsubject := (Inlining.rule_spec hrule).2.2
    rw [← hkind] at hsubject
    obtain ⟨rule', hrule', -, hkind', form, text, args, index, raw, hargs', hindex', hraw', hcode',
      hoperands'⟩ := h'.entry_of_subject hsubject
    obtain rfl := Inlining.rule_unique hrule hrule' (hkind.symm.trans hkind')
    rw [hargs] at hargs'
    cases hargs'
    rw [hindex] at hindex'
    cases hindex'
    rw [hraw] at hraw'
    cases hraw'
    exact Op.ext_args (hcode.trans hcode'.symm) (hoperands.trans hoperands'.symm)
  | newObject hs hindex _ =>
    obtain ⟨_, _, hs', hindex', -, rfl⟩ := h'.newObject_of_subject (by rw [hs]; rfl)
    rw [hs] at hs'
    cases hs'
    rw [hindex] at hindex'
    cases hindex'
    rfl

/-- Only a jump stands for a jump. -/
theorem jumpRelative_iff (h : Denotes F p feeds i o) :
    o = .jumpRelative ↔ i = .op .jumpRelative := by
  constructor
  · intro ho
    cases h with
    | op => rw [ho]
    | jump => cases ho
    | @branch _ c => cases c <;> cases ho
    | entry hrule _ _ _ _ hcode _ =>
      rw [ho] at hcode
      exact absurd hcode.symm (Inlining.rule_spec hrule).2.1
    | newObject => cases ho
  · rintro rfl
    exact h.op_eq

/-- What an instruction stands for depends only on the markers of its own family. -/
theorem transfer (h : Denotes F p feeds i o) (hheader : F'.header = F.header)
    (hstart : F'.start = F.start) (hsize : F'.size = F.size) (hfinish : F'.finish = F.finish)
    (hjumps : i.subject? = some .jumps →
      ∀ id q, F.jumps.lookup id = some q → F'.jumps.lookup id = some q)
    (hbranches : i.subject? = some .branches →
      ∀ id q, F.branches.lookup id = some q → F'.branches.lookup id = some q) :
    Denotes F' p feeds i o := by
  cases h with
  | op => exact op _
  | jump hs hfeeds hmark hend hd =>
    refine jump hs hfeeds (hjumps ?_ _ _ hmark) ?_ hd
    · rw [hs]
      rfl
    · rw [hfinish]
      exact hend
  | branch hs hmark hend hd =>
    refine branch hs (hbranches ?_ _ _ hmark) ?_ ?_
    · exact congrArg some (Symbolic.subject_of_branch? hs)
    · rw [hsize]
      exact hend
    · rw [hstart]
      exact hd
  | entry hrule hkind hargs hindex hraw hcode hoperands =>
    refine entry hrule hkind hargs ?_ hraw hcode hoperands
    rw [hheader]
    exact hindex
  | newObject hs hindex hwidth =>
    refine newObject hs ?_ hwidth
    rw [hheader]
    exact hindex

end Denotes

/-! ## Routines -/

/-- The storable instructions that a routine stands for, markers left out. -/
inductive Means (F : Frame) : Int → Routine → List Op → Prop
  | nil {p : Int} : Means F p [] []
  | mark {p : Int} {m : Instr} {r : Routine} {os : List Op} (hm : isMarker m = true)
      (h : Means F p r os) : Means F p (m :: r) os
  | instr {p : Int} {i : Instr} {r : Routine} {o : Op} {os : List Op}
      (hi : Denotes F p r.feedsJump i o) (h : Means F (p + i.size) r os) :
      Means F p (i :: r) (o :: os)

namespace Means

variable {F F' : Frame} {p : Int} {r r' : Routine} {os : List Op}

theorem respelled {step : Spelling} {gone fresh : Instr → Prop} {f : Op → Op} (hstep : step.Faithful)
    (hdenotes : ∀ {q b i i' o}, isMarker i = false → step q b i i' → Denotes F q b i o →
      Denotes F' q b i' (f o))
    (hspell : Respelled step gone fresh p r r') (h : Means F p r os) : Means F' p r' (os.map f) := by
  induction hspell generalizing os with
  | nil =>
    cases h
    exact nil
  | keep hm _ _ ih =>
    cases h with
    | mark _ h => exact mark hm (ih h)
    | instr hi _ =>
      rw [hi.isMarker] at hm
      cases hm
  | drop hm _ _ ih =>
    cases h with
    | mark _ h => exact ih h
    | instr hi _ =>
      rw [hi.isMarker] at hm
      cases hm
  | insert hm _ _ ih => exact mark hm (ih h)
  | instr hi hs hrest ih =>
    cases h with
    | mark hm _ =>
      rw [hi] at hm
      cases hm
    | instr hd h =>
      have hd' := hdenotes hi hs hd
      rw [← hrest.feedsJump hstep] at hd'
      refine instr hd' ?_
      rw [hstep.size hs]
      exact ih h

/-- A routine without symbolic instructions stands for itself. -/
theorem eq_of_concrete (h : Means F p r os) (hr : r.Concrete) : r = os.map Instr.op := by
  induction h with
  | nil => rfl
  | mark hm _ _ =>
    obtain ⟨id, rfl | rfl⟩ := isMarker_iff.1 hm
    · cases hr _ List.mem_cons_self
    · cases hr _ List.mem_cons_self
  | @instr p i r o os hi _ ih =>
    rw [List.map_cons, ← ih fun j hj => hr j (List.mem_cons_of_mem _ hj)]
    cases i with
    | op o' => rw [hi.op_eq]
    | symbolic s => cases hr _ List.mem_cons_self

theorem of_ops (F : Frame) (p : Int) (os : List Op) : Means F p (os.map Instr.op) os := by
  induction os generalizing p with
  | nil => exact nil
  | cons o os ih => exact instr (Denotes.op o) (ih _)

end Means

/-! ## Images -/

namespace Image

/-- What the instructions of a routine of an image can refer to. -/
def frame (image : Image) (start : Int) (r : Routine) : Frame where
  header := image.header
  start := start
  size := r.size
  finish := image.code.base.toNat + image.code.size
  branches := r.marksFrom Instr.branchId? 0
  jumps := Jumps.markers image.code.base.toNat image.code.routines

/-- The image stands for this code, and no two markers share an identifier. -/
structure StandsFor (image : Image) (code : List (List Op)) : Prop where
  means : Along (fun start r os => Means (image.frame start r) start r os) image.code.base.toNat
    image.code.routines code
  jumpIds : (Routine.ids Instr.jumpId? image.code.routines).Nodup
  branchIds : (Routine.ids Instr.branchId? image.code.routines).Nodup

/-- Whether no instruction of the routines belongs to a pass. -/
def Free (s : Subject) (rs : List Routine) : Prop :=
  ∀ r ∈ rs, ∀ i ∈ r, i.subject? ≠ some s

theorem frame_finish (image : Image) (start : Int) (r : Routine) :
    (image.frame start r).finish =
      image.code.base.toNat + (image.code.routines.map Routine.size).sum := rfl

/-- Code without symbolic instructions stands for itself. -/
theorem standsFor_of_concrete {image : Image} {code : List (List Op)}
    (h : image.code.routines = code.map fun os => os.map Instr.op) : image.StandsFor code := by
  have hids : ∀ pick, PicksMarkers pick → Routine.ids pick image.code.routines = [] := by
    intro pick hpick
    refine List.flatMap_eq_nil_iff.2 fun r hr => List.filterMap_eq_nil_iff.2 fun i hi => ?_
    rw [h] at hr
    obtain ⟨os, -, rfl⟩ := List.mem_map.1 hr
    obtain ⟨o, -, rfl⟩ := List.mem_map.1 hi
    exact hpick _ rfl
  have hmeans : ∀ (F : Int → Routine → Frame) (p : Int) (code : List (List Op)),
      Along (fun start r os => Means (F start r) start r os) p
        (code.map fun os => os.map Instr.op) code := by
    intro F p code
    induction code generalizing p with
    | nil => exact Along.nil
    | cons os code ih => exact Along.cons (Means.of_ops _ _ os) (ih _)
  refine ⟨?_, ?_, ?_⟩
  · have := hmeans image.frame image.code.base.toNat code
    rwa [← h] at this
  · rw [hids _ picksMarkers_jumpId?]
    exact List.nodup_nil
  · rw [hids _ picksMarkers_branchId?]
    exact List.nodup_nil

/-- An image in which no instruction belongs to any pass is the code that it stands for. -/
theorem StandsFor.eq_of_free {image : Image} {code : List (List Op)} (h : image.StandsFor code)
    (hfree : ∀ s, Free s image.code.routines) :
    image.code.routines = code.map fun os => os.map Instr.op := by
  have hconcrete : ∀ r ∈ image.code.routines, r.Concrete := by
    intro r hr i hi
    cases i with
    | op o => rfl
    | symbolic s => exact absurd rfl (hfree s.kind.subject r hr _ hi)
  exact h.means.eq_map fun hr hm => hm.eq_of_concrete (hconcrete _ hr)

end Image

/-! ## Removing symbolic operands -/

/-- Instructions that belong to a pass are spelled as what they stand for. -/
def lowering (s : Subject) (F : Frame) : Spelling := fun p b i i' =>
  (i.subject? ≠ some s ∧ i' = i) ∨ (i.subject? = some s ∧ ∃ o, Denotes F p b i o ∧ i' = .op o)

theorem lowering_faithful (s : Subject) (F : Frame) : (lowering s F).Faithful where
  size := by
    rintro p b i i' (⟨-, rfl⟩ | ⟨-, o, ho, rfl⟩)
    · rfl
    · exact ho.size.symm
  marker := by
    rintro p b i i' hi (⟨-, rfl⟩ | ⟨-, o, ho, rfl⟩)
    · exact hi
    · rfl
  jump := by
    rintro p b i i' (⟨-, rfl⟩ | ⟨-, o, ho, rfl⟩)
    · exact Iff.rfl
    · rw [← ho.jumpRelative_iff, Instr.op.injEq]

namespace Image

/-- Of two images the second has the instructions of a pass lowered, its markers dropped, and all
else unchanged. -/
structure Lowered (s : Subject) (image image' : Image) : Prop where
  same : image' = image.withRoutines image'.code.routines
  respelled : Along (fun start r r' => Respelled (lowering s (image.frame start r))
    (fun m => m.subject? = some s) (fun _ => False) start r r') image.code.base.toNat
    image.code.routines image'.code.routines

theorem jumpId?_eq_none {m : Instr} (h : m.subject? ≠ some .jumps) : m.jumpId? = none := by
  unfold Instr.jumpId?
  split
  · exact absurd rfl h
  · rfl

theorem branchId?_eq_none {m : Instr} (h : m.subject? ≠ some .branches) : m.branchId? = none := by
  unfold Instr.branchId?
  split
  · exact absurd rfl h
  · rfl

theorem jumpMarkers_of_ne {step : Frame → Spelling} {F : Int → Routine → Routine → Frame}
    {gone fresh : Instr → Prop} {p : Int} {rs rs' : List Routine} (hstep : ∀ F, (step F).Faithful)
    (hgone : ∀ m, gone m → m.subject? ≠ some .jumps)
    (hfresh : ∀ m, fresh m → m.subject? ≠ some .jumps)
    (h : Along (fun start r r' => Respelled (step (F start r r')) gone fresh start r r') p rs rs') :
    Jumps.markers p rs' = Jumps.markers p rs := by
  refine h.jumpMarkers_eq (fun hr => hr.size (hstep _)) fun hr => ?_
  exact hr.marksFrom (hstep _) picksMarkers_jumpId? (fun m hm => jumpId?_eq_none (hgone m hm))
    (fun m hm => jumpId?_eq_none (hfresh m hm)) _

/-- A removing pass keeps what the image stands for. -/
theorem StandsFor.lowered {s : Subject} {image image' : Image} {code : List (List Op)}
    (h : image.StandsFor code) (hl : Lowered s image image') : image'.StandsFor code := by
  have hbase : image'.code.base = image.code.base := by rw [hl.same]; rfl
  have hheader : image'.header = image.header := by rw [hl.same]; rfl
  have hsize : ∀ {start : Int} {r r' : Routine}, Respelled (lowering s (image.frame start r))
      (fun m => m.subject? = some s) (fun _ => False) start r r' → r'.size = r.size :=
    fun hr => hr.size (lowering_faithful _ _)
  have hcode : image'.code.size = image.code.size := by
    unfold Code.size
    rw [hl.respelled.map_congr Routine.size hsize]
  -- the markers of the other family stay
  have hjumps : s ≠ .jumps → Jumps.markers image'.code.base.toNat image'.code.routines =
      Jumps.markers image.code.base.toNat image.code.routines := by
    intro hs
    rw [hbase]
    refine jumpMarkers_of_ne (lowering_faithful s) ?_ (fun _ hf => hf.elim) hl.respelled
    intro m hm
    rw [hm]
    exact fun h => hs (Option.some.inj h)
  refine ⟨?_, ?_, ?_⟩
  · suffices hmeans : Along (fun start r os => Means (image'.frame start r) start r os)
        image.code.base.toNat image'.code.routines (code.map (List.map id)) by
      rw [hbase]
      simpa using hmeans
    refine Along.trans hsize ?_ hl.respelled h.means
    · intro start r r' os hr hm
      refine Means.respelled (lowering_faithful s (image.frame start r)) ?_ hr hm
      rintro q b i i' o - hstep ho
      rcases hstep with ⟨hsubject, rfl⟩ | ⟨-, o', ho', rfl⟩
      · refine ho.transfer hheader rfl (hsize hr) ?_ ?_ ?_
        · show ((image'.code.base.toNat : Int) + image'.code.size) = _
          rw [hbase, hcode]
          rfl
        · intro hi id q hq
          show (Jumps.markers image'.code.base.toNat image'.code.routines).lookup id = some q
          rw [hjumps fun hs => hsubject (by rw [hi, hs])]
          exact hq
        · intro hi id q hq
          show (r'.marksFrom Instr.branchId? 0).lookup id = some q
          rw [hr.marksFrom (lowering_faithful _ _) picksMarkers_branchId? ?_ (fun _ hf => hf.elim)]
          · exact hq
          · intro m hm
            refine branchId?_eq_none ?_
            rw [hm, ← hi]
            exact fun h => hsubject h.symm
      · rw [ho.unique ho']
        exact Denotes.op o'
  · exact h.jumpIds.sublist (hl.respelled.sublist_ids fun hr =>
      hr.sublist_ids (lowering_faithful _ _) picksMarkers_jumpId?)
  · exact h.branchIds.sublist (hl.respelled.sublist_ids fun hr =>
      hr.sublist_ids (lowering_faithful _ _) picksMarkers_branchId?)

/-- Of lowered routines no instruction belongs to the pass. -/
theorem Free.of_lowered {s : Subject} {F : Int → Routine → Frame} {p : Int} {rs rs' : List Routine}
    (h : Along (fun start r r' => Respelled (lowering s (F start r)) (fun m => m.subject? = some s)
      (fun _ => False) start r r') p rs rs') : Free s rs' := by
  intro r' hr' i' hi'
  obtain ⟨start, r, -, hr⟩ := h.exists_of_mem hr'
  rcases hr.mem hi' with ⟨-, hkept, -⟩ | ⟨-, hf⟩ | ⟨q, b, i, -, -, hstep⟩
  · exact hkept
  · exact hf.elim
  · rcases hstep with ⟨hsubject, rfl⟩ | ⟨-, o, -, rfl⟩
    · exact hsubject
    · exact nofun

theorem Lowered.free {s : Subject} {image image' : Image} (h : Lowered s image image') :
    Free s image'.code.routines :=
  Free.of_lowered h.respelled

/-- A removing pass adds no symbolic instructions. -/
theorem Lowered.mem {s : Subject} {image image' : Image} (h : Lowered s image image') {r' : Routine}
    (hr' : r' ∈ image'.code.routines) {s' : Symbolic} (hs' : .symbolic s' ∈ r') :
    ∃ r ∈ image.code.routines, .symbolic s' ∈ r := by
  obtain ⟨start, r, hmem, hr⟩ := h.respelled.exists_of_mem hr'
  refine ⟨r, hmem, ?_⟩
  rcases hr.mem hs' with ⟨-, -, hin⟩ | ⟨-, hf⟩ | ⟨q, b, i, hin, -, hstep⟩
  · exact hin
  · exact hf.elim
  · rcases hstep with ⟨-, rfl⟩ | ⟨-, o, -, heq⟩
    · exact hin
    · cases heq

/-- A removing pass keeps the symbolic instructions that do not belong to it. -/
theorem Lowered.exists_of_mem {s : Subject} {image image' : Image} (h : Lowered s image image')
    {r : Routine} (hr : r ∈ image.code.routines) {i : Instr} (hi : i ∈ r) (hm : isMarker i = false)
    (hs : i.subject? ≠ some s) : ∃ r' ∈ image'.code.routines, i ∈ r' := by
  obtain ⟨start, r', hr', hspell⟩ := h.respelled.exists_right_of_mem hr
  obtain ⟨q, b, i', hi', hstep⟩ := hspell.exists_of_mem hi hm
  rcases hstep with ⟨-, rfl⟩ | ⟨hsubject, -⟩
  · exact ⟨r', hr', hi'⟩
  · exact absurd hsubject hs

theorem Lowered.free_of_free {s t : Subject} {image image' : Image} (h : Lowered s image image')
    (hfree : Free t image.code.routines) : Free t image'.code.routines := by
  intro r' hr' i' hi'
  cases i' with
  | op o => exact nofun
  | symbolic s' =>
    obtain ⟨r, hr, hin⟩ := h.mem hr' hi'
    exact hfree r hr _ hin

end Image

/-! ## Adding symbolic operands -/

/-- Some storable instructions are spelled symbolically, for a pass; they then stand for the
instruction that `f` makes of them, and `f` keeps those that are not spelled differently. -/
def raising (s : Subject) (f : Op → Op) (F : Frame) : Spelling := fun p b i i' =>
  (i' = i ∧ ∀ o, i = .op o → f o = o) ∨
    ∃ o, i = .op o ∧ i'.subject? = some s ∧ Denotes F p b i' (f o)

/-- A change of storable instructions that keeps their sizes and keeps jumps. -/
structure Op.Harmless (f : Op → Op) : Prop where
  size : ∀ o, (f o).size = o.size
  jump : ∀ o, f o = .jumpRelative ↔ o = .jumpRelative

theorem Op.harmless_id : Op.Harmless id :=
  ⟨fun _ => rfl, fun _ => Iff.rfl⟩

theorem raising_faithful (s : Subject) {f : Op → Op} (hf : Op.Harmless f) (F : Frame) :
    (raising s f F).Faithful where
  size := by
    rintro p b i i' (⟨rfl, -⟩ | ⟨o, rfl, -, hd⟩)
    · rfl
    · rw [hd.size, hf.size]
      rfl
  marker := by
    rintro p b i i' hi (⟨rfl, -⟩ | ⟨o, rfl, -, hd⟩)
    · exact hi
    · exact hd.isMarker
  jump := by
    rintro p b i i' (⟨rfl, -⟩ | ⟨o, rfl, -, hd⟩)
    · exact Iff.rfl
    · rw [← hd.jumpRelative_iff, hf.jump, Instr.op.injEq]

namespace Image

/-- Each reference that is resolved by the first list is resolved alike by the second. -/
def Extends (xs ys : List (UInt32 × Int)) : Prop :=
  ∀ id q, xs.lookup id = some q → ys.lookup id = some q

theorem Extends.of_eq {xs ys : List (UInt32 × Int)} (h : ys = xs) : Extends xs ys := by
  intro id q hq
  rw [h]
  exact hq

/-- Of two images the second has instructions of a pass spelled symbolically, with new markers, and
all else unchanged. References that could be resolved still can, and identifiers are distinct. -/
structure Raised (s : Subject) (f : Op → Op) (image image' : Image) : Prop where
  same : image' = image.withRoutines image'.code.routines
  respelled : Along (fun start r r' => Respelled (raising s f (image'.frame start r'))
    (fun _ => False) (fun m => m.subject? = some s) start r r' ∧
      Extends (r.marksFrom Instr.branchId? 0) (r'.marksFrom Instr.branchId? 0))
    image.code.base.toNat image.code.routines image'.code.routines
  jumps : Extends (Jumps.markers image.code.base.toNat image.code.routines)
    (Jumps.markers image.code.base.toNat image'.code.routines)
  jumpIds : (Routine.ids Instr.jumpId? image'.code.routines).Nodup
  branchIds : (Routine.ids Instr.branchId? image'.code.routines).Nodup

/-- An adding pass changes what the image stands for by `f`, if `f` keeps what symbolic instructions
stand for. -/
theorem StandsFor.raised {s : Subject} {f : Op → Op} {image image' : Image} {code : List (List Op)}
    (hf : Op.Harmless f)
    (hkeeps : ∀ {start r p b s o}, Denotes (image.frame start r) p b (.symbolic s) o → f o = o)
    (h : image.StandsFor code) (hr : Raised s f image image') :
    image'.StandsFor (code.map (List.map f)) := by
  have hbase : image'.code.base = image.code.base := by rw [hr.same]; rfl
  have hheader : image'.header = image.header := by rw [hr.same]; rfl
  have hcode : image'.code.size = image.code.size := by
    unfold Code.size
    rw [hr.respelled.map_congr Routine.size fun hr => hr.1.size (raising_faithful s hf _)]
  refine ⟨?_, hr.jumpIds, hr.branchIds⟩
  rw [hbase]
  refine Along.trans (fun hr => hr.1.size (raising_faithful s hf _)) ?_ hr.respelled h.means
  intro start r r' os hspell hm
  refine Means.respelled (raising_faithful s hf (image'.frame start r')) ?_ hspell.1 hm
  rintro q b i i' o - hstep ho
  rcases hstep with ⟨rfl, hkept⟩ | ⟨o', rfl, -, hd⟩
  · have hfo : f o = o := by
      cases i' with
      | op o' =>
        rw [ho.op_eq]
        exact hkept o' rfl
      | symbolic s' => exact hkeeps ho
    rw [hfo]
    refine ho.transfer hheader rfl (hspell.1.size (raising_faithful s hf _)) ?_ ?_ ?_
    · show ((image'.code.base.toNat : Int) + image'.code.size) = _
      rw [hbase, hcode]
      rfl
    · intro _ id q hq
      show (Jumps.markers image'.code.base.toNat image'.code.routines).lookup id = some q
      rw [hbase]
      exact hr.jumps id q hq
    · intro _ id q hq
      exact hspell.2 id q hq
  · rw [ho.op_eq]
    exact hd

/-- What does not belong to an adding pass was there before. -/
theorem Raised.mem {s : Subject} {f : Op → Op} {image image' : Image} (h : Raised s f image image')
    {r' : Routine} (hr' : r' ∈ image'.code.routines) {i' : Instr} (hi' : i' ∈ r')
    (hs : i'.subject? ≠ some s) : ∃ r ∈ image.code.routines, i' ∈ r := by
  obtain ⟨start, r, hmem, hr, -⟩ := h.respelled.exists_of_mem hr'
  refine ⟨r, hmem, ?_⟩
  rcases hr.mem hi' with ⟨-, -, hin⟩ | ⟨-, hf⟩ | ⟨q, b, i, hin, -, hstep⟩
  · exact hin
  · exact absurd hf hs
  · rcases hstep with ⟨rfl, -⟩ | ⟨o, -, hsubject, -⟩
    · exact hin
    · exact absurd hsubject hs

theorem Raised.free_of_free {s t : Subject} {f : Op → Op} {image image' : Image} (hst : s ≠ t)
    (h : Raised s f image image') (hfree : Free t image.code.routines) :
    Free t image'.code.routines := by
  intro r' hr' i' hi' hsubject
  have hne : i'.subject? ≠ some s := by
    rw [hsubject]
    exact fun heq => hst (Option.some.inj heq).symm
  obtain ⟨r, hr, hin⟩ := h.mem hr' hi' hne
  exact hfree r hr i' hin hsubject

/-- Passes without markers of their own. -/
theorem Raised.of_unmarked {s : Subject} {f : Op → Op} {image : Image} {code : List (List Op)}
    {rs' : List Routine} (hf : Op.Harmless f) (h : image.StandsFor code)
    (hspell : Along (fun start r r' => Respelled (raising s f ((image.withRoutines rs').frame start r'))
      (fun _ => False) (fun _ => False) start r r') image.code.base.toNat image.code.routines rs') :
    Raised s f image (image.withRoutines rs') where
  same := rfl
  respelled := by
    refine hspell.imp fun hr => ⟨?_, ?_⟩
    · exact hr.mono (fun _ hs => hs) (fun _ => Iff.rfl) (fun _ hf => hf.elim)
    · exact Extends.of_eq (hr.marksFrom (raising_faithful s hf _) picksMarkers_branchId?
        (fun _ hf => hf.elim) (fun _ hf => hf.elim) 0)
  jumps := by
    refine Extends.of_eq (hspell.jumpMarkers_eq (fun hr => hr.size (raising_faithful s hf _)) ?_)
    intro p r r' hr
    exact hr.marksFrom (raising_faithful s hf _) picksMarkers_jumpId? (fun _ hf => hf.elim)
      (fun _ hf => hf.elim) p
  jumpIds := by
    show (Routine.ids Instr.jumpId? rs').Nodup
    rw [hspell.ids_eq fun hr => hr.filterMap_ids (raising_faithful s hf _) picksMarkers_jumpId?
      (fun _ hf => hf.elim) (fun _ hf => hf.elim)]
    exact h.jumpIds
  branchIds := by
    show (Routine.ids Instr.branchId? rs').Nodup
    rw [hspell.ids_eq fun hr => hr.filterMap_ids (raising_faithful s hf _) picksMarkers_branchId?
      (fun _ hf => hf.elim) (fun _ hf => hf.elim)]
    exact h.branchIds

end Image

end ScriptImage
