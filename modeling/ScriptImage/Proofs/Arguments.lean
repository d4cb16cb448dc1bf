import ScriptImage.Instr
import ScriptImage.Proofs.IntegerLiterals
import ScriptImage.Proofs.Runs
import ScriptImage.Proofs.StringLiterals

/-!
# Instructions and their arguments

A name with a list of cells is an instruction exactly if the cells have the types that the
instruction of that name declares, and then it is that instruction and no other:

    Instr.ofArgs name args = .ok i ↔ i.name = name ∧ i.args = args

Replacing one argument is building the instruction anew with one cell exchanged, so it succeeds
exactly if the new cell has the type of the old one.  Cells of integer and string types read back
from their texts, which makes the texts of the arguments another form of the instruction; only
floating-point operands are left out.
-/

namespace ScriptImage

/-! ## Texts of cells -/

/-- What is shown of a cell reads back, if it holds no floating-point number. -/
theorem CellType.parse_text {t : CellType} (h : t ≠ .float32 ∧ t ≠ .float64) (v : t.Carrier) :
    Cell.parse t (t.text v) = .ok ⟨t, v⟩ := by
  cases t with
  | float32 => exact absurd rfl h.1
  | float64 => exact absurd rfl h.2
  | string form =>
    have hparse : Cell.parse (.string form) ("" ++ v.quoted ++ "") = _ :=
      Cell.parse_quoted v nofun nofun
    rw [String.empty_append, String.append_empty] at hparse
    exact hparse
  | int8 | uint8 | int16 | uint16 | int32 | uint32 => exact parse_text_integer rfl v

/-! ## Names -/

theorem Opcode.mnemonic_inj {o o' : Opcode} (h : o'.mnemonic = o.mnemonic) : o' = o := by
  have hfind := congrArg Opcode.ofMnemonic? h
  rw [Opcode.ofMnemonic?_mnemonic, Opcode.ofMnemonic?_mnemonic] at hfind
  exact Option.some.inj hfind

theorem SymbolicKind.mnemonic_inj {k k' : SymbolicKind} (h : k'.mnemonic = k.mnemonic) : k' = k := by
  have hfind := congrArg SymbolicKind.ofMnemonic? h
  rw [SymbolicKind.ofMnemonic?_mnemonic, SymbolicKind.ofMnemonic?_mnemonic] at hfind
  exact Option.some.inj hfind

theorem SymbolicKind.opcode_mnemonic_ne (o : Opcode) (k : SymbolicKind) : o.mnemonic ≠ k.mnemonic := by
  intro h
  have hfind := congrArg Opcode.ofMnemonic? h
  rw [Opcode.ofMnemonic?_mnemonic, SymbolicKind.ofMnemonic?_opcode] at hfind
  cases hfind

namespace Instr

variable {i i' : Instr} {name : String} {args : List Cell} {k : Nat} {c : Cell}

/-! ## Building an instruction -/

theorem ofArgs_opcode (code : Opcode) (args : List Cell) :
    ofArgs code.mnemonic args = (Op.ofArgs code args).map op := by
  rw [ofArgs, Opcode.ofMnemonic?_mnemonic]

/-- Opcodes are looked up first, but none of them has this name. -/
theorem ofArgs_symbolicKind (kind : SymbolicKind) (args : List Cell) :
    ofArgs kind.mnemonic args = (Symbolic.ofArgs kind args).map symbolic := by
  rw [ofArgs, SymbolicKind.ofMnemonic?_opcode, SymbolicKind.ofMnemonic?_mnemonic]

theorem ofArgs_eq_ok_iff : ofArgs name args = .ok i ↔ i.name = name ∧ i.args = args := by
  constructor
  · intro h
    unfold ofArgs at h
    split at h
    · next code hcode =>
      obtain ⟨o, ho, rfl⟩ := Run.except_map_eq_ok_iff.1 h
      obtain ⟨rfl, hargs⟩ := Op.ofArgs_eq_ok_iff.1 ho
      exact ⟨Opcode.mnemonic_of_ofMnemonic? hcode, hargs⟩
    · split at h
      · next kind hkind =>
        obtain ⟨s, hs, rfl⟩ := Run.except_map_eq_ok_iff.1 h
        obtain ⟨rfl, hargs⟩ := Symbolic.ofArgs_eq_ok_iff.1 hs
        exact ⟨SymbolicKind.mnemonic_of_ofMnemonic? hkind, hargs⟩
      · cases h
  · rintro ⟨rfl, rfl⟩
    cases i with
    | op o =>
      rw [Instr.name, ofArgs_opcode, Instr.args, Op.ofArgs_eq_ok_iff.2 ⟨rfl, rfl⟩]
      rfl
    | symbolic s =>
      rw [Instr.name, ofArgs_symbolicKind, Instr.args, Symbolic.ofArgs_eq_ok_iff.2 ⟨rfl, rfl⟩]
      rfl

/-- Instructions of one name differ in their operands only. -/
theorem size_and_types_of_name (h : i'.name = i.name) :
    i'.size = i.size ∧ i'.argTypes = i.argTypes := by
  cases i with
  | op o =>
    cases i' with
    | op o' =>
      have hcode : o'.code = o.code := Opcode.mnemonic_inj h
      simp only [size, Op.size, argTypes, signature, hcode, and_self]
    | symbolic s' => exact absurd h.symm (SymbolicKind.opcode_mnemonic_ne o.code s'.kind)
  | symbolic s =>
    cases i' with
    | op o' => exact absurd h (SymbolicKind.opcode_mnemonic_ne o'.code s.kind)
    | symbolic s' =>
      have hkind : s'.kind = s.kind := SymbolicKind.mnemonic_inj h
      simp only [size, Symbolic.size, argTypes, signature, hkind, and_self]

theorem types_args (i : Instr) : i.args.map Cell.type = i.argTypes := by
  cases i with
  | op o => exact Operands.types_toCells o.operands
  | symbolic s => exact Operands.types_toCells s.operands

theorem length_args (i : Instr) : i.args.length = i.argTypes.length := by
  rw [← i.types_args, List.length_map]

/-- Cells of the declared types make an instruction. -/
theorem exists_ofArgs (h : args.map Cell.type = i.argTypes) : ∃ i', ofArgs i.name args = .ok i' := by
  cases i with
  | op o =>
    obtain ⟨xs, rfl⟩ := Operands.exists_toCells h
    exact ⟨op ⟨o.code, xs⟩, ofArgs_eq_ok_iff.2 ⟨rfl, rfl⟩⟩
  | symbolic s =>
    obtain ⟨xs, rfl⟩ := Operands.exists_toCells h
    exact ⟨symbolic ⟨s.kind, xs⟩, ofArgs_eq_ok_iff.2 ⟨rfl, rfl⟩⟩

/-- Under the name of an instruction, cells are refused for their number or their types only. -/
theorem kind_of_ofArgs {e : Error} (h : ofArgs i.name args = .error e) : e.kind = .value := by
  cases i with
  | op o =>
    rw [Instr.name, ofArgs_opcode, Op.ofArgs, Run.except_map_eq_error_iff,
      Run.except_map_eq_error_iff] at h
    exact Operands.kind_of_ofCells h
  | symbolic s =>
    rw [Instr.name, ofArgs_symbolicKind, Symbolic.ofArgs, Run.except_map_eq_error_iff,
      Run.except_map_eq_error_iff] at h
    exact Operands.kind_of_ofCells h

/-! ## One argument exchanged -/

theorem setArg_eq_ok_iff :
    i.setArg k c = .ok i' ↔ k < i.args.length ∧ i'.name = i.name ∧ i'.args = i.args.set k c := by
  unfold setArg
  split
  · next hk =>
    rw [ofArgs_eq_ok_iff]
    simp only [hk, true_and]
  · next hk => simp [hk]

/-- The new cell has the type of the old one, and no more is asked of it. -/
theorem exists_setArg_iff :
    (∃ i', i.setArg k c = .ok i') ↔ ∃ hk : k < i.argTypes.length, c.type = i.argTypes[k] := by
  constructor
  · -- the types of the new arguments are those of the old ones, also where the cell is new
    rintro ⟨i', h⟩
    obtain ⟨hk, hname, hargs⟩ := setArg_eq_ok_iff.1 h
    rw [length_args] at hk
    have htypes : i.argTypes.set k c.type = i.argTypes := by
      rw [← i.types_args, ← List.map_set, ← hargs, types_args, types_args,
        (size_and_types_of_name hname).2]
    refine ⟨hk, ?_⟩
    have hget : (i.argTypes.set k c.type)[k]? = i.argTypes[k]? := by rw [htypes]
    rw [List.getElem?_set_self hk, List.getElem?_eq_getElem hk] at hget
    exact Option.some.inj hget
  · rintro ⟨hk, htype⟩
    have htypes : (i.args.set k c).map Cell.type = i.argTypes := by
      rw [List.map_set, types_args, htype, List.set_getElem_self]
    obtain ⟨i', h⟩ := exists_ofArgs htypes
    rw [← length_args] at hk
    exact ⟨i', by rw [setArg, if_pos hk, h]⟩

theorem kind_of_setArg {e : Error} (h : i.setArg k c = .error e) :
    e.kind = if k < i.argTypes.length then .value else .range := by
  unfold setArg at h
  rw [length_args] at h
  split at h
  · next hk => rw [if_pos hk, kind_of_ofArgs h]
  · next hk =>
    cases h
    rw [if_neg hk]
    rfl

theorem assign_of_ok (h : i.setArg k c = .ok i') : assign k c i = .ok () i' := by
  have hget : (get : EStateM Error Instr Instr) i = .ok i i := rfl
  exact (Run.bind_of_ok hget).trans (by rw [h]; rfl)

theorem assign_of_error {e : Error} (h : i.setArg k c = .error e) : assign k c i = .error e i := by
  have hget : (get : EStateM Error Instr Instr) i = .ok i i := rfl
  exact (Run.bind_of_ok hget).trans (by rw [h]; rfl)

theorem assign_eq_ok_iff : assign k c i = .ok () i' ↔ i.setArg k c = .ok i' := by
  constructor
  · intro h
    cases hset : i.setArg k c with
    | ok j =>
      rw [assign_of_ok hset] at h
      rw [(EStateM.Result.ok.inj h).2]
    | error e =>
      rw [assign_of_error hset] at h
      cases h
  · exact assign_of_ok

/-- A refused exchange leaves the instruction as it was. -/
theorem assign_eq_error_iff {e : Error} :
    assign k c i = .error e i' ↔ i' = i ∧ i.setArg k c = .error e := by
  constructor
  · intro h
    cases hset : i.setArg k c with
    | ok j =>
      rw [assign_of_ok hset] at h
      cases h
    | error e' =>
      rw [assign_of_error hset] at h
      obtain ⟨rfl, rfl⟩ := EStateM.Result.error.inj h
      exact ⟨rfl, rfl⟩
  · rintro ⟨rfl, h⟩
    exact assign_of_error h

theorem exists_assign_error (h : ¬∃ i', assign k c i = .ok () i') : ∃ e, assign k c i = .error e i := by
  cases hset : i.setArg k c with
  | ok i' => exact absurd ⟨i', assign_of_ok hset⟩ h
  | error e => exact ⟨e, assign_of_error hset⟩

/-! ## Arguments as texts -/

/-- Arguments from texts, each of which is to be of the type that stands at its place. -/
def readTexts (types : List CellType) (texts : List String) : Except Error (List Cell) :=
  (types.zip texts).mapM fun p => Cell.parse p.1 p.2

theorem readTexts_texts (h : ∀ t ∈ i.argTypes, t ≠ .float32 ∧ t ≠ .float64) :
    readTexts i.argTypes (i.args.map Cell.text) = .ok i.args := by
  rw [readTexts, Run.mapM_eq_ok_iff, ← types_args, List.zip_map', List.map_map]
  refine List.map_congr_left fun c hc => ?_
  have htype : c.type ∈ i.argTypes := i.types_args ▸ List.mem_map_of_mem hc
  rw [Function.comp_apply]
  exact CellType.parse_text (h c.type htype) c.value

/-- **Instructions are names with well-typed arguments.**  What an instruction gives as its name and
its arguments makes that instruction, and nothing else does.  An argument is exchanged for any cell of
its type, and for no other; all else stays, and a refused exchange leaves the instruction as it was.
Without floating-point operands the texts of the arguments do for the arguments. -/
theorem arguments_exact (i : Instr) :
    ofArgs i.name i.args = .ok i ∧
    (∀ name args, ofArgs name args = .ok i → i.name = name ∧ i.args = args) ∧
    (∀ k c,
      ((∃ i', assign k c i = .ok () i') ↔ ∃ hk : k < i.argTypes.length, c.type = i.argTypes[k]) ∧
      (∀ i', assign k c i = .ok () i' →
        i'.args = i.args.set k c ∧ i'.name = i.name ∧ i'.size = i.size) ∧
      ∀ e i', assign k c i = .error e i' →
        i' = i ∧ e.kind = if k < i.argTypes.length then .value else .range) ∧
    ((∀ t ∈ i.argTypes, t ≠ .float32 ∧ t ≠ .float64) →
      (readTexts i.argTypes (i.args.map Cell.text) >>= ofArgs i.name) = .ok i) := by
  have hself : ofArgs i.name i.args = .ok i := ofArgs_eq_ok_iff.2 ⟨rfl, rfl⟩
  refine ⟨hself, fun _ _ => ofArgs_eq_ok_iff.1, fun k c => ⟨?_, fun i' h => ?_, fun e i' h => ?_⟩,
    fun hfloat => ?_⟩
  · simp only [assign_eq_ok_iff, exists_setArg_iff]
  · obtain ⟨-, hname, hargs⟩ := setArg_eq_ok_iff.1 (assign_eq_ok_iff.1 h)
    exact ⟨hargs, hname, (size_and_types_of_name hname).1⟩
  · obtain ⟨hi, hset⟩ := assign_eq_error_iff.1 h
    exact ⟨hi, kind_of_setArg hset⟩
  · rw [readTexts_texts hfloat]
    exact hself

/-- A call of the method `go`. -/
def sampleCall (argc : UInt8) : Instr :=
  .symbolic ⟨.callMethodNamed, (⟨[103, 111], of_decide_eq_true rfl⟩, argc, ())⟩

theorem arguments_exact_sampleCall :
    ofArgs "CallMethodNamed" (sampleCall 2).args = .ok (sampleCall 2) ∧
    (sampleCall 2).name = "CallMethodNamed" ∧
    assign 1 ⟨.uint8, (3 : UInt8)⟩ (sampleCall 2) = .ok () (sampleCall 3) ∧
    (sampleCall 3).size = (sampleCall 2).size ∧
    (∃ e, assign 1 ⟨.uint16, (3 : UInt16)⟩ (sampleCall 2) = .error e (sampleCall 2) ∧ e.kind = .value) ∧
    (∃ e, assign 2 ⟨.uint8, (3 : UInt8)⟩ (sampleCall 2) = .error e (sampleCall 2) ∧ e.kind = .range) ∧
    (readTexts [.string .p8z, .uint8] ["\"go\"", "2"] >>= ofArgs "CallMethodNamed") =
      .ok (sampleCall 2) := by
  obtain ⟨hself, hname, hassign, htexts⟩ := arguments_exact (sampleCall 2)
  have hset : assign 1 ⟨.uint8, (3 : UInt8)⟩ (sampleCall 2) = .ok () (sampleCall 3) :=
    assign_of_ok (setArg_eq_ok_iff.2 ⟨by decide, rfl, rfl⟩)
  refine ⟨hself, (hname _ _ hself).1, hset, ((hassign 1 _).2.1 _ hset).2.2, ?_, ?_, htexts (by decide)⟩
  · obtain ⟨hiff, -, herror⟩ := hassign 1 ⟨.uint16, (3 : UInt16)⟩
    obtain ⟨e, h⟩ := exists_assign_error fun hok => absurd (hiff.1 hok) (by decide)
    exact ⟨e, h, (herror _ _ h).2⟩
  · obtain ⟨hiff, -, herror⟩ := hassign 2 ⟨.uint8, (3 : UInt8)⟩
    obtain ⟨e, h⟩ := exists_assign_error fun hok => absurd (hiff.1 hok) (by decide)
    exact ⟨e, h, (herror _ _ h).2⟩

end Instr

end ScriptImage
