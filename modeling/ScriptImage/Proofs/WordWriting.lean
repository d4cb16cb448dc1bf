import Mathlib.Algebra.BigOperators.Group.List.Basic
import ScriptImage.Machine.Serving
import ScriptImage.Proofs.Reading
import ScriptImage.Proofs.Storing
import ScriptImage.Proofs.WordAccess

/-!
# Writers cause no fault

Writing a structure in word arithmetic leaves the bytes of its encoding, and fails as the
encoding does.  `Stores order m e n` says so of a computation `m`, an encoding `e` and the number
`n` of bytes that were found to fit beforehand:

    e.bytes.length ≤ n        and, if n bytes fit,        m f = f with e.bytes from its cursor on

The first part is why no check within a structure refuses anything: the sizes that are announced
cover what is written.
-/

namespace ScriptImage

namespace Encoding

theorem append_assoc (a b c : Encoding) : a ++ b ++ c = a ++ (b ++ c) := by
  cases ha : a.failure with
  | some e => rw [append_fail a e b ha, append_fail a e c ha, append_fail a e (b ++ c) ha]
  | none =>
    rw [append_ok a b ha, append_ok a (b ++ c) ha]
    cases hb : b.failure with
    | some e => rw [append_fail b e c hb, append_fail ⟨a.bytes ++ b.bytes, some e⟩ e c rfl, hb]
    | none => rw [append_ok b c hb, append_ok ⟨a.bytes ++ b.bytes, none⟩ c rfl, List.append_assoc]

theorem length_of_announced {size : Nat} {e : Encoding} (h : (announced size e).failure = none) :
    e.bytes.length = size := by
  unfold announced at h
  by_cases hlength : e.bytes.length = size
  · exact hlength
  · cases hfailure : e.failure with
    | none =>
      simp only [hfailure, if_neg hlength] at h
      cases h
    | some err =>
      simp only [hfailure] at h
      cases h

theorem bytes_announced (size : Nat) (e : Encoding) : (announced size e).bytes = e.bytes := by
  unfold announced
  split
  · rfl
  · split <;> rfl

end Encoding

theorem Memory.store_nil (m : Memory) (k p : Nat) : m.store k p [] = m := by
  have hsplice : (fun content => splice content p []) = id := by
    funext content
    simp [splice]
  unfold store
  rw [hsplice, List.modify_id]

namespace Focus

/-- With bytes written at the cursor and the cursor behind them. -/
def write (f : Focus) (bytes : List UInt8) : Focus :=
  (f.store f.window.offset bytes).seek (f.window.offset + bytes.length)

variable {f : Focus} {bytes more : List UInt8}

theorem write_nil (f : Focus) : f.write [] = f := by
  unfold write store
  rw [Memory.store_nil]
  rfl

theorem Sound.follows_write (hf : f.Sound) (h : f.window.offset + bytes.length ≤ f.window.length) :
    f.Follows (f.write bytes) :=
  (hf.follows_store h).trans (follows_seek h)

theorem Sound.write_write (hf : f.Sound)
    (h : f.window.offset + bytes.length + more.length ≤ f.window.length) :
    (f.write bytes).write more = f.write (bytes ++ more) := by
  have hrange := hf.window.range
  have hfits : f.window.start + f.window.offset + bytes.length + more.length ≤
      (f.memory.buffer f.window.buffer).length := by omega
  have hstore := Memory.store_store hfits
  rw [Nat.add_assoc f.window.start] at hstore
  show Focus.mk _ _ = Focus.mk _ _
  congr 1
  show { f.window with offset := f.window.offset + bytes.length + more.length } =
    { f.window with offset := f.window.offset + (bytes ++ more).length }
  rw [List.length_append, Nat.add_assoc]

end Focus

namespace MachineM

open Fault

variable {α : Type} {order : ByteOrder} {m : MachineM Unit} {e : Encoding} {n : Nat}

/-- Where `n` bytes fit, the computation leaves the bytes of the encoding, which are no more, and
fails as the encoding does. -/
def Stores (order : ByteOrder) (m : MachineM Unit) (e : Encoding) (n : Nat) : Prop :=
  e.bytes.length ≤ n ∧
    ∀ f : Focus, f.Sound → f.window.order = order → f.window.readOnly = false →
      f.window.offset + n ≤ f.window.length →
        (e.failure = none → m f = .ok () (f.write e.bytes)) ∧
        ∀ err, e.failure = some err →
          ∃ f', m f = .error (.refused err) f' ∧ f'.memory = (f.write e.bytes).memory

/-! ## Compositions -/

theorem Stores.cast {e' : Encoding} {n' : Nat} (h : Stores order m e n) (he : e = e') (hn : n ≤ n') :
    Stores order m e' n' := by
  subst he
  exact ⟨Nat.le_trans h.1 hn, fun f hf horder hw hfits => h.2 f hf horder hw (by omega)⟩

theorem stores_pure (order : ByteOrder) (n : Nat) : Stores order (pure ()) .empty n := by
  refine ⟨Nat.zero_le n, fun f _ _ _ _ => ⟨fun _ => ?_, fun err herr => ?_⟩⟩
  · show EStateM.Result.ok () f = .ok () (f.write [])
    rw [f.write_nil]
  · cases herr

theorem stores_throw (order : ByteOrder) (err : Error) (n : Nat) :
    Stores order (throw (.refused err)) (.fail err) n := by
  refine ⟨Nat.zero_le n, fun f _ _ _ _ => ⟨nofun, fun err' herr => ?_⟩⟩
  cases herr
  refine ⟨f, rfl, ?_⟩
  show f.memory = (f.write []).memory
  rw [f.write_nil]

theorem Stores.append {m' : MachineM Unit} {e' : Encoding} {n' : Nat} (h : Stores order m e n)
    (h' : Stores order m' e' n') : Stores order (do m; m') (e ++ e') (n + n') := by
  obtain ⟨hbytes, hrun⟩ := h
  obtain ⟨hbytes', hrun'⟩ := h'
  cases hfailure : e.failure with
  | some err =>
    rw [Encoding.append_fail e err e' hfailure]
    refine ⟨by omega, fun f hf horder hw hfits => ⟨fun hnone => ?_, fun err' herr => ?_⟩⟩
    · rw [hfailure] at hnone
      cases hnone
    · obtain ⟨f', hfail, hmemory⟩ := (hrun f hf horder hw (by omega)).2 err' herr
      exact ⟨f', Run.bind_of_error hfail, hmemory⟩
  | none =>
    rw [Encoding.append_ok e e' hfailure]
    refine ⟨by rw [List.length_append]; omega, fun f hf horder hw hfits => ?_⟩
    have hfirst := (hrun f hf horder hw (by omega)).1 hfailure
    have hfirstfits : f.window.offset + e.bytes.length ≤ f.window.length := by omega
    have hsound := (hf.follows_write hfirstfits).sound hf
    have hoffset : (f.write e.bytes).window.offset + n' ≤ (f.write e.bytes).window.length := by
      show f.window.offset + e.bytes.length + n' ≤ f.window.length
      omega
    have hsecond := hrun' (f.write e.bytes) hsound horder hw hoffset
    rw [hf.write_write (by omega)] at hsecond
    show ((_ : Option Error) = none → _) ∧ _
    rw [Run.bind_of_ok hfirst]
    exact hsecond

theorem Stores.concat {β : Type} {m : β → MachineM Unit} {e : β → Encoding} {n : β → Nat}
    (h : ∀ x, Stores order (m x) (e x) (n x)) (xs : List β) :
    Stores order (xs.forM m) (.concat (xs.map e)) (xs.map n).sum := by
  induction xs with
  | nil => exact stores_pure order 0
  | cons x xs ih => exact (h x).append ih

/-- A structure whose announced size is a word is written through a window on the rest, if the window
may be written and the size fits. -/
theorem writeStructure_eq {f : Focus} {size : Nat} (m : MachineM Unit) (hf : f.Sound)
    (hsize : size < wordLimit) :
    writeStructure size m f =
      if f.window.readOnly = true then .error (.refused (.readOnlyWindow .wholeWrite)) f
      else if f.window.offset + size ≤ f.window.length then
        (do
          let (_, used) ← within f.rest.window m
          if used = size then advance size
          else throw (.refused (.announcedSize size used)) : MachineM Unit) f
      else .error (.refused (.outsideWindow .wholeWrite size f.window.offset f.window.length)) f := by
  have hwritable := checkWritable_eq .wholeWrite f
  have hsum : plus 0 size f = .ok size f := by
    have h := plus_of_lt (a := 0) (b := size) (by omega) f
    rwa [Nat.zero_add] at h
  have hcheck := checkRange_eq hf .wholeWrite f.window.offset size
  unfold writeStructure
  by_cases hw : f.window.readOnly = true
  · rw [if_pos hw] at hwritable ⊢
    exact Run.bind_of_error hwritable
  · rw [if_neg hw] at hwritable ⊢
    rw [Run.bind_of_ok hwritable, Run.bind_of_ok hsum, Run.bind_of_ok (window_eq f)]
    by_cases hfits : f.window.offset + size ≤ f.window.length
    · rw [if_pos hfits] at hcheck ⊢
      rw [Run.bind_of_ok hcheck, Run.bind_of_ok (rest_eq hf)]
    · rw [if_neg hfits] at hcheck ⊢
      exact Run.bind_of_error hcheck

theorem writeStructure_of_fits {f : Focus} {size : Nat} (m : MachineM Unit) (hf : f.Sound)
    (hw : f.window.readOnly = false) (hsize : f.window.offset + size ≤ f.window.length) :
    writeStructure size m f =
      (do
        let (_, used) ← within f.rest.window m
        if used = size then advance size
        else throw (.refused (.announcedSize size used)) : MachineM Unit) f := by
  obtain ⟨-, -, hwords⟩ := hf.bounds
  rw [writeStructure_eq m hf (by omega), hw, if_neg Bool.false_ne_true, if_pos hsize]

/-- What is written is the encoding, and its size is then compared with the announced one. -/
theorem writeStructure_of_stores {f : Focus} {size : Nat} (h : Stores order m e n) (hf : f.Sound)
    (horder : f.window.order = order) (hw : f.window.readOnly = false)
    (hsize : f.window.offset + size ≤ f.window.length) (hn : f.window.offset + n ≤ f.window.length) :
    writeStructure size m f =
      match (Encoding.announced size e).failure with
      | some err => .error (.refused err) (f.store f.window.offset e.bytes)
      | none => .ok () ((f.store f.window.offset e.bytes).seek (f.window.offset + size)) := by
  rw [writeStructure_of_fits m hf hw hsize]
  -- the window of the structure begins at the cursor
  have hrestOnly : f.rest.window.readOnly = false := by rw [f.readOnly_rest, hw]
  have hfits : 0 + n ≤ f.window.length - f.window.offset := by omega
  obtain ⟨hok, herror⟩ := h.2 f.rest hf.rest horder hrestOnly hfits
  cases hfailure : e.failure with
  | some err =>
    obtain ⟨f', hrun, hmemory⟩ := herror err hfailure
    have hwithin : within f.rest.window m f =
        .error (.refused err) (f.store f.window.offset e.bytes) := by
      rw [within_of_error hrun, hmemory]
      rfl
    have hannounced : (Encoding.announced size e).failure = some err := by
      unfold Encoding.announced
      rw [hfailure]
      exact hfailure
    rw [Run.bind_of_error hwithin, hannounced]
  | none =>
    have hwithin : within f.rest.window m f =
        .ok ((), e.bytes.length) (f.store f.window.offset e.bytes) := by
      rw [within_of_ok (hok hfailure)]
      show EStateM.Result.ok ((), 0 + e.bytes.length) _ = _
      rw [Nat.zero_add]
      rfl
    rw [Run.bind_of_ok hwithin]
    show (if e.bytes.length = size then advance size else throw _ : MachineM Unit) _ = _
    unfold Encoding.announced
    rw [hfailure]
    by_cases hlength : e.bytes.length = size
    · have hstored : (f.store f.window.offset e.bytes).Sound := (hf.follows_store (by omega)).sound hf
      rw [if_pos hlength, advance_eq hstored hsize]
      dsimp only
      rw [if_pos hlength, hfailure]
      rfl
    · rw [if_neg hlength]
      dsimp only
      rw [if_neg hlength]
      rfl

/-- Bytes that do not fit in the rest are refused there. -/
theorem writeStructure_of_overlong {f : Focus} {size : Nat} {bytes : List UInt8} (hf : f.Sound)
    (hw : f.window.readOnly = false) (hsize : f.window.offset + size ≤ f.window.length)
    (hlong : f.window.length - f.window.offset < bytes.length) :
    writeStructure size (writeBytes bytes) f =
      .error (.refused (.outsideWindow .write bytes.length 0 (f.window.length - f.window.offset))) f := by
  have hwrite := WindowM.writeBytes_eq bytes f.rest
  have hrestOnly : ¬f.rest.window.readOnly = true := by
    rw [f.readOnly_rest, hw]
    exact Bool.false_ne_true
  have hlong' : ¬f.rest.window.offset + bytes.length ≤ f.rest.window.length := by
    show ¬0 + bytes.length ≤ f.window.length - f.window.offset
    omega
  rw [if_neg hrestOnly, if_neg hlong'] at hwrite
  have hrun : writeBytes bytes f.rest =
      .error (.refused (.outsideWindow .write bytes.length 0 (f.window.length - f.window.offset))) f.rest := by
    rw [writeBytes_eq hf.rest, hwrite]
    rfl
  rw [writeStructure_of_fits _ hf hw hsize, Run.bind_of_error (within_of_error hrun)]
  rfl

theorem Stores.structure {size : Nat} (h : Stores order m e n) (hn : n ≤ size) :
    Stores order (writeStructure size m) (.announced size e) size := by
  refine ⟨?_, fun f hf horder hw hfits => ?_⟩
  · rw [Encoding.bytes_announced]
    exact Nat.le_trans h.1 hn
  · have hrun := writeStructure_of_stores h hf horder hw hfits (by omega)
    rw [Encoding.bytes_announced]
    cases hfailure : (Encoding.announced size e).failure with
    | some err =>
      rw [hfailure] at hrun
      refine ⟨nofun, fun err' herr => ?_⟩
      cases herr
      exact ⟨_, hrun, rfl⟩
    | none =>
      rw [hfailure] at hrun
      refine ⟨fun _ => ?_, fun err' herr => by cases herr⟩
      have hlength := Encoding.length_of_announced hfailure
      rw [hrun, ← hlength]
      rfl

/-! ## Words, strings and cells -/

theorem stores_writeBytes (order : ByteOrder) (bytes : List UInt8) :
    Stores order (writeBytes bytes) (.ofBytes bytes) bytes.length := by
  refine ⟨Nat.le_refl _, fun f hf _ hw hfits => ⟨fun _ => ?_, fun err herr => ?_⟩⟩
  · rw [writeBytes_eq hf, WindowM.writeBytes_eq, if_neg (by rw [hw]; exact Bool.false_ne_true),
      if_pos hfits]
    rfl
  · cases herr

theorem stores_word (order : ByteOrder) (n v : Nat) :
    Stores order (writeWord n v) (.ofBytes (order.encode n v)) n := by
  have h := stores_writeBytes order (order.encode n v)
  rw [order.length_encode] at h
  refine ⟨h.1, fun f hf horder hw hfits => ?_⟩
  have hrun := h.2 f hf horder hw hfits
  rw [← horder] at hrun ⊢
  exact hrun

theorem stores_count (order : ByteOrder) (width : CountWidth) (what : String) (n : Nat) :
    Stores order (writeCount width what n) (.count order width what n) width.size := by
  unfold writeCount Encoding.count
  by_cases h : width.max < n
  · rw [if_pos h, if_pos h]
    exact stores_throw order _ _
  · rw [if_neg h, if_neg h]
    exact stores_word order width.size n

theorem stores_pieces (order : ByteOrder) (pieces : List (List UInt8)) :
    Stores order (pieces.forM writeBytes) (.ofBytes pieces.flatten) pieces.flatten.length := by
  refine (Stores.concat (stores_writeBytes order) pieces).cast ?_ ?_
  · have h := Encoding.concat_map_ofBytes (fun bytes => bytes) pieces
    rwa [List.flatMap_id'] at h
  · exact Nat.le_of_eq List.length_flatten.symm

theorem stores_cell (order : ByteOrder) (c : Cell) :
    Stores order (writeCell c) (.ofBytes (c.stored order)) c.size := by
  have h := (stores_pieces order (c.pieces order)).cast rfl (Nat.le_of_eq (c.length_stored order))
  refine ⟨h.1, fun f hf horder hw hfits => ?_⟩
  have hrun := h.2 f hf horder hw hfits
  rw [← horder] at hrun ⊢
  exact hrun

theorem stores_string (order : ByteOrder) {form : StringForm} (s : ByteString form) :
    Stores order (writeString s) (.ofBytes (s.stored order)) s.size := by
  refine (stores_cell order ⟨.string form, s⟩).cast ?_ (Nat.le_refl _)
  exact congrArg Encoding.ofBytes (s.flatten_pieces order)

/-! ## Instructions and code -/

theorem stores_operands (order : ByteOrder) {fs : List Field} (xs : Operands fs) :
    Stores order (writeOperands xs) (.ofBytes (xs.stored order)) (xs.stored order).length := by
  induction fs with
  | nil => exact stores_pure order 0
  | cons f fs ih =>
    obtain ⟨v, rest⟩ := xs
    refine ((stores_cell order ⟨f.type, v⟩).append (ih rest)).cast rfl (Nat.le_of_eq ?_)
    show Cell.size ⟨f.type, v⟩ + (rest.stored order).length =
      (f.type.stored order v ++ rest.stored order).length
    rw [List.length_append, ← Cell.length_stored order]
    rfl

theorem stores_op (order : ByteOrder) (o : Op) :
    Stores order (writeOp o) (.ofBytes (o.stored order)) o.size := by
  refine ((stores_word order 1 o.code.byte.toNat).append (stores_operands order o.operands)).cast ?_ ?_
  · rw [Reader.encode_one, UInt8.ofNat_toNat]
    rfl
  · rw [← o.length_stored order, Op.stored, List.length_cons]
    omega

theorem stores_instr (order : ByteOrder) (i : Instr) :
    Stores order (writeInstr i) (i.encode order) i.size := by
  cases i with
  | op o => exact (stores_op order o).structure (Nat.le_refl _)
  | symbolic s => exact stores_throw order _ _

theorem stores_routine (order : ByteOrder) (r : Routine) :
    Stores order (writeRoutine r) (r.encode order) r.size :=
  Stores.concat (stores_instr order) r

theorem stores_code (order : ByteOrder) (c : Code) :
    Stores order (writeCode c) (c.encode order) c.size :=
  Stores.concat (fun r => (stores_routine order r).structure (Nat.le_refl _)) c.routines

/-! ## Tables -/

theorem stores_pool (order : ByteOrder) (p : StringPool) :
    Stores order (writePool p) (p.encode order) p.size := by
  refine ((stores_count order .two "strings" p.entries.size).append
    (Stores.concat (stores_string order) p.entries.toList)).cast ?_ (Nat.le_refl _)
  rw [Encoding.concat_map_ofBytes]
  rfl

theorem stores_function (order : ByteOrder) (f : FunctionEntry) :
    Stores order (writeFunction f) (.ofBytes (f.stored order)) f.size := by
  refine ((stores_string order f.name).append ((stores_word order 1 f.argCount.toNat).append
    (stores_word order 4 f.offset.toNat))).cast ?_ (Nat.le_refl _)
  rw [Encoding.append_ofBytes, Encoding.append_ofBytes, ← List.append_assoc]
  rfl

theorem stores_functions (order : ByteOrder) (fs : List FunctionEntry) :
    Stores order (writeFunctions fs) (FunctionEntry.encodeTable order fs) (FunctionEntry.tableSize fs) :=
  (stores_count order .two "functions" fs.length).append
    (Stores.concat (fun f => (stores_function order f).structure (Nat.le_refl _)) fs)

theorem stores_method (order : ByteOrder) (m : Method) :
    Stores order (writeMethod m) (.ofBytes (m.stored order)) 6 :=
  (stores_word order 2 m.symbol.toNat).append (stores_word order 4 m.offset.toNat)

theorem stores_members (order : ByteOrder) (width : CountWidth) (c : ClassEntry) :
    Stores order (writeMembers width c) (c.encodeMembers order width) (c.membersSize width) := by
  have hproperties := Stores.concat (fun p : UInt16 => stores_word order 2 p.toNat) c.properties
  have hmethods := Stores.concat (stores_method order) c.methods
  rw [Encoding.concat_map_ofBytes, sum_map_const] at hproperties hmethods
  refine ((stores_count order width "properties" c.properties.length).append (hproperties.append
    ((stores_count order width "methods" c.methods.length).append hmethods))).cast ?_ ?_
  · rw [← Encoding.append_assoc, ← Encoding.append_assoc]
    rfl
  · unfold ClassEntry.membersSize
    omega

theorem stores_classes (order : ByteOrder) (t : ClassTable) :
    Stores order (writeClasses t) (t.encode order) t.size := by
  have hmembers := Stores.concat (stores_members order t.countWidth) t.entries
  have hnames := Stores.concat (fun c : ClassEntry => stores_string order c.name) t.entries
  rw [Encoding.concat_map_ofBytes] at hnames
  refine ((stores_count order .two "classes" t.entries.length).append (hmembers.append hnames)).cast ?_ ?_
  · rw [← Encoding.append_assoc]
    rfl
  · unfold ClassTable.size
    rw [List.sum_map_add]
    exact Nat.le_refl _

/-! ## Headers -/

theorem stores_preamble (order : ByteOrder) (v : Version) :
    Stores order (writePreamble v) (.ofBytes (Header.preamble order v)) 8 := by
  have hmagic := stores_writeBytes order (order.inverted.encode 4 magic.toNat)
  have hversion := (stores_word order 2 v.pair.1.toNat).append (stores_word order 2 v.pair.2.toNat)
  have h := hmagic.append hversion
  rw [Encoding.append_ofBytes, Encoding.append_ofBytes, ← List.append_assoc, ByteOrder.length_encode] at h
  refine ⟨h.1, fun f hf horder hw hfits => ?_⟩
  have hrun := h.2 f hf horder hw hfits
  rw [← horder] at hrun ⊢
  exact hrun

theorem stores_tables (order : ByteOrder) (h : Header) :
    Stores order (writeTables h) (h.encodeTables order) (h.size - 8) := by
  have hpool : ∀ p : StringPool, Stores order (writeStructure p.size (writePool p))
      (Header.encodePool order p) p.size :=
    fun p => (stores_pool order p).structure (Nat.le_refl _)
  have hfunctions := (stores_functions order h.functions).structure (Nat.le_refl _)
  have hclasses := (stores_classes order h.classes).structure (Nat.le_refl _)
  -- the tables of every version, before whatever follows them
  have htables := fun {m : MachineM Unit} {e : Encoding} {n : Nat} (hrest : Stores order m e n) =>
    (hpool h.strings).append ((hpool h.globals).append (hfunctions.append (hclasses.append
      ((hpool h.symbols).append hrest))))
  unfold writeTables Header.encodeTables Header.size
  cases h.sources with
  | some p =>
    refine (htables (hpool p)).cast ?_ ?_
    · simp only [← Encoding.append_assoc]
    · rw [Option.map_some, Option.getD_some]
      omega
  | none =>
    refine (htables (stores_pure order 0)).cast ?_ ?_
    · simp only [← Encoding.append_assoc]
    · rw [Option.map_none, Option.getD_none]
      omega

theorem stores_header (order : ByteOrder) (h : Header) :
    Stores order (writeHeader h) (h.encode order) h.size := by
  unfold writeHeader Header.encode
  by_cases hs : h.version.hasSources ≠ h.sources.isSome
  · rw [if_pos hs, if_pos hs]
    exact stores_throw order _ _
  · rw [if_neg hs, if_neg hs]
    by_cases hw : h.classes.countWidth ≠ h.version.countWidth
    · rw [if_pos hw, if_pos hw]
      exact stores_throw order _ _
    · rw [if_neg hw, if_neg hw]
      refine ((stores_preamble order h.version).append (stores_tables order h)).cast rfl ?_
      unfold Header.size
      omega

/-! ## All structures -/

/-- Every structure stores its encoding, up to the check of its announced size, in no more bytes
than it announces. Plain bytes may be any number. -/
theorem stores_writable (order : ByteOrder) (what : Writable) :
    ∃ e n, Stores order what.writeInWords e n ∧
      Encoding.announced what.size e = .announced what.size (what.encode order) ∧
      (n ≤ what.size ∨ ∃ announced bytes, what = .raw announced bytes ∧ n = bytes.length) := by
  cases what with
  | instr i =>
    cases i with
    | op o =>
      have hannounced : Encoding.announced o.size (.ofBytes (o.stored order)) =
          .ofBytes (o.stored order) := Encoding.announced_of_length _ fun _ => o.length_stored order
      exact ⟨_, _, stores_op order o, congrArg _ hannounced.symm, .inl (Nat.le_refl _)⟩
    | symbolic s => exact ⟨_, 0, stores_throw order _ _, rfl, .inl (Nat.zero_le _)⟩
  | routine r => exact ⟨_, _, stores_routine order r, rfl, .inl (Nat.le_refl _)⟩
  | code c => exact ⟨_, _, stores_code order c, rfl, .inl (Nat.le_refl _)⟩
  | function f =>
    have hannounced : Encoding.announced f.size (.ofBytes (f.stored order)) =
        .ofBytes (f.stored order) := Encoding.announced_of_length _ fun _ => f.length_stored order
    exact ⟨_, _, stores_function order f, congrArg _ hannounced.symm, .inl (Nat.le_refl _)⟩
  | functions fs => exact ⟨_, _, stores_functions order fs, rfl, .inl (Nat.le_refl _)⟩
  | classes t => exact ⟨_, _, stores_classes order t, rfl, .inl (Nat.le_refl _)⟩
  | pool p => exact ⟨_, _, stores_pool order p, rfl, .inl (Nat.le_refl _)⟩
  | header h => exact ⟨_, _, stores_header order h, rfl, .inl (Nat.le_refl _)⟩
  | raw announced bytes =>
    exact ⟨_, _, stores_writeBytes order bytes, rfl, .inr ⟨announced, bytes, rfl, rfl⟩⟩

end MachineM

end ScriptImage
