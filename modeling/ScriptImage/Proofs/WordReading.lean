import ScriptImage.Machine.Serving
import ScriptImage.Proofs.WordAccess

/-!
# Readers cause no fault

Reading a structure in word arithmetic comes to what its reader makes of the bytes from the
cursor on, for every window that lies in its buffer:

    m f = r (bytes from the cursor of f), with the cursor moved on within the window

`Performs order m r` says this of a computation `m` through windows of a byte order and a
reader `r`.  It carries over from parts to compositions, to repetitions and to structures that
are read through windows of their own.
-/

namespace ScriptImage

/-- The bytes from the cursor on. -/
def Focus.cursor (f : Focus) : Cursor :=
  f.window.cursor f.memory

theorem Focus.cursor_seek (f : Focus) {p : Nat} (hp : f.window.offset ≤ p) :
    (f.seek p).cursor = ⟨p, f.cursor.rest.drop (p - f.window.offset)⟩ := by
  show (⟨p, (f.window.content f.memory).drop p⟩ : Cursor) =
    ⟨p, ((f.window.content f.memory).drop f.window.offset).drop (p - f.window.offset)⟩
  rw [List.drop_drop, Nat.add_sub_cancel' hp]

theorem Focus.Sound.length_rest {f : Focus} (hf : f.Sound) :
    f.cursor.rest.length = f.window.length - f.window.offset := by
  show ((f.window.content f.memory).drop f.window.offset).length = _
  rw [List.length_drop, hf.window.length_content]

/-- The rest of a window holds the bytes from the cursor on. -/
theorem Focus.cursor_rest (f : Focus) : f.rest.cursor = ⟨0, f.cursor.rest⟩ := by
  show (⟨0, (((f.memory.buffer f.window.buffer).drop (f.window.start + f.window.offset)).take
      (f.window.length - f.window.offset)).drop 0⟩ : Cursor) =
    ⟨0, (((f.memory.buffer f.window.buffer).drop f.window.start).take f.window.length).drop f.window.offset⟩
  rw [List.drop_zero, List.drop_take, List.drop_drop]

namespace MachineM

variable {α β : Type} {f : Focus} {order : ByteOrder}

/-- From this state on, the computation does what the reader does with the bytes from the cursor
on, and ends with the cursor in the window. -/
def PerformsAt (f : Focus) (m : MachineM α) (r : Reader α) : Prop :=
  ∃ p, f.window.offset ≤ p ∧ p ≤ f.window.length ∧
    ((∃ a, r f.cursor = .ok a (f.seek p).cursor ∧ m f = .ok a (f.seek p)) ∨
      ∃ e, r f.cursor = .error e (f.seek p).cursor ∧ m f = .error (.refused e) (f.seek p))

/-- Through every window of this byte order, the computation does what the reader does. -/
def Performs (order : ByteOrder) (m : MachineM α) (r : Reader α) : Prop :=
  ∀ f : Focus, f.Sound → f.window.order = order → PerformsAt f m r

/-! ## Compositions -/

theorem performsAt_pure (hf : f.Sound) (a : α) : PerformsAt f (pure a) (pure a) :=
  ⟨f.window.offset, Nat.le_refl _, hf.window.cursor, .inl ⟨a, rfl, rfl⟩⟩

theorem performsAt_throw (hf : f.Sound) (e : Error) :
    PerformsAt f (throw (.refused e) : MachineM α) (throw e) :=
  ⟨f.window.offset, Nat.le_refl _, hf.window.cursor, .inr ⟨e, rfl, rfl⟩⟩

theorem performsAt_lift (hf : f.Sound) (x : Except Error α) :
    PerformsAt f (lift x) (Reader.lift x) := by
  cases x with
  | ok a => exact performsAt_pure hf a
  | error e => exact performsAt_throw hf e

theorem PerformsAt.bind {m : MachineM α} {r : Reader α} {g : α → MachineM β} {h : α → Reader β}
    (hm : PerformsAt f m r)
    (hg : ∀ a p, f.window.offset ≤ p → p ≤ f.window.length → PerformsAt (f.seek p) (g a) (h a)) :
    PerformsAt f (m >>= g) (r >>= h) := by
  obtain ⟨p, hlow, hhigh, ⟨a, hr, hrun⟩ | ⟨e, hr, hrun⟩⟩ := hm
  · obtain ⟨q, hlow', hhigh', hrest⟩ := hg a p hlow hhigh
    have hlow' : p ≤ q := hlow'
    refine ⟨q, Nat.le_trans hlow hlow', hhigh', ?_⟩
    rw [Run.bind_of_ok hr, Run.bind_of_ok hrun]
    exact hrest
  · refine ⟨p, hlow, hhigh, .inr ⟨e, ?_, ?_⟩⟩
    · exact Run.bind_of_error hr
    · exact Run.bind_of_error hrun

theorem performs_pure (order : ByteOrder) (a : α) : Performs order (pure a) (pure a) :=
  fun _ hf _ => performsAt_pure hf a

theorem performs_throw (order : ByteOrder) (e : Error) :
    Performs order (throw (.refused e) : MachineM α) (throw e) :=
  fun _ hf _ => performsAt_throw hf e

theorem performs_lift (order : ByteOrder) (x : Except Error α) :
    Performs order (lift x) (Reader.lift x) :=
  fun _ hf _ => performsAt_lift hf x

theorem Performs.bind {m : MachineM α} {r : Reader α} {g : α → MachineM β} {h : α → Reader β}
    (hm : Performs order m r) (hg : ∀ a, Performs order (g a) (h a)) :
    Performs order (m >>= g) (r >>= h) := by
  intro f hf horder
  exact (hm f hf horder).bind fun a p _ hp => hg a _ ((Focus.follows_seek hp).sound hf) horder

theorem Performs.guard {p : Prop} [Decidable p] {e : Error} {g : PUnit → MachineM α}
    {h : PUnit → Reader α} (hg : Performs order (g ⟨⟩) (h ⟨⟩)) :
    Performs order (if p then throw (.refused e) >>= g else g ⟨⟩)
      (if p then throw e >>= h else h ⟨⟩) := by
  by_cases hp : p
  · rw [if_pos hp, if_pos hp]
    exact fun f hf _ => ⟨f.window.offset, Nat.le_refl _, hf.window.cursor, .inr ⟨e, rfl, rfl⟩⟩
  · rw [if_neg hp, if_neg hp]
    exact hg

theorem Performs.many {m : MachineM α} {r : Reader α} (h : Performs order m r) (n : Nat) :
    Performs order (readMany m n) (Reader.many r n) := by
  induction n with
  | zero => exact performs_pure order []
  | succ n ih => exact h.bind fun a => ih.bind fun as => performs_pure order (a :: as)

/-- A structure that is read through a window of its own. -/
theorem Performs.structure {m : MachineM α} {r : Reader α} (h : Performs order m r) :
    Performs order (readStructure m) (Reader.nested r) := by
  intro f hf horder
  have hcursor := hf.window.cursor
  obtain ⟨p, -, hp, hrun⟩ := h f.rest hf.rest horder
  have hp : p ≤ f.window.length - f.window.offset := hp
  have hfits : f.window.offset + p ≤ f.window.length := by omega
  rw [f.cursor_rest, Focus.cursor_seek _ (Nat.zero_le p), f.cursor_rest] at hrun
  rcases hrun with ⟨a, hr, hm⟩ | ⟨e, hr, hm⟩
  · have hr : r ⟨0, f.cursor.rest⟩ = .ok a ⟨p, f.cursor.rest.drop p⟩ := hr
    refine ⟨f.window.offset + p, Nat.le_add_right _ _, hfits, .inl ⟨a, ?_, ?_⟩⟩
    · rw [Focus.cursor_seek f (Nat.le_add_right _ _), Nat.add_sub_cancel_left]
      unfold Reader.nested
      rw [hr]
      rfl
    · unfold readStructure
      rw [Run.bind_of_ok (rest_eq hf), Run.bind_of_ok (within_of_ok hm)]
      show (advance p >>= fun _ => pure a) f = _
      rw [Run.bind_of_ok (advance_eq hf hfits)]
      rfl
  · have hr : r ⟨0, f.cursor.rest⟩ = .error e ⟨p, f.cursor.rest.drop p⟩ := hr
    refine ⟨f.window.offset, Nat.le_refl _, hcursor, .inr ⟨e, ?_, ?_⟩⟩
    · unfold Reader.nested
      rw [hr]
      rfl
    · unfold readStructure
      rw [Run.bind_of_ok (rest_eq hf), Run.bind_of_error (within_of_error hm)]
      rfl

/-! ## Words -/

theorem performs_readWith (order : ByteOrder) (n : Nat) (decode : List UInt8 → α) :
    Performs order (readWith n decode) (do return decode (← Reader.bytes n)) := by
  intro f hf _
  have hlength := hf.length_rest
  have hcursor := hf.window.cursor
  have hread := readWith_eq hf n decode
  have hwhole : f.cursor.length = f.window.length := by
    show f.window.offset + f.cursor.rest.length = _
    omega
  by_cases hn : f.window.offset + n ≤ f.window.length
  · rw [if_pos hn] at hread
    have hbytes : Reader.bytes n f.cursor =
        .ok (f.cursor.rest.take n) ⟨f.window.offset + n, f.cursor.rest.drop n⟩ :=
      if_pos (by rw [List.length_take]; omega)
    refine ⟨f.window.offset + n, Nat.le_add_right _ _, hn, .inl ⟨_, ?_, hread⟩⟩
    rw [Run.bind_of_ok hbytes, Focus.cursor_seek f (Nat.le_add_right _ _), Nat.add_sub_cancel_left]
    rfl
  · rw [if_neg hn] at hread
    have hbytes : Reader.bytes n f.cursor =
        .error (.outsideWindow .read n f.window.offset f.window.length) f.cursor := by
      rw [← hwhole]
      exact if_neg (by rw [List.length_take]; omega)
    exact ⟨f.window.offset, Nat.le_refl _, hcursor, .inr ⟨_, Run.bind_of_error hbytes, hread⟩⟩

theorem performs_bytes (order : ByteOrder) (n : Nat) :
    Performs order (readWith n id) (Reader.bytes n) := by
  have h := performs_readWith order n (id : List UInt8 → List UInt8)
  simpa only [id_eq, bind_pure] using h

theorem performs_word (order : ByteOrder) (n : Nat) :
    Performs order (readWord n) (Reader.word order n) := by
  intro f hf horder
  have h := performs_readWith order n order.decode f hf horder
  rw [← horder] at h ⊢
  exact h

theorem performs_byte (order : ByteOrder) : Performs order readByte Reader.byte := by
  have hword : Reader.word .little 1 = Reader.word order 1 := by
    cases order with
    | little => rfl
    | big =>
      funext c
      unfold Reader.word
      cases hbytes : Reader.bytes 1 c with
      | error e c' => rw [Run.bind_of_error hbytes, Run.bind_of_error hbytes]
      | ok bs c' =>
        obtain ⟨b, rfl⟩ := List.length_eq_one_iff.1 (Reader.bytes_eq_ok_iff.1 hbytes).1
        rw [Run.bind_of_ok hbytes, Run.bind_of_ok hbytes]
        rfl
  unfold Reader.byte
  rw [hword]
  exact (performs_word order 1).bind fun n => performs_pure order (UInt8.ofNat n)

theorem performs_uint16 (order : ByteOrder) : Performs order readUInt16 (Reader.uint16 order) :=
  (performs_word order 2).bind fun n => performs_pure order (UInt16.ofNat n)

theorem performs_uint32 (order : ByteOrder) : Performs order readUInt32 (Reader.uint32 order) :=
  (performs_word order 4).bind fun n => performs_pure order (UInt32.ofNat n)

/-! ## Strings, cells and instructions -/

theorem performs_string (order : ByteOrder) (form : StringForm) :
    Performs order (readString form) (ByteString.read order form) := by
  refine (performs_word order _).bind fun length => (performs_bytes order length).bind fun content => ?_
  by_cases ht : form.terminated = true
  · simp only [if_pos ht]
    exact (performs_byte order).bind fun last => .guard (performs_lift order _)
  · simp only [if_neg ht]
    exact performs_lift order _

theorem performs_value (order : ByteOrder) (t : CellType) :
    Performs order (readValue t) (t.read order) := by
  cases t with
  | string form => exact performs_string order form
  | _ => exact (performs_word order _).bind fun _ => performs_pure order _

theorem performs_cell (order : ByteOrder) (t : CellType) :
    Performs order (readCell t) (Cell.read order t) :=
  (performs_value order t).bind fun v => performs_pure order (Cell.mk t v)

theorem performs_operands (order : ByteOrder) (fs : List Field) :
    Performs order (readOperands fs) (Operands.read order fs) := by
  induction fs with
  | nil => exact performs_pure order ()
  | cons f fs ih =>
    exact (performs_value order f.type).bind fun v => ih.bind fun rest => performs_pure order (v, rest)

theorem performs_op (order : ByteOrder) : Performs order readOp (Op.read order) := by
  refine (performs_byte order).bind fun byte => .guard ?_
  cases Opcode.ofByte? byte with
  | none => exact performs_throw order _
  | some code =>
    exact (performs_operands order code.signature).bind fun xs => performs_pure order (Op.mk code xs)

/-! ## Tables and headers -/

theorem performs_pool (order : ByteOrder) (form : StringForm) :
    Performs order (readPool form) (StringPool.read order form) :=
  (performs_uint16 order).bind fun count =>
    ((performs_string order form).many count.toNat).bind fun _ => performs_lift order _

theorem performs_function (order : ByteOrder) :
    Performs order readFunction (FunctionEntry.read order) :=
  (performs_string order _).bind fun _ => (performs_byte order).bind fun _ =>
    (performs_uint32 order).bind fun _ => performs_pure order _

theorem performs_functions (order : ByteOrder) :
    Performs order readFunctions (FunctionEntry.readTable order) :=
  (performs_uint16 order).bind fun count => (performs_function order).structure.many count.toNat

theorem performs_method (order : ByteOrder) : Performs order readMethod (Method.read order) :=
  (performs_uint16 order).bind fun _ => (performs_uint32 order).bind fun _ => performs_pure order _

theorem performs_members (order : ByteOrder) (width : CountWidth) :
    Performs order (readMembers width) (ClassEntry.readMembers order width) :=
  (performs_word order _).bind fun n => ((performs_uint16 order).many n).bind fun _ =>
    (performs_word order _).bind fun k => ((performs_method order).many k).bind fun _ =>
      performs_pure order _

theorem performs_names (order : ByteOrder) (members : List (List UInt16 × List Method)) :
    Performs order (readNames members) (ClassTable.readNames order members) := by
  induction members with
  | nil => exact performs_pure order []
  | cons m ms ih =>
    exact (performs_string order _).bind fun _ => ih.bind fun _ => performs_pure order _

theorem performs_classes (order : ByteOrder) (width : CountWidth) :
    Performs order (readClasses width) (ClassTable.read order width) :=
  (performs_uint16 order).bind fun count =>
    ((performs_members order width).many count.toNat).bind fun members =>
      (performs_names order members).bind fun _ => performs_pure order _

theorem performs_sources (order : ByteOrder) (v : Version) :
    Performs order (readSources v) (Header.readSources order v) := by
  unfold readSources Header.readSources
  by_cases hv : v.hasSources = true
  · rw [if_pos hv, if_pos hv]
    exact (performs_pool order _).bind fun _ => performs_pure order _
  · rw [if_neg hv, if_neg hv]
    exact performs_pure order none

theorem performs_inverted (order : ByteOrder) :
    Performs order readInverted (Reader.uint32 order.inverted) := by
  intro f hf horder
  have hword : PerformsAt f (readWith 4 f.window.order.inverted.decode) (Reader.word order.inverted 4) := by
    rw [horder]
    exact performs_readWith order 4 order.inverted.decode f hf horder
  exact hword.bind fun n p _ hp => performsAt_pure ((Focus.follows_seek hp).sound hf) (UInt32.ofNat n)

theorem performs_header (order : ByteOrder) : Performs order readHeader (Header.read order) := by
  refine (performs_inverted order).bind fun found => .guard ?_
  refine (performs_uint16 order).bind fun major => (performs_uint16 order).bind fun minor => ?_
  refine (performs_lift order (Header.versionOf major minor)).bind fun version => ?_
  refine (performs_pool order _).bind fun strings => (performs_pool order _).bind fun globals => ?_
  refine (performs_functions order).structure.bind fun functions => ?_
  refine (performs_classes order _).bind fun classes => (performs_pool order _).bind fun symbols => ?_
  exact (performs_sources order version).bind fun sources => performs_pure order _

/-! ## Code -/

variable {base : UInt32} {origin : Nat}

theorem PerformsAt.of_ok {x : MachineM β} {g : β → MachineM α} {r : Reader α} {b : β}
    (hx : x f = .ok b f) (h : PerformsAt f (g b) r) : PerformsAt f (x >>= g) r := by
  unfold PerformsAt at h ⊢
  rw [Run.bind_of_ok hx]
  exact h

theorem PerformsAt.congr {m : MachineM α} {r r' : Reader α} (h : PerformsAt f m r)
    (hr : r' f.cursor = r f.cursor) : PerformsAt f m r' := by
  unfold PerformsAt at h ⊢
  rw [hr]
  exact h

/-- What is passed of the code and where it begins make a word. -/
theorem position_eq (hf : f.Sound) (horigin : origin ≤ f.window.offset) :
    position base origin f = .ok (base.toNat + (f.window.offset - origin)) f := by
  obtain ⟨hrange, hcursor, -⟩ := hf.bounds
  have hsmall := hf.small
  have hbase := base.toNat_lt
  have hsum : base.toNat + (f.window.offset - origin) < wordLimit := by
    unfold bufferLimit at hsmall
    unfold wordLimit
    omega
  unfold position
  rw [Run.bind_of_ok (window_eq f), Run.bind_of_ok (minus_of_le horigin f)]
  exact plus_of_lt hsum f

/-- The reader of code, where bytes are left: it enters an instruction, reads it and leaves it. -/
theorem readFrom_of_rest {place : Cursor → Nat} {c : Cursor} (hc : ¬c.rest.isEmpty = true) (fuel : Nat)
    (s : Code.Scan) :
    Code.readFrom order place (fuel + 1) s c =
      (Reader.lift (s.enter (place c)) >>= fun (start, instrs, pending) =>
        Reader.nested (Op.read order) >>= fun o c' =>
          (Reader.lift (s.leave start instrs pending o (place c')) >>=
            Code.readFrom order place fuel) c') c := by
  rw [Code.readFrom, if_neg hc]
  cases s.enter (place c) with
  | error e => rfl
  | ok entered =>
    obtain ⟨start, instrs, pending⟩ := entered
    cases hop : Reader.nested (Op.read order) c with
    | error e c' => exact (Run.bind_of_error hop).symm
    | ok o c' =>
      refine Eq.trans ?_ (Run.bind_of_ok hop).symm
      dsimp only
      cases s.leave start instrs pending o (place c') with
      | error e => rfl
      | ok s' => rfl

theorem performsAt_codeFrom (fuel : Nat) (s : Code.Scan) (hf : f.Sound) (horder : f.window.order = order)
    (horigin : origin ≤ f.window.offset) :
    PerformsAt f (readCodeFrom base origin fuel s)
      (Code.readFrom order (fun c => base.toNat + (c.offset - origin)) fuel s) := by
  induction fuel generalizing f s with
  | zero => exact .of_ok (position_eq hf horigin) (performsAt_lift hf _)
  | succ fuel ih =>
    have hempty : f.cursor.rest.isEmpty = true ↔ f.window.length - f.window.offset = 0 := by
      rw [List.isEmpty_iff_length_eq_zero, hf.length_rest]
    refine .of_ok (remaining_eq hf) ?_
    by_cases hend : f.window.length - f.window.offset = 0
    · rw [if_pos hend]
      refine .of_ok (position_eq hf horigin) (.congr (performsAt_lift hf _) ?_)
      rw [Code.readFrom, if_pos (hempty.2 hend)]
      rfl
    · rw [if_neg hend]
      refine .of_ok (position_eq hf horigin) (.congr ?_
        (readFrom_of_rest (fun h => hend (hempty.1 h)) fuel s))
      refine (performsAt_lift hf (s.enter (base.toNat + (f.window.offset - origin)))).bind
        fun (start, instrs, pending) p hlow hp => ?_
      -- an instruction, and the rest from behind it
      have hp := (Focus.follows_seek hp).sound hf
      refine ((performs_op order).structure _ hp horder).bind fun o q hlow' hq => ?_
      have hlow' : p ≤ q := hlow'
      have hq : Focus.Sound (f.seek q) := (Focus.follows_seek hq).sound hp
      have horigin' : origin ≤ (f.seek q).window.offset := Nat.le_trans horigin (Nat.le_trans hlow hlow')
      refine .of_ok (position_eq hq horigin') (.congr (.bind (performsAt_lift hq _)
        fun s' t hlow'' ht => ih s' ((Focus.follows_seek ht).sound hq) horder
          (Nat.le_trans horigin' hlow'')) rfl)

theorem performs_code (order : ByteOrder) (base : UInt32) (expected : List UInt32) :
    Performs order (readCode base expected) (Code.read order base expected) := by
  intro f hf horder
  refine .of_ok (window_eq f) (.of_ok (remaining_eq hf) ?_)
  rw [← hf.length_rest]
  refine .congr (.bind (performsAt_codeFrom f.cursor.rest.length _ hf horder (Nat.le_refl _))
    fun rs p _ hp => performsAt_pure ((Focus.follows_seek hp).sound hf) (Code.ofPlaced base rs)) rfl

/-! ## All structures -/

theorem performs_readable (order : ByteOrder) (what : Readable) :
    Performs order what.readInWords (what.reader order) := by
  cases what with
  | cell t => exact (performs_cell order t).bind fun _ => performs_pure order _
  | string form => exact (performs_string order form).bind fun _ => performs_pure order _
  | pool form => exact (performs_pool order form).bind fun _ => performs_pure order _
  | classes width => exact (performs_classes order width).bind fun _ => performs_pure order _
  | code base expected => exact (performs_code order base expected).bind fun _ => performs_pure order _
  | instr => exact (performs_op order).structure.bind fun _ => performs_pure order _
  | function => exact (performs_function order).structure.bind fun _ => performs_pure order _
  | functions => exact (performs_functions order).structure.bind fun _ => performs_pure order _
  | header => exact (performs_header order).structure.bind fun _ => performs_pure order _

end MachineM

end ScriptImage
