import ScriptImage.Instr
import ScriptImage.Proofs.Runs

/-!
# What readers accept

A reader that belongs to a stored form succeeds exactly on that form, and then the cursor
has passed exactly the stored bytes.  `Reader.Reads r valid stored` says so:

    r c = .ok a c' ↔ valid a ∧ c.Passes (stored a) c'

One direction makes reading sound (what is read was there), the other makes it complete
(what is stored can be read, whatever follows).  The statement is proved here for words,
byte strings, cells, operands and instructions; `Reads.many` and `Reads.nested` carry it
through repetition and through nested structures.
-/

namespace ScriptImage

/-! ## Passing bytes -/

/-- From the first cursor to the second, exactly these bytes are passed. -/
def Cursor.Passes (c : Cursor) (bs : List UInt8) (c' : Cursor) : Prop :=
  c.rest = bs ++ c'.rest ∧ c'.offset = c.offset + bs.length

namespace Cursor

@[simp]
theorem passes_nil {c c' : Cursor} : c.Passes [] c' ↔ c' = c := by
  obtain ⟨p, rest⟩ := c
  obtain ⟨p', rest'⟩ := c'
  simp only [Passes, List.nil_append, List.length_nil, Nat.add_zero, Cursor.mk.injEq]
  constructor
  · rintro ⟨rfl, rfl⟩
    exact ⟨rfl, rfl⟩
  · rintro ⟨rfl, rfl⟩
    exact ⟨rfl, rfl⟩

theorem passes_append {c c'' : Cursor} {a b : List UInt8} :
    c.Passes (a ++ b) c'' ↔ ∃ c', c.Passes a c' ∧ c'.Passes b c'' := by
  constructor
  · rintro ⟨hrest, hoffset⟩
    rw [List.length_append] at hoffset
    refine ⟨⟨c.offset + a.length, b ++ c''.rest⟩, ⟨?_, rfl⟩, rfl, ?_⟩
    · rw [hrest, List.append_assoc]
    · show c''.offset = c.offset + a.length + b.length
      omega
  · rintro ⟨c', ⟨hrest, hoffset⟩, hrest', hoffset'⟩
    refine ⟨?_, ?_⟩
    · rw [hrest, hrest', List.append_assoc]
    · rw [hoffset', hoffset, List.length_append]
      omega

end Cursor

/-! ## Readers -/

namespace Reader

variable {α β : Type}

theorem lift_eq_ok_iff {x : Except Error α} {a : α} {c c' : Cursor} :
    lift x c = .ok a c' ↔ x = .ok a ∧ c' = c :=
  Run.lift_eq_ok_iff (fun _ => rfl) fun e => ⟨e, rfl⟩

theorem lift_map (f : α → β) (x : Except Error α) : lift (x.map f) = f <$> lift x := by
  cases x <;> rfl

theorem many_map (f : α → β) (r : Reader α) (n : Nat) : many (f <$> r) n = List.map f <$> many r n := by
  induction n with
  | zero => rfl
  | succ n ih => simp only [many, ih, map_bind, bind_map_left, map_pure, List.map_cons]

/-- The reader succeeds exactly on the stored form of a valid value. -/
def Reads (r : Reader α) (valid : α → Prop) (stored : α → List UInt8) : Prop :=
  ∀ c a c', r c = .ok a c' ↔ valid a ∧ c.Passes (stored a) c'

namespace Reads

variable {r : Reader α} {valid : α → Prop} {stored : α → List UInt8}

theorem eq_ok_iff (h : Reads r valid stored) {c c' : Cursor} {a : α} :
    r c = .ok a c' ↔ valid a ∧ c.Passes (stored a) c' :=
  h c a c'

/-- Reading in another representation, which `g` translates back. -/
theorem map (h : Reads r valid stored) (f : α → β) (g : β → α) (hg : ∀ b, valid (g b))
    (hfg : ∀ b, f (g b) = b) (hgf : ∀ a, valid a → g (f a) = a) :
    Reads (do let a ← r; return f a) (fun _ => True) (fun b => stored (g b)) := by
  intro c b c'
  rw [Run.bind_eq_ok_iff, true_and]
  constructor
  · rintro ⟨a, c₁, hr, hb⟩
    obtain ⟨hv, hp⟩ := h.eq_ok_iff.1 hr
    obtain ⟨rfl, rfl⟩ := Run.pure_eq_ok_iff.1 hb
    show c.Passes (stored (g (f a))) c'
    rw [hgf a hv]
    exact hp
  · intro hp
    refine ⟨g b, c', h.eq_ok_iff.2 ⟨hg b, hp⟩, ?_⟩
    rw [Run.pure_eq_ok_iff, hfg]
    exact ⟨rfl, rfl⟩

theorem nested (h : Reads r valid stored) : Reads (Reader.nested r) valid stored := by
  intro c a c'
  obtain ⟨p, rest⟩ := c
  obtain ⟨p', rest'⟩ := c'
  have hr : ∀ c₁, r ⟨0, rest⟩ = .ok a c₁ ↔ valid a ∧ (Cursor.mk 0 rest).Passes (stored a) c₁ :=
    fun c₁ => h.eq_ok_iff
  unfold Reader.nested
  constructor
  · intro hn
    cases hrun : r ⟨0, rest⟩ with
    | error e c₁ =>
      rw [hrun] at hn
      cases hn
    | ok b c₁ =>
      rw [hrun] at hn
      simp only [EStateM.Result.ok.injEq, Cursor.mk.injEq] at hn
      obtain ⟨rfl, rfl, rfl⟩ := hn
      obtain ⟨hv, hpass, hoffset⟩ := (hr c₁).1 hrun
      refine ⟨hv, hpass, ?_⟩
      simp only at hoffset ⊢
      omega
  · rintro ⟨hv, hpass, hoffset⟩
    have hrun : r ⟨0, rest⟩ = .ok a ⟨(stored a).length, rest'⟩ :=
      (hr _).2 ⟨hv, hpass, (Nat.zero_add _).symm⟩
    simp only at hoffset
    simp only [hrun, hoffset]

/-- A counted run of a reader reads lists of that length. -/
theorem many (h : Reads r valid stored) (n : Nat) :
    Reads (Reader.many r n) (fun xs => xs.length = n ∧ ∀ x ∈ xs, valid x)
      (fun xs => xs.flatMap stored) := by
  induction n with
  | zero =>
    intro c xs c'
    rw [Reader.many, Run.pure_eq_ok_iff]
    constructor
    · rintro ⟨rfl, rfl⟩
      simp
    · rintro ⟨⟨hlen, -⟩, hp⟩
      obtain rfl := List.length_eq_zero_iff.1 hlen
      exact ⟨rfl, Cursor.passes_nil.1 hp⟩
  | succ n ih =>
    intro c xs c'
    rw [Reader.many, Run.bind_eq_ok_iff]
    constructor
    · rintro ⟨a, c₁, hr, hk⟩
      obtain ⟨hv, hp⟩ := h.eq_ok_iff.1 hr
      obtain ⟨as, c₂, hmany, hlast⟩ := Run.bind_eq_ok_iff.1 hk
      obtain ⟨⟨hlen, hvs⟩, hps⟩ := ih.eq_ok_iff.1 hmany
      obtain ⟨rfl, rfl⟩ := Run.pure_eq_ok_iff.1 hlast
      refine ⟨⟨by rw [List.length_cons, hlen], ?_⟩, ?_⟩
      · intro x hx
        rcases List.mem_cons.1 hx with rfl | hx
        · exact hv
        · exact hvs x hx
      · show c.Passes ((a :: as).flatMap stored) c'
        rw [List.flatMap_cons]
        exact Cursor.passes_append.2 ⟨c₁, hp, hps⟩
    · rintro ⟨⟨hlen, hvs⟩, hp⟩
      cases xs with
      | nil => cases hlen
      | cons a as =>
        simp only [List.flatMap_cons] at hp
        obtain ⟨c₁, hp₁, hp₂⟩ := Cursor.passes_append.1 hp
        have htail : ∀ x ∈ as, valid x := fun x hx => hvs x (List.mem_cons_of_mem _ hx)
        have hhead : r c = .ok a c₁ := h.eq_ok_iff.2 ⟨hvs a List.mem_cons_self, hp₁⟩
        have hrest : Reader.many r n c₁ = .ok as c' :=
          ih.eq_ok_iff.2 ⟨⟨Nat.succ.inj hlen, htail⟩, hp₂⟩
        refine ⟨a, c₁, hhead, Run.bind_eq_ok_iff.2 ⟨as, c', hrest, ?_⟩⟩
        exact Run.pure_eq_ok_iff.2 ⟨rfl, rfl⟩

end Reads

/-! ## Words -/

theorem reads_bytes (n : Nat) : Reads (bytes n) (fun chunk => chunk.length = n) id := by
  intro c chunk c'
  rw [bytes_eq_ok_iff]
  constructor
  · rintro ⟨hlen, hrest, hoffset⟩
    exact ⟨hlen, hrest, by rw [hoffset, id_eq, hlen]⟩
  · rintro ⟨hlen, hrest, hoffset⟩
    exact ⟨hlen, hrest, by rw [hoffset, id_eq, hlen]⟩

theorem reads_word (order : ByteOrder) (n : Nat) :
    Reads (word order n) (fun v => v < 256 ^ n) (order.encode n) := by
  intro c v c'
  rw [word, Run.bind_eq_ok_iff]
  constructor
  · rintro ⟨chunk, c₁, hb, hv⟩
    obtain ⟨hlen, hp⟩ := (reads_bytes n).eq_ok_iff.1 hb
    obtain ⟨rfl, rfl⟩ := Run.pure_eq_ok_iff.1 hv
    subst hlen
    rw [order.encode_decode]
    exact ⟨order.decode_lt chunk, hp⟩
  · rintro ⟨hv, hp⟩
    refine ⟨order.encode n v, c', (reads_bytes n).eq_ok_iff.2 ⟨order.length_encode n v, hp⟩, ?_⟩
    rw [Run.pure_eq_ok_iff, order.decode_encode, Nat.mod_eq_of_lt hv]
    exact ⟨rfl, rfl⟩

/-- One byte is the same in either order. -/
theorem encode_one (order : ByteOrder) (v : Nat) : order.encode 1 v = [UInt8.ofNat v] := by
  cases order <;> rfl

theorem reads_byte : Reads byte (fun _ => True) (fun b => [b]) := by
  have h := (reads_word .little 1).map UInt8.ofNat UInt8.toNat (fun b => b.toNat_lt)
    (fun _ => UInt8.ofNat_toNat) (fun _ hv => Nat.mod_eq_of_lt hv)
  simp only [encode_one, UInt8.ofNat_toNat] at h
  exact h

theorem reads_uint16 (order : ByteOrder) :
    Reads (uint16 order) (fun _ => True) (fun v => order.encode 2 v.toNat) :=
  (reads_word order 2).map UInt16.ofNat UInt16.toNat (fun v => v.toNat_lt)
    (fun _ => UInt16.ofNat_toNat) (fun _ hv => Nat.mod_eq_of_lt hv)

theorem reads_uint32 (order : ByteOrder) :
    Reads (uint32 order) (fun _ => True) (fun v => order.encode 4 v.toNat) :=
  (reads_word order 4).map UInt32.ofNat UInt32.toNat (fun v => v.toNat_lt)
    (fun _ => UInt32.ofNat_toNat) (fun _ hv => Nat.mod_eq_of_lt hv)

end Reader

/-! ## Strings, cells and instructions -/

theorem StringForm.lt_of_admits {form : StringForm} {bs : List UInt8} (h : form.Admits bs) :
    bs.length < 256 ^ form.width.size := by
  have hle : bs.length ≤ 256 ^ form.width.size - 1 := h.1
  have hpos : 0 < 256 ^ form.width.size := Nat.pow_pos (by decide)
  omega

/-- The closing NUL, where the form has one. -/
theorem ByteString.terminator_eq_ok_iff {α : Type} (form : StringForm) {k : PUnit → Reader α}
    {c c' : Cursor} {a : α} :
    (if form.terminated = true then
        (Reader.byte >>= fun last =>
          if last ≠ 0 then throw (.missingTerminator form last) >>= k else k ⟨⟩)
      else k ⟨⟩ : Reader α) c = .ok a c' ↔
      ∃ c₁, c.Passes form.terminator c₁ ∧ k ⟨⟩ c₁ = .ok a c' := by
  unfold StringForm.terminator
  by_cases ht : form.terminated = true
  · rw [if_pos ht, if_pos ht, Run.bind_eq_ok_iff]
    constructor
    · rintro ⟨b, c₁, hb, hk⟩
      obtain ⟨-, hp⟩ := Reader.reads_byte.eq_ok_iff.1 hb
      obtain ⟨hz, hk⟩ := Run.guard_eq_ok_iff.1 hk
      obtain rfl : b = 0 := Decidable.not_not.1 hz
      exact ⟨c₁, hp, hk⟩
    · rintro ⟨c₁, hp, hk⟩
      exact ⟨0, c₁, Reader.reads_byte.eq_ok_iff.2 ⟨trivial, hp⟩,
        Run.guard_eq_ok_iff.2 ⟨Decidable.not_not.2 rfl, hk⟩⟩
  · rw [if_neg ht, if_neg ht]
    constructor
    · intro hk
      exact ⟨c, Cursor.passes_nil.2 rfl, hk⟩
    · rintro ⟨c₁, hp, hk⟩
      rw [Cursor.passes_nil.1 hp] at hk
      exact hk

theorem ByteString.reads (order : ByteOrder) (form : StringForm) :
    Reader.Reads (ByteString.read order form) (fun _ => True) (ByteString.stored order) := by
  intro c s c'
  rw [ByteString.read, Run.bind_eq_ok_iff, true_and]
  constructor
  · rintro ⟨n, c₁, hn, hk⟩
    obtain ⟨-, hp₁⟩ := (Reader.reads_word order _).eq_ok_iff.1 hn
    obtain ⟨content, c₂, hcontent, hlast⟩ := Run.bind_eq_ok_iff.1 hk
    obtain ⟨rfl, hp₂⟩ := (Reader.reads_bytes n).eq_ok_iff.1 hcontent
    obtain ⟨c₃, hp₃, hcheck⟩ := (ByteString.terminator_eq_ok_iff form).1 hlast
    obtain ⟨hs, rfl⟩ := Reader.lift_eq_ok_iff.1 hcheck
    obtain rfl := ByteString.bytes_of_ofBytes hs
    exact Cursor.passes_append.2 ⟨c₂, Cursor.passes_append.2 ⟨c₁, hp₁, hp₂⟩, hp₃⟩
  · intro hp
    obtain ⟨c₂, hp, hp₃⟩ := Cursor.passes_append.1 hp
    obtain ⟨c₁, hp₁, hp₂⟩ := Cursor.passes_append.1 hp
    have hlt : s.bytes.length < 256 ^ form.width.size := StringForm.lt_of_admits s.admitted
    refine ⟨_, c₁, (Reader.reads_word order _).eq_ok_iff.2 ⟨hlt, hp₁⟩, ?_⟩
    refine Run.bind_eq_ok_iff.2 ⟨_, c₂, (Reader.reads_bytes _).eq_ok_iff.2 ⟨rfl, hp₂⟩, ?_⟩
    refine (ByteString.terminator_eq_ok_iff form).2 ⟨c', hp₃, ?_⟩
    exact Reader.lift_eq_ok_iff.2 ⟨ByteString.ofBytes_bytes s, rfl⟩

theorem CellType.reads (order : ByteOrder) (t : CellType) :
    Reader.Reads (t.read order) (fun _ => True) (t.stored order) := by
  intro c a c'
  -- every fixed-width type reads a word and sees it through a bijection
  cases t with
  | int8 =>
    have h := (Reader.reads_word order 1).map (fun n => (UInt8.ofNat n).toInt8)
      (fun v : Int8 => v.toUInt8.toNat) (fun v => v.toUInt8.toNat_lt) (fun v => by simp)
      (fun n hn => by simpa using hn)
    rw [CellType.read, h.eq_ok_iff]
    simp [CellType.stored, CellType.pieces]
  | uint8 =>
    have h := (Reader.reads_word order 1).map UInt8.ofNat UInt8.toNat (fun v => v.toNat_lt)
      (fun v => by simp) (fun n hn => by simpa using hn)
    rw [CellType.read, h.eq_ok_iff]
    simp [CellType.stored, CellType.pieces]
  | int16 =>
    have h := (Reader.reads_word order 2).map (fun n => (UInt16.ofNat n).toInt16)
      (fun v : Int16 => v.toUInt16.toNat) (fun v => v.toUInt16.toNat_lt) (fun v => by simp)
      (fun n hn => by simpa using hn)
    rw [CellType.read, h.eq_ok_iff]
    simp [CellType.stored, CellType.pieces]
  | uint16 =>
    rw [CellType.read, ← Reader.uint16, (Reader.reads_uint16 order).eq_ok_iff]
    simp [CellType.stored, CellType.pieces]
  | int32 =>
    have h := (Reader.reads_word order 4).map (fun n => (UInt32.ofNat n).toInt32)
      (fun v : Int32 => v.toUInt32.toNat) (fun v => v.toUInt32.toNat_lt) (fun v => by simp)
      (fun n hn => by simpa using hn)
    rw [CellType.read, h.eq_ok_iff]
    simp [CellType.stored, CellType.pieces]
  | uint32 =>
    rw [CellType.read, ← Reader.uint32, (Reader.reads_uint32 order).eq_ok_iff]
    simp [CellType.stored, CellType.pieces]
  | float32 =>
    rw [CellType.read, ← Reader.uint32, (Reader.reads_uint32 order).eq_ok_iff]
    simp [CellType.stored, CellType.pieces]
  | float64 =>
    have h := (Reader.reads_word order 8).map UInt64.ofNat UInt64.toNat (fun v => v.toNat_lt)
      (fun v => by simp) (fun n hn => by simpa using hn)
    rw [CellType.read, h.eq_ok_iff]
    simp [CellType.stored, CellType.pieces]
  | string form =>
    rw [CellType.read, (ByteString.reads order form).eq_ok_iff]
    simp only [CellType.stored, CellType.pieces, ByteString.flatten_pieces]

theorem Operands.reads (order : ByteOrder) (fs : List Field) :
    Reader.Reads (Operands.read order fs) (fun _ => True) (Operands.stored order) := by
  induction fs with
  | nil =>
    intro c xs c'
    rw [Operands.read, Run.pure_eq_ok_iff]
    simp [Operands.stored]
  | cons f fs ih =>
    intro c xs c'
    obtain ⟨v, rest⟩ := xs
    rw [Operands.read, Operands.stored, Run.bind_eq_ok_iff, true_and, Cursor.passes_append]
    constructor
    · rintro ⟨v', c₁, hv, hk⟩
      obtain ⟨rest', c₂, hrest, hlast⟩ := Run.bind_eq_ok_iff.1 hk
      obtain ⟨hpair, rfl⟩ := Run.pure_eq_ok_iff.1 hlast
      obtain ⟨rfl, rfl⟩ := Prod.mk.inj hpair
      exact ⟨c₁, ((CellType.reads order _).eq_ok_iff.1 hv).2, (ih.eq_ok_iff.1 hrest).2⟩
    · rintro ⟨c₁, hp₁, hp₂⟩
      refine ⟨v, c₁, (CellType.reads order _).eq_ok_iff.2 ⟨trivial, hp₁⟩, ?_⟩
      refine Run.bind_eq_ok_iff.2 ⟨rest, c', ih.eq_ok_iff.2 ⟨trivial, hp₂⟩, ?_⟩
      exact Run.pure_eq_ok_iff.2 ⟨rfl, rfl⟩

theorem Opcode.byte_ne_unsupported (o : Opcode) : o.byte ≠ Opcode.unsupportedByte := by
  cases o <;> decide

theorem Op.reads (order : ByteOrder) :
    Reader.Reads (Op.read order) (fun _ => True) (Op.stored order) := by
  intro c o c'
  rw [Op.read, Run.bind_eq_ok_iff, true_and,
    show o.stored order = [o.code.byte] ++ o.operands.stored order from rfl, Cursor.passes_append]
  constructor
  · rintro ⟨b, c₁, hb, hk⟩
    obtain ⟨-, hp₁⟩ := Reader.reads_byte.eq_ok_iff.1 hb
    obtain ⟨-, hk⟩ := Run.guard_eq_ok_iff.1 hk
    cases hcode : Opcode.ofByte? b with
    | none =>
      rw [hcode] at hk
      exact absurd hk Run.throw_ne_ok
    | some code =>
      rw [hcode] at hk
      obtain ⟨xs, c₂, hxs, hlast⟩ := Run.bind_eq_ok_iff.1 hk
      obtain ⟨rfl, rfl⟩ := Run.pure_eq_ok_iff.1 hlast
      rw [← Opcode.byte_of_ofByte? hcode] at hp₁
      exact ⟨c₁, hp₁, ((Operands.reads order _).eq_ok_iff.1 hxs).2⟩
  · rintro ⟨c₁, hp₁, hp₂⟩
    refine ⟨o.code.byte, c₁, Reader.reads_byte.eq_ok_iff.2 ⟨trivial, hp₁⟩, ?_⟩
    refine Run.guard_eq_ok_iff.2 ⟨Opcode.byte_ne_unsupported _, ?_⟩
    rw [Opcode.ofByte?_byte]
    refine Run.bind_eq_ok_iff.2 ⟨o.operands, c', ?_, Run.pure_eq_ok_iff.2 ⟨rfl, rfl⟩⟩
    exact (Operands.reads order _).eq_ok_iff.2 ⟨trivial, hp₂⟩

end ScriptImage
