import ScriptImage.Proofs.HandOff

/-!
# Cells on the wire

A cell that is written where it fits is read again from the same position, whatever its type and
whatever the byte order.  The other way round, reading succeeds exactly on bytes that spell a value,
and what is read then stands for just these bytes:

    readCell t f = .ok c g ↔ c.type = t ∧ (bytes from the cursor on) = c.stored order ++ … ∧ g = f past them

What spells a value of a fixed width is any bytes of that width.  A string takes its length, as much
content as that says and the terminator, which is a NUL where there is one, and then the only one.
-/

namespace ScriptImage

/-! ## What spells a value -/

namespace StringForm

/-- The length that bytes announce in front of a string. -/
def announced (form : StringForm) (order : ByteOrder) (bytes : List UInt8) : Nat :=
  order.decode (bytes.take form.width.size)

/-- What it takes for bytes to begin with a string of a form. -/
structure Spelled (form : StringForm) (order : ByteOrder) (bytes : List UInt8) : Prop where
  length : form.width.size ≤ bytes.length
  /-- As much content as is announced is there, and room for the terminator. -/
  content : form.width.size + form.announced order bytes + form.terminator.length ≤ bytes.length
  closed : form.terminated = true → bytes[form.width.size + form.announced order bytes]? = some 0
  clean : form.terminated = true →
    0 ∉ (bytes.drop form.width.size).take (form.announced order bytes)

variable {form : StringForm} {order : ByteOrder} {bytes rest : List UInt8}

theorem announced_stored (s : ByteString form) (rest : List UInt8) :
    form.announced order (s.stored order ++ rest) = s.bytes.length := by
  have hlength := order.length_encode form.width.size s.bytes.length
  rw [announced, ByteString.stored, List.append_assoc, List.append_assoc, List.take_left' hlength,
    order.decode_encode, Nat.mod_eq_of_lt (lt_of_admits s.admitted)]

theorem spelled_stored (s : ByteString form) (rest : List UInt8) :
    form.Spelled order (s.stored order ++ rest) := by
  have hlength := order.length_encode form.width.size s.bytes.length
  have hstored := s.length_stored order
  have happend : s.stored order ++ rest =
      order.encode form.width.size s.bytes.length ++ (s.bytes ++ (form.terminator ++ rest)) := by
    simp only [ByteString.stored, List.append_assoc]
  constructor
  · rw [happend, List.length_append, hlength]
    omega
  · rw [announced_stored, List.length_append, hstored, ByteString.size, overhead]
    omega
  · intro ht
    rw [announced_stored, happend, ← List.getElem?_drop, List.drop_left' hlength,
      List.getElem?_append_right (Nat.le_refl _), Nat.sub_self, terminator, if_pos ht]
    rfl
  · intro ht
    rw [announced_stored, happend, List.drop_left' hlength, List.take_left]
    exact s.admitted.2 ht

/-- The terminator stands behind the content. -/
theorem Spelled.exists_rest (h : form.Spelled order bytes) :
    ∃ rest, (bytes.drop form.width.size).drop (form.announced order bytes) = form.terminator ++ rest := by
  rw [List.drop_drop]
  unfold terminator
  by_cases ht : form.terminated = true
  · obtain ⟨hlt, hzero⟩ := List.getElem?_eq_some_iff.1 (h.closed ht)
    rw [if_pos ht, List.drop_eq_getElem_cons hlt, hzero]
    exact ⟨_, rfl⟩
  · rw [if_neg ht]
    exact ⟨_, rfl⟩

theorem Spelled.exists_stored (h : form.Spelled order bytes) :
    ∃ (s : ByteString form) (rest : List UInt8), bytes = s.stored order ++ rest := by
  have htake : (bytes.take form.width.size).length = form.width.size :=
    List.length_take_of_le h.length
  have hcontent := h.content
  have hlength : ((bytes.drop form.width.size).take (form.announced order bytes)).length =
      form.announced order bytes := List.length_take_of_le (by rw [List.length_drop]; omega)
  -- what the length announces is no more than it can
  have hmax : form.announced order bytes ≤ form.maxLength := by
    have hlt := order.decode_lt (bytes.take form.width.size)
    rw [htake] at hlt
    exact Nat.le_sub_one_of_lt hlt
  have hencode : order.encode form.width.size (form.announced order bytes) = bytes.take form.width.size := by
    have h := order.encode_decode (bytes.take form.width.size)
    rwa [htake] at h
  have hadmits : form.Admits ((bytes.drop form.width.size).take (form.announced order bytes)) :=
    ⟨by rw [hlength]; exact hmax, h.clean⟩
  obtain ⟨rest, hrest⟩ := h.exists_rest
  refine ⟨⟨_, hadmits⟩, rest, ?_⟩
  show bytes = order.encode form.width.size (List.length _) ++ List.take _ _ ++ form.terminator ++ rest
  rw [hlength, hencode, List.append_assoc, List.append_assoc, ← hrest, List.take_append_drop,
    List.take_append_drop]

end StringForm

namespace CellType

/-- What it takes for bytes to begin with a value of a type. -/
structure Spelled (t : CellType) (order : ByteOrder) (bytes : List UInt8) : Prop where
  fixed : ∀ n, t.width? = some n → n ≤ bytes.length
  string : ∀ form, t = .string form → form.Spelled order bytes

variable {t : CellType} {order : ByteOrder} {bytes : List UInt8}

/-- Any bytes of its width are a value of a type of fixed width. -/
theorem exists_stored_of_width {n : Nat} (ht : t.width? = some n) (hn : n ≤ bytes.length) :
    ∃ (v : t.Carrier) (rest : List UInt8), bytes = t.stored order v ++ rest := by
  have hword : ∃ v c, Reader.word order n ⟨0, bytes⟩ = .ok v c := by
    refine ⟨_, ⟨0 + n, bytes.drop n⟩, Run.bind_of_ok (a := bytes.take n) ?_⟩
    exact if_pos (List.length_take_of_le hn)
  obtain ⟨word, c, hword⟩ := hword
  have hread : ∃ v, t.read order ⟨0, bytes⟩ = .ok v c := by
    cases t with
    | string form => cases ht
    | _ =>
      cases ht
      exact ⟨_, Run.bind_of_ok hword⟩
  obtain ⟨v, hread⟩ := hread
  obtain ⟨-, hpasses, -⟩ := (CellType.reads order t).eq_ok_iff.1 hread
  exact ⟨v, _, hpasses⟩

/-- Bytes spell a value exactly if they begin with its stored form. -/
theorem spelled_iff : t.Spelled order bytes ↔
    ∃ (v : t.Carrier) (rest : List UInt8), bytes = t.stored order v ++ rest := by
  constructor
  · intro h
    cases ht : t.width? with
    | some n => exact exists_stored_of_width ht (h.fixed n ht)
    | none =>
      cases t with
      | string form =>
        obtain ⟨s, rest, hbytes⟩ := (h.string form rfl).exists_stored
        exact ⟨s, rest, by rw [hbytes, stored, pieces, s.flatten_pieces]⟩
      | _ => cases ht
  · rintro ⟨v, rest, rfl⟩
    refine ⟨fun n hn => ?_, ?_⟩
    · rw [List.length_append, length_stored, sizeOf_of_width? hn]
      exact Nat.le_add_right _ _
    · rintro form rfl
      rw [stored, pieces, ByteString.flatten_pieces]
      exact StringForm.spelled_stored v rest

end CellType

theorem Cell.read_eq_ok_iff {order : ByteOrder} {t : CellType} {cur cur' : Cursor} {c : Cell} :
    Cell.read order t cur = .ok c cur' ↔ c.type = t ∧ cur.Passes (c.stored order) cur' := by
  rw [Cell.read, Run.bind_eq_ok_iff]
  constructor
  · rintro ⟨v, cur₁, hv, hlast⟩
    obtain ⟨rfl, rfl⟩ := Run.pure_eq_ok_iff.1 hlast
    exact ⟨rfl, ((CellType.reads _ t).eq_ok_iff.1 hv).2⟩
  · rintro ⟨rfl, hpasses⟩
    exact ⟨c.value, cur', (CellType.reads _ c.type).eq_ok_iff.2 ⟨trivial, hpasses⟩, rfl⟩

/-! ## Through windows -/

namespace MachineM

variable {f g : Focus} {c : Cell} {t : CellType}

/-- What is read is what the bytes from the cursor on begin with. -/
theorem readCell_eq_ok_iff (hf : f.Sound) : readCell t f = .ok c g ↔
    c.type = t ∧ (∃ rest, f.cursor.rest = c.stored f.window.order ++ rest) ∧
      g = f.seek (f.window.offset + c.size) := by
  have hsize := c.length_stored f.window.order
  -- a cell that is there leaves the reader behind it
  have hthere : c.type = t → (∃ rest, f.cursor.rest = c.stored f.window.order ++ rest) →
      ∃ rest, Cell.read f.window.order t f.cursor = .ok c ⟨f.window.offset + c.size, rest⟩ := by
    rintro htype ⟨rest, hrest⟩
    exact ⟨rest, Cell.read_eq_ok_iff.2 ⟨htype, hrest, by rw [hsize]; rfl⟩⟩
  obtain ⟨p, -, -, ⟨a, hr, hm⟩ | ⟨e, hr, hm⟩⟩ := performs_cell f.window.order t f hf rfl
  · rw [hm]
    constructor
    · intro h
      cases h
      obtain ⟨htype, hrest, hoffset⟩ := Cell.read_eq_ok_iff.1 hr
      rw [hsize] at hoffset
      exact ⟨htype, ⟨_, hrest⟩, congrArg f.seek hoffset⟩
    · rintro ⟨htype, hrest, rfl⟩
      obtain ⟨rest, hcell⟩ := hthere htype hrest
      rw [hr] at hcell
      injection hcell with hvalue hcursor
      have hp : p = f.window.offset + c.size := congrArg Cursor.offset hcursor
      rw [hvalue, hp]
  · rw [hm]
    constructor
    · intro h
      cases h
    · rintro ⟨htype, hrest, -⟩
      obtain ⟨rest, hcell⟩ := hthere htype hrest
      rw [hr] at hcell
      cases hcell

/-- What is written is found from the position where the cursor was. -/
theorem take_rest_write {bytes : List UInt8} (hf : f.Sound)
    (hroom : f.window.offset + bytes.length ≤ f.window.length) :
    ((f.write bytes).seek f.window.offset).cursor.rest.take bytes.length = bytes := by
  have hrange := hf.window.range
  have hbuffer : f.window.start + f.window.offset + bytes.length ≤
      (f.memory.buffer f.window.buffer).length := by omega
  show (((f.write bytes).window.content (f.write bytes).memory).drop f.window.offset).take bytes.length = bytes
  rw [Window.take_drop_content (by exact hroom)]
  exact Memory.take_drop_store hbuffer

theorem writeCell_of_room (hf : f.Sound) (hw : f.window.readOnly = false)
    (hroom : f.window.offset + c.size ≤ f.window.length) :
    writeCell c f = .ok () (f.write (c.stored f.window.order)) :=
  ((stores_cell f.window.order c).2 f hf rfl hw hroom).1 rfl

theorem window_write (c : Cell) (f : Focus) : (f.write (c.stored f.window.order)).window =
    { f.window with offset := f.window.offset + c.size } := by
  rw [← c.length_stored f.window.order]
  rfl

/-- No value is stored in no pieces. -/
theorem pieces_ne_nil (order : ByteOrder) (c : Cell) : c.pieces order ≠ [] := by
  obtain ⟨t, v⟩ := c
  cases t with
  | string form =>
    show v.pieces order ≠ []
    unfold ByteString.pieces
    split <;> exact List.cons_ne_nil _ _
  | _ => exact List.cons_ne_nil _ _

theorem writeCell_of_readOnly (hf : f.Sound) (hw : f.window.readOnly = true) (c : Cell) :
    writeCell c f = .error (.refused (.readOnlyWindow .write)) f := by
  show (c.pieces f.window.order).forM writeBytes f = _
  obtain ⟨bytes, pieces, hpieces⟩ := List.exists_cons_of_ne_nil (pieces_ne_nil f.window.order c)
  rw [hpieces]
  refine Run.bind_of_error ?_
  rw [writeBytes_eq hf, WindowM.writeBytes_eq, if_pos hw]
  rfl

/-- Values are written and read through a window, either byte order and all types alike. -/
structure CellCodec (f : Focus) : Prop where
  /-- A value that fits is written, moves the cursor by its size, and is read again from where it was. -/
  written : f.window.readOnly = false → ∀ c : Cell, f.window.offset + c.size ≤ f.window.length →
    ∃ g, writeCell c f = .ok () g ∧ g.window = { f.window with offset := f.window.offset + c.size } ∧
      readCell c.type (g.seek f.window.offset) = .ok c g
  /-- A window that may not be written refuses the value and stays as it is. -/
  refused : f.window.readOnly = true → ∀ c : Cell,
    writeCell c f = .error (.refused (.readOnlyWindow .write)) f
  /-- Reading succeeds exactly if the bytes from the cursor on begin with a value. -/
  accepted : ∀ t : CellType, (∃ c g, readCell t f = .ok c g) ↔ t.Spelled f.window.order f.cursor.rest
  /-- Written anywhere in the same byte order, what is read gives the bytes that were passed. -/
  reproduced : ∀ {t : CellType} {c : Cell} {g : Focus}, readCell t f = .ok c g → c.type = t ∧
    g = f.seek (f.window.offset + c.size) ∧
    ∀ h : Focus, h.Sound → h.window.order = f.window.order → h.window.readOnly = false →
      h.window.offset + c.size ≤ h.window.length →
        ∃ h', writeCell c h = .ok () h' ∧ h'.window = { h.window with offset := h.window.offset + c.size } ∧
          (h'.seek h.window.offset).cursor.rest.take c.size = f.cursor.rest.take c.size

/-- **Cells on the wire.**  Through any window, a value that may be written is read again from the same
position; reading succeeds exactly on bytes that spell a value; and what is read, written again, gives
just the bytes it was read from. -/
theorem cellCodec_of_sound (hf : f.Sound) : CellCodec f where
  written hw c hroom := by
    have hsize := c.length_stored f.window.order
    rw [← hsize] at hroom
    have hfollows := hf.follows_write hroom
    have hcursor := hf.window.cursor
    have hsound := (Focus.follows_seek (f := f.write (c.stored f.window.order)) hcursor).sound
      (hfollows.sound hf)
    refine ⟨_, writeCell_of_room hf hw (by omega), window_write c f, ?_⟩
    refine (readCell_eq_ok_iff hsound).2 ⟨rfl, ?_, ?_⟩
    · have htake := take_rest_write hf hroom
      have hsplit := (List.take_append_drop (c.stored f.window.order).length
        ((f.write (c.stored f.window.order)).seek f.window.offset).cursor.rest).symm
      rw [htake] at hsplit
      exact ⟨_, hsplit⟩
    · rw [← hsize]
      rfl
  refused hw c := writeCell_of_readOnly hf hw c
  accepted t := by
    rw [CellType.spelled_iff]
    constructor
    · rintro ⟨c, g, hread⟩
      obtain ⟨rfl, hrest, -⟩ := (readCell_eq_ok_iff hf).1 hread
      exact ⟨c.value, hrest⟩
    · rintro ⟨v, hrest⟩
      exact ⟨⟨t, v⟩, _, (readCell_eq_ok_iff hf).2 ⟨rfl, hrest, rfl⟩⟩
  reproduced {t c g} hread := by
    obtain ⟨htype, ⟨rest, hrest⟩, hg⟩ := (readCell_eq_ok_iff hf).1 hread
    refine ⟨htype, hg, fun h hh horder hw hroom => ?_⟩
    have hsize := c.length_stored h.window.order
    refine ⟨_, writeCell_of_room hh hw hroom, window_write c h, ?_⟩
    rw [← hsize] at hroom
    have htake := take_rest_write hh hroom
    rw [hsize] at htake
    rw [htake, hrest, ← horder, ← hsize, List.take_left]

/-- Six bytes in the middle of a buffer, which spell a terminated string. -/
def framed : Focus :=
  ⟨⟨[[1, 0, 2, 65, 66, 0, 7]]⟩, ⟨0, 1, 6, 0, .big, false⟩⟩

/-- The string is read, a longer one that the same bytes announce is not, and a word goes over its length. -/
theorem cellCodec_framed :
    framed.Sound ∧ CellCodec framed ∧
      (∃ s : ByteString .p16z, s.bytes = [65, 66] ∧
        readCell (.string .p16z) framed = .ok ⟨.string .p16z, s⟩ (framed.seek 5)) ∧
      ¬(CellType.string .p32).Spelled .big framed.cursor.rest ∧
      ∃ g, writeCell ⟨.uint16, (513 : UInt16)⟩ framed = .ok () g ∧ g.window.offset = 2 ∧
        readCell .uint16 (g.seek 0) = .ok ⟨.uint16, (513 : UInt16)⟩ g := by
  have hsound : framed.Sound := ⟨⟨by decide, by decide⟩, by decide⟩
  have hcodec := cellCodec_of_sound hsound
  obtain ⟨g, hwrite, hwindow, hread⟩ := hcodec.written rfl ⟨.uint16, (513 : UInt16)⟩ (by decide)
  refine ⟨hsound, hcodec, ⟨⟨[65, 66], by decide⟩, rfl, ?_⟩, fun h => ?_, g, hwrite, ?_, hread⟩
  · decide +kernel
  · exact absurd (h.string .p32 rfl).content (by decide +kernel)
  · rw [hwindow]
    rfl

/-- One byte that may not be written. -/
def sealedByte : Focus :=
  ⟨⟨[[0]]⟩, ⟨0, 0, 1, 0, .little, true⟩⟩

/-- Room alone is not enough to write a value. -/
theorem writeCell_sealedByte :
    (sealedByte.Sound ∧ sealedByte.window.offset + Cell.size ⟨.uint8, (7 : UInt8)⟩ ≤ sealedByte.window.length ∧
      writeCell ⟨.uint8, (7 : UInt8)⟩ sealedByte = .error (.refused (.readOnlyWindow .write)) sealedByte) ∧
    ¬∀ (f : Focus) (c : Cell), f.Sound → f.window.offset + c.size ≤ f.window.length →
      ∃ g, writeCell c f = .ok () g ∧ g.window.offset = f.window.offset + c.size := by
  have hsound : sealedByte.Sound := ⟨⟨by decide, by decide⟩, by decide⟩
  have hrefused : writeCell ⟨.uint8, (7 : UInt8)⟩ sealedByte =
      .error (.refused (.readOnlyWindow .write)) sealedByte := writeCell_of_readOnly hsound rfl _
  refine ⟨⟨hsound, by decide, hrefused⟩, fun h => ?_⟩
  obtain ⟨g, hwrite, -⟩ := h sealedByte ⟨.uint8, (7 : UInt8)⟩ hsound (by decide)
  rw [hrefused] at hwrite
  cases hwrite

end MachineM

end ScriptImage
