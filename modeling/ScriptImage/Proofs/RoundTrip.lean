import ScriptImage.Proofs.CodeStream
import ScriptImage.Proofs.HeaderReading

/-!
# Files and their bytes

A file is decoded exactly from the stored form of a well-formed image, in the byte order of
that image:

    Image.decode options bytes = .ok image ↔
      (∀ o ∈ options.order, o = image.order) ∧
        image.WellFormed options.verifyOffsets ∧ bytes = image.stored      (decode_eq_ok_iff)

The magic word reads differently in the two byte orders, so the order of a file can be found
out and no file is accepted in the wrong one.  Both round trips are consequences: an accepted
file is encoded to the same bytes, and an image with updated offsets is decoded from its bytes
exactly if each routine ends once.
-/

namespace ScriptImage

/-! ## The magic word -/

namespace Header

theorem take_stored (order : ByteOrder) (h : Header) (rest : List UInt8) :
    (h.stored order ++ rest).take 4 = order.inverted.encode 4 magic.toNat := by
  have hlen : (order.inverted.encode 4 magic.toNat).length = 4 := ByteOrder.length_encode _ _ _
  simp only [stored, preamble, List.append_assoc]
  rw [List.take_append_of_le_length (Nat.le_of_eq hlen.symm), List.take_of_length_le (Nat.le_of_eq hlen)]

/-- The magic word of a file tells its byte order. -/
theorem detectOrder_of_take {order : ByteOrder} {bytes : List UInt8}
    (h : bytes.take 4 = order.inverted.encode 4 magic.toNat) : detectOrder bytes = .ok order := by
  have hlen := ByteOrder.length_encode order.inverted 4 magic.toNat
  simp only [detectOrder, h, hlen, Nat.lt_irrefl, if_false]
  cases order <;> rfl

theorem detectOrder_stored (order : ByteOrder) (h : Header) (rest : List UInt8) :
    detectOrder (h.stored order ++ rest) = .ok order :=
  detectOrder_of_take (take_stored order h rest)

/-- In the opposite byte order the magic word reads differently. -/
theorem read_inverted (order : ByteOrder) (h : Header) (rest : List UInt8) (p : Nat) :
    ∃ c, Header.read order.inverted ⟨p, h.stored order ++ rest⟩ = .error (.badMagic 0x0049534F) c := by
  have hswapped : order.inverted.encode 4 magic.toNat = order.encode 4 (0x0049534F : UInt32).toNat := by
    cases order <;> rfl
  have hfirst : ∃ c, Reader.uint32 order ⟨p, h.stored order ++ rest⟩ = .ok 0x0049534F c := by
    refine ⟨⟨p + 4, (h.stored order ++ rest).drop 4⟩, (Reader.reads_uint32 order).eq_ok_iff.2 ⟨trivial, ?_, ?_⟩⟩
    · rw [← hswapped, ← take_stored order h rest, List.take_append_drop]
    · rw [ByteOrder.length_encode]
  obtain ⟨c, hfirst⟩ := hfirst
  refine ⟨c, ?_⟩
  unfold Header.read
  rw [ByteOrder.inverted_inverted, Run.bind_of_ok hfirst, if_pos (by decide)]
  rfl

end Header

/-! ## Decoding -/

namespace Image

def stored (image : Image) : List UInt8 :=
  image.header.stored image.order ++ image.code.stored image.order

/-- What decoding guarantees of an image. With `verify`, functions and methods point at routines. -/
structure WellFormed (verify : Bool) (image : Image) : Prop where
  storable : image.header.Storable
  forms : image.header.DeclaredForms
  ends : ∀ r ∈ image.code.routines, r.EndsOnce
  concrete : image.code.Concrete
  laidOut : image.code = image.code.laidOut (UInt32.ofNat image.header.size)
  fits : image.header.size + image.code.size ≤ maxOffset
  starts : verify = true → ∀ o ∈ image.header.starts, o ∈ image.code.offsets

theorem read_eq_ok_iff {order : ByteOrder} {verify : Bool} {bytes : List UInt8} {image : Image} :
    (∃ c, Image.read order verify ⟨0, bytes⟩ = .ok image c) ↔
      order = image.order ∧ image.WellFormed verify ∧ bytes = image.stored := by
  obtain ⟨header, code, order'⟩ := image
  have hheader : ∀ c, (Cursor.mk 0 bytes).Passes (header.stored order) c →
      c.offset = header.size := by
    intro c hpass
    rw [hpass.2, header.length_stored, Nat.zero_add]
  have hexpected : ∀ offsets : List UInt32,
      (∀ o ∈ (if verify then header.starts else []), o ∈ offsets) ↔
        (verify = true → ∀ o ∈ header.starts, o ∈ offsets) := by
    intro offsets
    cases verify <;> simp
  simp only [Image.read, Run.bind_eq_ok_iff, Run.guard_eq_ok_iff, Run.get_eq_ok_iff,
    Run.pure_eq_ok_iff, (Header.reads order).nested.eq_ok_iff, Code.read_eq_ok_iff]
  constructor
  · rintro ⟨c, h, c₁, ⟨⟨hstorable, hforms⟩, hpass⟩, c₂, c₃, ⟨rfl, rfl⟩, hsize, code', c₄,
      ⟨hends, hconcrete, hlaid, hfits, hstarts, hpass', hend⟩, heq, rfl⟩
    obtain ⟨rfl, rfl, rfl⟩ := Image.mk.inj heq
    rw [hheader _ hpass] at hsize hlaid hfits
    rw [Code.toNat_ofNat_of_le (Nat.le_of_not_lt hsize)] at hfits
    refine ⟨rfl, ⟨hstorable, hforms, hends, hconcrete, hlaid, hfits, (hexpected _).1 hstarts⟩, ?_⟩
    have hbytes := hpass.1
    rw [hpass'.1, hend, List.append_nil] at hbytes
    exact hbytes
  · rintro ⟨rfl, ⟨hstorable, hforms, hends, hconcrete, hlaid, hfits, hstarts⟩, rfl⟩
    have hsize : header.size ≤ maxOffset := by
      show header.size ≤ maxOffset
      have : header.size + code.size ≤ maxOffset := hfits
      omega
    have hpass : (Cursor.mk 0 (header.stored order ++ code.stored order)).Passes
        (header.stored order) ⟨header.size, code.stored order⟩ := by
      refine ⟨rfl, ?_⟩
      rw [header.length_stored, Nat.zero_add]
    refine ⟨⟨header.size + code.size, []⟩, header, _, ⟨⟨hstorable, hforms⟩, hpass⟩, _, _,
      ⟨rfl, rfl⟩, Nat.not_lt_of_le hsize, code, _,
      ⟨hends, hconcrete, hlaid, ?_, (hexpected _).2 hstarts, ⟨?_, ?_⟩, rfl⟩, rfl, rfl⟩
    · rw [Code.toNat_ofNat_of_le hsize]
      exact hfits
    · rw [List.append_nil]
    · rw [code.length_stored order hconcrete]

/-- **Decoding.**  A file is decoded exactly from the stored form of a well-formed image, in the
byte order of that image. -/
theorem decode_eq_ok_iff {options : DecodeOptions} {bytes : List UInt8} {image : Image} :
    Image.decode options bytes = .ok image ↔
      (∀ o ∈ options.order, o = image.order) ∧ image.WellFormed options.verifyOffsets ∧
        bytes = image.stored := by
  obtain ⟨order?, verify⟩ := options
  have hrun : ∀ order, (∃ a, (Image.read order verify).runOn bytes = .ok a ∧ a.1 = image) ↔
      order = image.order ∧ image.WellFormed verify ∧ bytes = image.stored := by
    intro order
    rw [← read_eq_ok_iff]
    unfold Reader.runOn
    cases hread : Image.read order verify ⟨0, bytes⟩ with
    | ok image' c => simp
    | error e c => simp
  have hdetected : bytes = image.stored → Header.detectOrder bytes = .ok image.order := by
    rintro rfl
    exact Header.detectOrder_stored _ _ _
  have hlast : ∀ order, ((Image.read order verify).runOn bytes >>= fun a => (.ok a.1 : Except Error Image)) =
      .ok image ↔ order = image.order ∧ image.WellFormed verify ∧ bytes = image.stored := by
    intro order
    rw [← hrun order, Run.except_bind_eq_ok_iff]
    simp
  cases order? with
  | some order =>
    show ((Image.read order verify).runOn bytes >>= fun a => (.ok a.1 : Except Error Image)) = _ ↔ _
    rw [hlast order]
    simp
  | none =>
    show (Header.detectOrder bytes >>= fun order =>
      (Image.read order verify).runOn bytes >>= fun a => (.ok a.1 : Except Error Image)) = _ ↔ _
    rw [Run.except_bind_eq_ok_iff]
    constructor
    · rintro ⟨order, -, hread⟩
      obtain ⟨-, hwf, hbytes⟩ := (hlast order).1 hread
      exact ⟨by simp, hwf, hbytes⟩
    · rintro ⟨-, hwf, hbytes⟩
      exact ⟨image.order, hdetected hbytes, (hlast _).2 ⟨rfl, hwf, hbytes⟩⟩

theorem WellFormed.current {verify : Bool} {image : Image} (h : image.WellFormed verify) :
    image.stale? = none := by
  have hsize : (UInt32.ofNat image.header.size).toNat = image.header.size := by
    have := h.fits
    exact Code.toNat_ofNat_of_le (by omega)
  refine stale?_eq_none ?_ ?_ h.fits
  · rw [h.laidOut]
    exact hsize
  · have hoffsets := congrArg Code.offsets h.laidOut
    rw [hoffsets]
    show Code.startsFrom (UInt32.ofNat image.header.size).toNat _ = _
    rw [hsize]

/-! ## Decoding, then encoding -/

/-- **An accepted file is encoded to the same bytes.** -/
theorem encode_of_decode {options : DecodeOptions} {bytes : List UInt8} {image : Image}
    (h : Image.decode options bytes = .ok image) : image.encode = .ok bytes := by
  obtain ⟨-, hwf, hbytes⟩ := decode_eq_ok_iff.1 h
  exact encode_eq_ok_iff.2 ⟨hwf.current, hwf.storable, hwf.concrete, hbytes⟩

/-- A file with a function and a method, whose routines follow the header. -/
def sample : Image where
  header := { Header.empty .v41 with
    functions := [⟨⟨[109], by decide⟩, 0, 41⟩]
    classes := ⟨.one, [⟨⟨[67], by decide⟩, [1], [⟨0, 43⟩]⟩]⟩ }
  code :=
    { routines := [[.op ⟨.pushTrue, ()⟩, .op .endRoutine], [.op (.newObject 0), .op .endRoutine]]
      offsets := [41, 43]
      index := [(43, 1), (41, 0)]
      base := 41 }
  order := .big

theorem wellFormed_sample : sample.WellFormed true where
  storable := ⟨rfl, rfl, by decide, by decide⟩
  forms := ⟨rfl, rfl, rfl, fun p hp => by cases hp; rfl⟩
  ends := by decide
  concrete := by decide
  laidOut := rfl
  fits := by decide
  starts := fun _ _ ho => ho

theorem encode_of_decode_sample :
    Image.decode .standard sample.stored = .ok sample ∧ sample.encode = .ok sample.stored := by
  have h : Image.decode .standard sample.stored = .ok sample :=
    decode_eq_ok_iff.2 ⟨by simp [DecodeOptions.standard], wellFormed_sample, rfl⟩
  exact ⟨h, encode_of_decode h⟩

/-! ## Encoding, then decoding -/

theorem Updated.declaredForms {image image' : Image} (h : Updated image image')
    (hforms : image.header.DeclaredForms) : image'.header.DeclaredForms := by
  have heq := h.header
  simp only [Header.withoutOffsets, Header.mk.injEq] at heq
  obtain ⟨-, hstrings, hglobals, -, -, hsymbols, hsources⟩ := heq
  refine ⟨?_, ?_, ?_, ?_⟩
  · rw [hstrings]
    exact hforms.strings
  · rw [hglobals]
    exact hforms.globals
  · rw [hsymbols]
    exact hforms.symbols
  · rw [hsources]
    exact hforms.sources

theorem Updated.size_header {image image' : Image} (h : Updated image image') :
    image'.header.size = image.header.size := by
  rw [← Header.size_withoutOffsets, h.header, Header.size_withoutOffsets]

/-- With updated offsets, all that decoding asks beyond encoding is that routines end once. -/
theorem Updated.wellFormed_iff {image image' : Image} {bytes : List UInt8} (h : Updated image image')
    (hforms : image.header.DeclaredForms) (hencode : image'.encode = .ok bytes) :
    image'.WellFormed true ↔ ∀ r ∈ image'.code.routines, r.EndsOnce := by
  obtain ⟨-, hstorable, hconcrete, -⟩ := encode_eq_ok_iff.1 hencode
  have hcode : image'.code = image'.code.laidOut (UInt32.ofNat image'.header.size) := by
    rw [h.size_header, h.code]
    rfl
  have hfits : image'.header.size + image'.code.size ≤ maxOffset := by
    rw [h.size_header, h.code]
    exact h.fits
  constructor
  · intro hwf
    exact hwf.ends
  · intro hends
    exact ⟨hstorable, h.declaredForms hforms, hends, hconcrete, hcode, hfits, fun _ => h.starts⟩

/-- The opposite byte order is not accepted. -/
theorem decode_inverted (image : Image) (verify : Bool) :
    ∃ e, Image.decode ⟨some image.order.inverted, verify⟩ image.stored = .error e ∧ e.kind = .invalid := by
  obtain ⟨c, hread⟩ := image.header.read_inverted image.order (image.code.stored image.order) 0
  have hnested : Reader.nested (Header.read image.order.inverted) ⟨0, image.stored⟩ =
      .error (.badMagic 0x0049534F) ⟨0, image.stored⟩ := by
    unfold Reader.nested stored
    rw [hread]
  have hrun : (Image.read image.order.inverted verify).runOn image.stored =
      .error (.badMagic 0x0049534F) := by
    unfold Reader.runOn Image.read
    rw [Run.bind_of_error hnested]
  refine ⟨.badMagic 0x0049534F, ?_, rfl⟩
  show ((Image.read image.order.inverted verify).runOn image.stored >>= _) = _
  rw [hrun]
  rfl

/-- Two images that nothing tells apart: same header, routines, offsets, index and byte order. -/
structure Same (a b : Image) : Prop where
  header : a.header = b.header
  routines : a.code.routines = b.code.routines
  base : a.code.base = b.code.base
  offsets : a.code.offsets = b.code.offsets
  lookup : ∀ offset, a.code.at? offset = b.code.at? offset
  order : a.order = b.order

theorem Same.refl (image : Image) : image.Same image :=
  ⟨rfl, rfl, rfl, rfl, fun _ => rfl, rfl⟩

/-- **A file with updated offsets is decoded from its bytes exactly if each routine ends once**,
whether its byte order is found out or given; in the opposite byte order it is invalid. -/
theorem decode_of_encode_updated {image image' : Image} {bytes : List UInt8}
    (hforms : image.header.DeclaredForms) (hupdate : updateOffsets image = .ok () image')
    (hencode : image'.encode = .ok bytes) :
    (∀ order?, order? = none ∨ order? = some image'.order →
      ((∃ decoded, Image.decode ⟨order?, true⟩ bytes = .ok decoded ∧ decoded.Same image') ↔
        ∀ r ∈ image'.code.routines, r.EndsOnce)) ∧
    ∀ verify, ∃ e, Image.decode ⟨some image'.order.inverted, verify⟩ bytes = .error e ∧
      e.kind = .invalid := by
  have hwf := (updated_of_updateOffsets hupdate).wellFormed_iff hforms hencode
  obtain rfl := (encode_eq_ok_iff.1 hencode).2.2.2
  refine ⟨fun order? horder => ⟨?_, ?_⟩, fun verify => decode_inverted image' verify⟩
  · rintro ⟨decoded, hdecoded, hsame⟩
    obtain ⟨-, hgood, -⟩ := decode_eq_ok_iff.1 hdecoded
    rw [← hsame.routines]
    exact hgood.ends
  · intro hends
    refine ⟨image', decode_eq_ok_iff.2 ⟨?_, hwf.2 hends, rfl⟩, Same.refl image'⟩
    intro o ho
    rcases horder with rfl | rfl
    · cases ho
    · exact (Option.some.inj ho).symm

/-- The sample before its offsets are updated. -/
def sampleDraft : Image where
  header := Image.withOffsets sample.header [0] [[7]]
  code := { sample.code with offsets := [0, 7], index := [(7, 1), (0, 0)], base := 0 }
  order := .big

theorem decode_of_encode_updated_sample :
    sampleDraft.header.DeclaredForms ∧ updateOffsets sampleDraft = .ok () sample ∧
      sample.encode = .ok sample.stored ∧
      ((∃ decoded, Image.decode ⟨none, true⟩ sample.stored = .ok decoded ∧ decoded.Same sample) ↔
        ∀ r ∈ sample.code.routines, r.EndsOnce) ∧
      ∃ e, Image.decode ⟨some .little, false⟩ sample.stored = .error e ∧ e.kind = .invalid := by
  have hforms : sampleDraft.header.DeclaredForms := ⟨rfl, rfl, rfl, fun p hp => by cases hp; rfl⟩
  have hupdate : updateOffsets sampleDraft = .ok () sample := rfl
  have hencode : sample.encode = .ok sample.stored := rfl
  have h := decode_of_encode_updated hforms hupdate hencode
  exact ⟨hforms, hupdate, hencode, h.1 none (Or.inl rfl), h.2 false⟩

end Image

end ScriptImage
