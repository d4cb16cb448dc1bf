import ScriptImage.Proofs.Relocation
import ScriptImage.Proofs.WordWriting

/-!
# What encoding may refuse

With offsets just updated, a file is refused only for what its header and its code hold: an
instruction that is symbolic, sources or a count width that are not those of the version, or more
entries than their count can hold.  Nothing else fails:

* no structure writes another number of bytes than it announces, at any depth,
* the window that is made for the file, of the size of header and code, is just filled, and no
  access to it or to a window within it is refused or causes a fault:

    image.encodeInWords = image.encode, with its error as that of a refused access
-/

namespace ScriptImage

namespace Encoding

/-! ## Announced sizes -/

/-- If the encoding fails, it is not because of a size announced wrongly. -/
def Honest (e : Encoding) : Prop :=
  ∀ announced written, e.failure ≠ some (.announcedSize announced written)

variable {a b : Encoding} {p : Prop} {bs : List UInt8}

theorem honest_ofBytes (bs : List UInt8) : (ofBytes bs).Honest :=
  fun _ _ => nofun

theorem Honest.append (ha : a.Honest) (hb : b.Honest) : (a ++ b).Honest := by
  intro announced written h
  cases hfailure : a.failure with
  | some e =>
    rw [append_fail a e b hfailure] at h
    exact ha announced written h
  | none =>
    rw [append_ok a b hfailure] at h
    exact hb announced written h

theorem Honest.concat {α : Type} {f : α → Encoding} (h : ∀ x, (f x).Honest) (xs : List α) :
    (Encoding.concat (xs.map f)).Honest := by
  induction xs with
  | nil => exact honest_ofBytes []
  | cons x xs ih => exact (h x).append ih

/-- A size that is announced rightly is no reason to fail. -/
theorem Honest.announced (ha : a.Honest) (hw : a.Writes p bs) {size : Nat} (hsize : p → bs.length = size) :
    (Encoding.announced size a).Honest := by
  rw [announced_of_length a fun hok => by rw [hw.2 (hw.1.1 hok), hsize (hw.1.1 hok)]]
  exact ha

theorem honest_count (order : ByteOrder) (width : CountWidth) (what : String) (n : Nat) :
    (count order width what n).Honest := by
  unfold count
  split
  · exact fun _ _ => nofun
  · exact honest_ofBytes _

end Encoding

open Encoding

theorem StringPool.honest (order : ByteOrder) (p : StringPool) : (p.encode order).Honest :=
  (honest_count order _ _ _).append (honest_ofBytes _)

theorem FunctionEntry.honest (order : ByteOrder) (f : FunctionEntry) : (f.encode order).Honest :=
  (honest_ofBytes _).announced (writes_ofBytes _) fun _ => f.length_stored order

theorem FunctionEntry.honest_table (order : ByteOrder) (fs : List FunctionEntry) :
    (encodeTable order fs).Honest :=
  (honest_count order _ _ _).append (Honest.concat (FunctionEntry.honest order) fs)

theorem ClassEntry.honest_members (order : ByteOrder) (width : CountWidth) (c : ClassEntry) :
    (c.encodeMembers order width).Honest :=
  (((honest_count order width _ _).append (honest_ofBytes _)).append
    (honest_count order width _ _)).append (honest_ofBytes _)

theorem ClassTable.honest (order : ByteOrder) (t : ClassTable) : (t.encode order).Honest :=
  ((honest_count order _ _ _).append
    (Honest.concat (ClassEntry.honest_members order t.countWidth) t.entries)).append (honest_ofBytes _)

theorem Header.honest (order : ByteOrder) (h : Header) : (h.encode order).Honest := by
  have hpool : ∀ p : StringPool, (encodePool order p).Honest :=
    fun p => (p.honest order).announced (p.writes order) fun _ => p.length_stored order
  have hfunctions := (FunctionEntry.honest_table order h.functions).announced
    (FunctionEntry.writes_table order h.functions) fun _ => FunctionEntry.length_storedTable order h.functions
  have hclasses := (h.classes.honest order).announced (h.classes.writes order)
    fun _ => h.classes.length_stored order
  have htables : (h.encodeTables order).Honest := by
    unfold encodeTables
    refine (((((hpool h.strings).append (hpool h.globals)).append hfunctions).append hclasses).append
      (hpool h.symbols)).append ?_
    cases h.sources with
    | some p => exact hpool p
    | none => exact honest_ofBytes []
  unfold encode
  split
  · exact fun _ _ => nofun
  · split
    · exact fun _ _ => nofun
    · exact (honest_ofBytes _).append htables

theorem Instr.honest (order : ByteOrder) (i : Instr) : (i.encode order).Honest := by
  cases i with
  | op o => exact (honest_ofBytes _).announced (writes_ofBytes _) fun _ => o.length_stored order
  | symbolic s => exact fun _ _ => nofun

theorem Routine.honest (order : ByteOrder) (r : Routine) : (r.encode order).Honest :=
  Honest.concat (Instr.honest order) r

theorem Code.honest (order : ByteOrder) (c : Code) : (c.encode order).Honest :=
  Honest.concat
    (fun r : Routine => (r.honest order).announced (r.writes order) fun h => r.length_stored order h) c.routines

namespace Image

/-! ## Writing a file -/

/-- Encoding a file is writing header and code one after the other. -/
def encoding (image : Image) : Encoding :=
  .announced image.header.size (image.header.encode image.order) ++
    .announced image.code.size (image.code.encode image.order)

theorem encode_of_current {image : Image} (h : image.stale? = none) :
    image.encode = image.encoding.toExcept := by
  unfold encode
  rw [h]
  rfl

theorem honest_encoding (image : Image) : image.encoding.Honest :=
  ((image.header.honest image.order).announced (image.header.writes image.order)
    fun _ => image.header.length_stored image.order).append
    ((image.code.honest image.order).announced (image.code.writes image.order)
      fun h => image.code.length_stored image.order h)

theorem length_encoding {image : Image} (h : image.encoding.failure = none) :
    image.encoding.bytes.length = image.header.size + image.code.size := by
  obtain ⟨hheader, hcode⟩ := (append_failure_eq_none_iff _ _).1 h
  unfold encoding
  rw [append_ok _ _ hheader, List.length_append, bytes_announced, bytes_announced,
    length_of_announced hheader, length_of_announced hcode]

/-- The window of a new file lies in its buffer. -/
theorem sound_blank {size : Nat} (hsize : size < bufferLimit) (order : ByteOrder) :
    (MachineM.blank size order).Sound := by
  have hlength : (List.replicate size (0 : UInt8)).length = size := List.length_replicate
  refine ⟨⟨?_, Nat.zero_le _⟩, ?_⟩
  · show 0 + size ≤ (List.replicate size (0 : UInt8)).length
    omega
  · show (List.replicate size (0 : UInt8)).length < bufferLimit
    omega

/-- A new file that is filled holds what was written. -/
theorem content_write_blank {size : Nat} {bytes : List UInt8} (hbytes : bytes.length = size)
    (order : ByteOrder) :
    ((MachineM.blank size order).write bytes).window.content ((MachineM.blank size order).write bytes).memory =
      bytes := by
  have hsplice : Memory.splice (List.replicate size 0) (0 + 0) bytes = bytes := by
    unfold Memory.splice
    rw [List.take_zero, List.nil_append, List.drop_eq_nil_of_le, List.append_nil]
    rw [List.length_replicate]
    omega
  show ((Memory.splice (List.replicate size 0) (0 + 0) bytes).drop 0).take size = bytes
  rw [hsplice, List.drop_zero, List.take_of_length_le (by omega)]

/-- With current offsets, encoding through windows is encoding. -/
theorem encodeInWords_eq {image : Image} (hcurrent : image.stale? = none)
    (hsize : image.header.size + image.code.size < bufferLimit) :
    image.encodeInWords = image.encode.mapError .refused := by
  have hlimit : bufferLimit < wordLimit := by decide
  have hheader := (MachineM.stores_header image.order image.header).structure (Nat.le_refl _)
  have hcode := (MachineM.stores_code image.order image.code).structure (Nat.le_refl _)
  have hsound := sound_blank hsize image.order
  obtain ⟨hok, herror⟩ := (hheader.append hcode).2 _ hsound rfl rfl (Nat.le_of_eq (Nat.zero_add _))
  have hstep : MachineM.writeImage image = ((do
      MachineM.writeStructure image.header.size (MachineM.writeHeader image.header)
      MachineM.writeStructure image.code.size (MachineM.writeCode image.code)) >>= fun _ =>
        MachineM.content) := by
    rw [bind_assoc]
    rfl
  rw [encode_of_current hcurrent]
  unfold encodeInWords Encoding.toExcept
  simp only [hcurrent]
  rw [if_pos (by omega)]
  cases hfailure : image.encoding.failure with
  | some e =>
    obtain ⟨f, hrun, -⟩ := herror e hfailure
    rw [hstep, Run.bind_of_error hrun]
    rfl
  | none =>
    have hrun := hok hfailure
    have hlength := length_encoding hfailure
    have hfits : (MachineM.blank (image.header.size + image.code.size) image.order).window.offset +
        image.encoding.bytes.length ≤
        (MachineM.blank (image.header.size + image.code.size) image.order).window.length := by
      show 0 + _ ≤ image.header.size + image.code.size
      omega
    have hwritten := (hsound.follows_write hfits).sound hsound
    have hcontent := MachineM.content_eq hwritten
    rw [content_write_blank hlength] at hcontent
    rw [hstep, (Run.bind_of_ok hrun).trans hcontent]
    rfl

/-! ## After an update -/

/-- The most properties, and the most methods, that a class of a version can have. -/
def memberLimit : Version → Nat
  | .v41 => 255
  | .v60 => 65535

/-- What a file must be to be encoded, once its offsets are updated. -/
structure Encodable (image : Image) : Prop where
  concrete : ∀ r ∈ image.code.routines, ∀ i ∈ r, i.isSymbolic = false
  sources : image.header.sources.isSome = true ↔ image.header.version = .v41
  countWidth : image.header.classes.countWidth = image.header.version.countWidth
  functions : image.header.functions.length ≤ 65535
  classes : image.header.classes.entries.length ≤ 65535
  members : ∀ c ∈ image.header.classes.entries,
    c.properties.length ≤ memberLimit image.header.version ∧
      c.methods.length ≤ memberLimit image.header.version

theorem encodable_iff {image : Image} :
    image.Encodable ↔ image.header.Storable ∧ image.code.Concrete := by
  have hsources : (image.header.sources.isSome = true ↔ image.header.version = .v41) ↔
      image.header.version.hasSources = image.header.sources.isSome := by
    cases image.header.version <;> simp [Version.hasSources]
  have hlimit : image.header.version.countWidth.max = memberLimit image.header.version := by
    cases image.header.version <;> rfl
  constructor
  · intro h
    refine ⟨⟨hsources.1 h.sources, h.countWidth, h.functions, h.classes, fun c hc => ?_⟩, h.concrete⟩
    rw [ClassEntry.Countable, h.countWidth, hlimit]
    exact h.members c hc
  · rintro ⟨⟨hs, hw, hf, hc, hm⟩, hconcrete⟩
    refine ⟨hconcrete, hsources.2 hs, hw, hf, hc, fun c hmem => ?_⟩
    have h := hm c hmem
    rw [ClassEntry.Countable, hw, hlimit] at h
    exact h

/-- After an update a file is encoded unless something in it cannot be stored. Then it takes the size
of header and code, and no size announced on the way is wrong. Through windows nothing else is
refused, and nothing is a fault. -/
theorem encode_after_update {image image' : Image} (h : updateOffsets image = .ok () image') :
    ((∃ bytes, image'.encode = .ok bytes) ↔ image'.Encodable) ∧
    (∀ bytes, image'.encode = .ok bytes → bytes.length = image'.header.size + image'.code.size) ∧
    (∀ announced written, image'.encode ≠ .error (.announcedSize announced written)) ∧
    image'.encodeInWords = image'.encode.mapError .refused := by
  have hupdated := updated_of_updateOffsets h
  have hcurrent := (relocated_of_updateOffsets h).current
  have hfits : image'.header.size + image'.code.size ≤ maxOffset := by
    rw [hupdated.size_header, hupdated.code]
    exact hupdated.fits
  have hlimit : maxOffset < bufferLimit := by decide
  refine ⟨?_, fun bytes hbytes => ?_, fun announced written hfail => ?_,
    encodeInWords_eq hcurrent (by omega)⟩
  · rw [encodable_iff]
    constructor
    · rintro ⟨bytes, hbytes⟩
      obtain ⟨-, hstorable, hconcrete, -⟩ := encode_eq_ok_iff.1 hbytes
      exact ⟨hstorable, hconcrete⟩
    · rintro ⟨hstorable, hconcrete⟩
      exact ⟨_, encode_eq_ok_iff.2 ⟨hcurrent, hstorable, hconcrete, rfl⟩⟩
  · obtain ⟨-, -, hconcrete, rfl⟩ := encode_eq_ok_iff.1 hbytes
    rw [List.length_append, Header.length_stored, Code.length_stored _ hconcrete]
  · rw [encode_of_current hcurrent] at hfail
    unfold Encoding.toExcept at hfail
    cases hfailure : image'.encoding.failure with
    | none =>
      rw [hfailure] at hfail
      cases hfail
    | some e =>
      rw [hfailure] at hfail
      cases hfail
      exact image'.honest_encoding announced written hfailure

theorem encode_after_update_sample :
    updateOffsets sampleDraft = .ok () sample ∧ sample.Encodable ∧
      sample.stored.length = sample.header.size + sample.code.size ∧
      sample.encodeInWords = .ok sample.stored := by
  have hupdate : updateOffsets sampleDraft = .ok () sample := rfl
  have hencode : sample.encode = .ok sample.stored :=
    encode_eq_ok_iff.2
      ⟨wellFormed_sample.current, wellFormed_sample.storable, wellFormed_sample.concrete, rfl⟩
  obtain ⟨hencodable, hlength, -, hwords⟩ := encode_after_update hupdate
  refine ⟨hupdate, hencodable.1 ⟨_, hencode⟩, hlength _ hencode, ?_⟩
  rw [hwords, hencode]
  rfl

end Image

end ScriptImage
