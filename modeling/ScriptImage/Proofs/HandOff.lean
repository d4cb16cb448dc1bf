import ScriptImage.Proofs.EncodedSize
import ScriptImage.Proofs.WordReading

/-!
# Structures handed on

A structure is read and written through a window of its own.  That window begins at the cursor and
reaches to the end, beyond the size that the structure announces, and the tables of a header or the
routines of code are handed windows within it that reach as far.  Still, writing keeps to the
announced bytes, also if it fails midway, and what it leaves there does not depend on where the
cursor stood:

    bytes outside [cursor, cursor + size)   stay, whether writing succeeds or fails
    bytes inside, if it succeeds            are those left in a window of just that size

Reading a structure likewise makes of the bytes from the cursor on what it makes of a copy of them.
Either way the cursor stays where it is if the structure is refused.
-/

namespace ScriptImage

/-! ## What is handed on -/

/-- Whether only bytes are written, under a size that may be wrong. -/
def Writable.isPlain : Writable → Bool
  | raw .. => true
  | _ => false

/-- Whether it is read through a window of its own. -/
def Readable.isStructure : Readable → Bool
  | instr | function | functions | header => true
  | _ => false

/-- No structure announces a wrong size. -/
theorem Writable.honest (order : ByteOrder) {what : Writable} (hplain : what.isPlain = false) :
    (Encoding.announced what.size (what.encode order)).Honest := by
  cases what with
  | instr i => exact (i.honest order).announced (i.writes order) fun hi => i.length_stored order hi
  | routine r => exact (r.honest order).announced (r.writes order) fun hr => r.length_stored order hr
  | code c => exact (c.honest order).announced (c.writes order) fun hc => c.length_stored order hc
  | function f => exact (f.honest order).announced (f.writes order) fun _ => f.length_stored order
  | functions fs =>
    exact (FunctionEntry.honest_table order fs).announced (FunctionEntry.writes_table order fs)
      fun _ => FunctionEntry.length_storedTable order fs
  | classes t => exact (t.honest order).announced (t.writes order) fun _ => t.length_stored order
  | pool p => exact (p.honest order).announced (p.writes order) fun _ => p.length_stored order
  | header h => exact (h.honest order).announced (h.writes order) fun _ => h.length_stored order
  | raw announced bytes => cases hplain

/-! ## Readers that count from where they begin -/

namespace Reader

variable {α β : Type} {r : Reader α} {c c' : Cursor}

theorem nested_of_ok {a : α} (h : r ⟨0, c.rest⟩ = .ok a c') :
    nested r c = .ok a ⟨c.offset + c'.offset, c'.rest⟩ := by
  rw [nested, h]

theorem nested_of_error {e : Error} (h : r ⟨0, c.rest⟩ = .error e c') : nested r c = .error e c := by
  rw [nested, h]

/-- The reader does not look at its position, moves on by what it reads and stays if it fails. -/
def Relative (r : Reader α) : Prop :=
  nested r = r

theorem relative_nested (r : Reader α) : Relative (nested r) := by
  funext c
  cases hr : r ⟨0, c.rest⟩ with
  | ok a c' =>
    rw [nested_of_ok (nested_of_ok hr), nested_of_ok hr]
    simp only [Nat.zero_add]
  | error e c' => rw [nested_of_error (nested_of_error hr), nested_of_error hr]

theorem Relative.map (h : Relative r) (g : α → β) : Relative (do return g (← r)) := by
  funext c
  have hc : r c = nested r c := by rw [h]
  cases hr : r ⟨0, c.rest⟩ with
  | ok a c' =>
    have hrun : (do return g (← r) : Reader β) ⟨0, c.rest⟩ = .ok (g a) c' := Run.bind_of_ok hr
    rw [nested_of_ok hrun, Run.bind_of_ok (hc.trans (nested_of_ok hr))]
    rfl
  | error e c' =>
    have hrun : (do return g (← r) : Reader β) ⟨0, c.rest⟩ = .error e c' := Run.bind_of_error hr
    rw [nested_of_error hrun, Run.bind_of_error (hc.trans (nested_of_error hr))]

end Reader

theorem Readable.relative_reader (order : ByteOrder) {what : Readable} (h : what.isStructure = true) :
    (what.reader order).Relative := by
  cases what with
  | instr | function | functions | header => exact (Reader.relative_nested _).map _
  | _ => cases h

/-! ## Memory -/

/-- The bytes that were stored, as a part of their buffer. -/
theorem Memory.take_drop_store {m : Memory} {k p : Nat} {bytes : List UInt8}
    (h : p + bytes.length ≤ (m.buffer k).length) :
    (((m.store k p bytes).buffer k).drop p).take bytes.length = bytes := by
  refine take_drop_eq_of_getElem? fun i hi => ?_
  rw [getElem?_store h, if_pos ⟨rfl, by omega, by omega⟩, Nat.add_sub_cancel_left]

namespace Focus

variable {f : Focus}

/-- A window of its own on a copy of the bytes from the cursor on. -/
def copyOfRest (f : Focus) : Focus :=
  ⟨⟨[f.cursor.rest]⟩, .whole 0 f.cursor.rest.length f.window.order⟩

theorem cursor_copyOfRest (f : Focus) : f.copyOfRest.cursor = ⟨0, f.cursor.rest⟩ := by
  show (⟨0, ((f.cursor.rest.drop 0).take f.cursor.rest.length).drop 0⟩ : Cursor) = _
  rw [List.drop_zero, List.drop_zero, List.take_length]

theorem Sound.copyOfRest (hf : f.Sound) : f.copyOfRest.Sound := by
  have hlength := hf.length_rest
  have hsmall := hf.small
  have hrange := hf.window.range
  refine ⟨⟨?_, Nat.zero_le _⟩, ?_⟩
  · exact Nat.le_of_eq (Nat.zero_add _)
  · show f.cursor.rest.length < bufferLimit
    omega

end Focus

namespace MachineM

variable {α : Type} {f : Focus} {order : ByteOrder}

/-! ## Reading -/

/-- Through a window on a copy of the bytes from the cursor on, a reading has the same outcome; its
cursor moves as far, and stays if the reading fails. -/
def ReadsAsCopy (f : Focus) (m : MachineM α) : Prop :=
  (∃ a, ∃ n ≤ f.cursor.rest.length, m f.copyOfRest = .ok a (f.copyOfRest.seek n) ∧
    m f = .ok a (f.seek (f.window.offset + n))) ∨
  ∃ e, m f.copyOfRest = .error (.refused e) f.copyOfRest ∧ m f = .error (.refused e) f

theorem Performs.readsAsCopy {m : MachineM α} {r : Reader α} (h : Performs order m r) (hr : r.Relative)
    (hf : f.Sound) (horder : f.window.order = order) : ReadsAsCopy f m := by
  have hself : r f.cursor = Reader.nested r f.cursor := by rw [hr]
  obtain ⟨n, -, hn, hcopy⟩ := h f.copyOfRest hf.copyOfRest horder
  obtain ⟨p, -, -, hrun⟩ := h f hf horder
  have hn : n ≤ f.cursor.rest.length := hn
  rw [Focus.cursor_seek _ (Nat.zero_le n), f.cursor_copyOfRest] at hcopy
  rcases hcopy with ⟨a, hread, hcopy⟩ | ⟨e, hread, hcopy⟩
  · rw [Reader.nested_of_ok hread] at hself
    rcases hrun with ⟨a', hread', hrun⟩ | ⟨e', hread', -⟩
    · rw [hself] at hread'
      obtain ⟨rfl, hcursor⟩ := EStateM.Result.ok.inj hread'
      obtain rfl : f.window.offset + n = p := congrArg Cursor.offset hcursor
      exact .inl ⟨a, n, hn, hcopy, hrun⟩
    · rw [hself] at hread'
      cases hread'
  · -- a reader that fails is where it began
    have hstart : r ⟨0, f.cursor.rest⟩ = .error e ⟨0, f.cursor.rest⟩ :=
      (congrFun hr _).symm.trans (Reader.nested_of_error hread)
    rw [hread] at hstart
    obtain rfl : n = 0 := congrArg Cursor.offset (EStateM.Result.error.inj hstart).2
    rw [Reader.nested_of_error hread] at hself
    rcases hrun with ⟨a', hread', -⟩ | ⟨e', hread', hrun⟩
    · rw [hself] at hread'
      cases hread'
    · rw [hself] at hread'
      obtain ⟨rfl, hcursor⟩ := EStateM.Result.error.inj hread'
      obtain rfl : f.window.offset = p := congrArg Cursor.offset hcursor
      exact .inr ⟨e, hcopy, hrun⟩

/-! ## Writing -/

/-- What writing a structure at the cursor may do. -/
structure WritesInPlace (f : Focus) (what : Writable) : Prop where
  lengths : (Run.left (writeStructure what.size what.writeInWords) f).memory.buffers.map List.length =
    f.memory.buffers.map List.length
  /-- Whether it succeeds or fails, all bytes stay but those announced. -/
  outside : ∀ k i,
    ¬(k = f.window.buffer ∧ f.window.start + f.window.offset ≤ i ∧
      i < f.window.start + f.window.offset + what.size) →
    ((Run.left (writeStructure what.size what.writeInWords) f).memory.buffer k)[i]? =
      (f.memory.buffer k)[i]?
  /-- If it succeeds, the cursor is behind the announced bytes, and they are those that writing leaves
  in a new window of just that size. -/
  inside : ∀ g, writeStructure what.size what.writeInWords f = .ok () g →
    g.window = { f.window with offset := f.window.offset + what.size } ∧
    ∃ g', writeStructure what.size what.writeInWords (blank what.size f.window.order) = .ok () g' ∧
      ((g.memory.buffer f.window.buffer).drop (f.window.start + f.window.offset)).take what.size =
        g'.window.content g'.memory
  /-- If it fails, the cursor stays, and it is not for a size that was announced wrongly. -/
  failed : ∀ fault g, writeStructure what.size what.writeInWords f = .error fault g →
    g.window = f.window ∧ ∀ announced written, fault ≠ .refused (.announcedSize announced written)

/-- Writing a structure is given up at once in a window that is read-only or too short for it. -/
theorem exists_refused (hf : f.Sound) (m : MachineM Unit) {size : Nat}
    (h : f.window.readOnly = true ∨ f.window.length < f.window.offset + size) :
    ∃ fault, writeStructure size m f = .error fault f ∧
      ∀ announced written, fault ≠ .refused (.announcedSize announced written) := by
  have hwritable := checkWritable_eq .wholeWrite f
  by_cases hreadOnly : f.window.readOnly = true
  · rw [if_pos hreadOnly] at hwritable
    exact ⟨.refused (.readOnlyWindow .wholeWrite), Run.bind_of_error hwritable, nofun⟩
  · rw [if_neg hreadOnly] at hwritable
    have hshort := h.resolve_left hreadOnly
    by_cases hsize : size < wordLimit
    · refine ⟨.refused (.outsideWindow .wholeWrite size f.window.offset f.window.length), ?_, nofun⟩
      rw [writeStructure_eq m hf hsize, if_neg hreadOnly, if_neg (Nat.not_le_of_lt hshort)]
    · -- a size that is no word is found out when it is added up
      have hsum : plus 0 size f = .error .overflow f := by
        unfold plus
        rw [if_neg (by omega)]
        rfl
      refine ⟨.overflow, ?_, nofun⟩
      unfold writeStructure
      rw [Run.bind_of_ok hwritable, Run.bind_of_error hsum]

/-- Writing a structure stores bytes that are no more than it announces: none, if it is given up at once. -/
theorem exists_stored {m : MachineM Unit} {e : Encoding} {n size : Nat} (h : Stores f.window.order m e n)
    (hn : n ≤ size) (hhonest : (Encoding.announced size e).Honest) (hf : f.Sound) :
    ∃ bytes : List UInt8, bytes.length ≤ size ∧ f.window.offset + bytes.length ≤ f.window.length ∧
      ((∃ fault, writeStructure size m f = .error fault (f.store f.window.offset bytes) ∧
        ∀ announced written, fault ≠ .refused (.announcedSize announced written)) ∨
      ((Encoding.announced size e).failure = none ∧ bytes = e.bytes ∧
        writeStructure size m f =
          .ok () ((f.store f.window.offset bytes).seek (f.window.offset + size)))) := by
  have hbytes := h.1
  by_cases hroom : f.window.readOnly = false ∧ f.window.offset + size ≤ f.window.length
  · obtain ⟨hreadOnly, hfits⟩ := hroom
    have hrun := writeStructure_of_stores h hf rfl hreadOnly hfits (by omega)
    refine ⟨e.bytes, by omega, by omega, ?_⟩
    cases hfailure : (Encoding.announced size e).failure with
    | some err =>
      rw [hfailure] at hrun
      refine .inl ⟨_, hrun, fun announced written heq => ?_⟩
      cases heq
      exact hhonest announced written hfailure
    | none =>
      rw [hfailure] at hrun
      exact .inr ⟨rfl, rfl, hrun⟩
  · have hrefused : f.window.readOnly = true ∨ f.window.length < f.window.offset + size := by
      by_cases hreadOnly : f.window.readOnly = true
      · exact .inl hreadOnly
      · exact .inr (Nat.lt_of_not_le fun hfits => hroom ⟨eq_false_of_ne_true hreadOnly, hfits⟩)
    obtain ⟨fault, hrun, hfault⟩ := exists_refused hf m hrefused
    refine ⟨[], Nat.zero_le _, hf.window.cursor, .inl ⟨fault, ?_, hfault⟩⟩
    rw [hrun, Focus.store, Memory.store_nil]

/-- What is written without failure fills a new window of just that size. -/
theorem exists_blank {m : MachineM Unit} {e : Encoding} {n size : Nat} (h : Stores order m e n)
    (hn : n ≤ size) (hsize : size < bufferLimit) (hnone : (Encoding.announced size e).failure = none) :
    ∃ g, writeStructure size m (blank size order) = .ok () g ∧
      g.window.content g.memory = e.bytes := by
  have hrun := ((h.structure hn).2 _ (Image.sound_blank hsize order) rfl rfl
    (Nat.le_of_eq (Nat.zero_add size))).1 hnone
  rw [Encoding.bytes_announced] at hrun
  exact ⟨_, hrun, Image.content_write_blank (Encoding.length_of_announced hnone) order⟩

theorem writesInPlace (hf : f.Sound) {what : Writable} (hplain : what.isPlain = false) :
    WritesInPlace f what := by
  obtain ⟨e, n, hstores, hannounced, hn⟩ := stores_writable f.window.order what
  have hn : n ≤ what.size := by
    rcases hn with hn | ⟨announced, bytes, rfl, -⟩
    · exact hn
    · cases hplain
  have hhonest := Writable.honest f.window.order hplain
  rw [← hannounced] at hhonest
  obtain ⟨bytes, hle, hfits, hcase⟩ := exists_stored hstores hn hhonest hf
  have hrange := hf.window.range
  have hsmall := hf.small
  have hroom : f.window.start + f.window.offset + bytes.length ≤
      (f.memory.buffer f.window.buffer).length := by omega
  have hmemory : (Run.left (writeStructure what.size what.writeInWords) f).memory =
      f.memory.store f.window.buffer (f.window.start + f.window.offset) bytes := by
    rcases hcase with ⟨fault, hrun, -⟩ | ⟨-, -, hrun⟩
    · rw [Run.left_of_error hrun]
      rfl
    · rw [Run.left_of_ok hrun]
      rfl
  refine ⟨?_, fun k i hout => ?_, fun g hg => ?_, fun fault g hg => ?_⟩
  · rw [hmemory]
    exact Memory.map_length_store hroom
  · rw [hmemory, Memory.getElem?_store hroom, if_neg]
    rintro ⟨hk, hlow, hhigh⟩
    exact hout ⟨hk, hlow, by omega⟩
  · rcases hcase with ⟨fault, hrun, -⟩ | ⟨hnone, rfl, hrun⟩
    · rw [hrun] at hg
      cases hg
    · rw [hrun] at hg
      cases hg
      have hlength := Encoding.length_of_announced hnone
      obtain ⟨g', hblank, hcontent⟩ := exists_blank hstores hn (by omega) hnone
      refine ⟨rfl, g', hblank, ?_⟩
      rw [hcontent, ← hlength]
      exact Memory.take_drop_store hroom
  · rcases hcase with ⟨fault', hrun, hfault⟩ | ⟨-, -, hrun⟩
    · rw [hrun] at hg
      cases hg
      exact ⟨rfl, hfault⟩
    · rw [hrun] at hg
      cases hg

/-- **Structures handed on.**  Writing a structure keeps to the bytes it announces and leaves the same
bytes wherever the cursor stands; reading one does with the bytes from the cursor on what it does
with a copy of them. -/
theorem handOff_inPlace (hf : f.Sound) :
    (∀ what : Writable, what.isPlain = false → WritesInPlace f what) ∧
    ∀ what : Readable, what.isStructure = true → ReadsAsCopy f what.readInWords :=
  ⟨fun _ hplain => writesInPlace hf hplain, fun what hstructure =>
    (performs_readable f.window.order what).readsAsCopy (what.relative_reader f.window.order hstructure) hf
      rfl⟩

/-- A window in the middle of a buffer, with the cursor in the middle of the window. -/
def middle : Focus :=
  ⟨⟨[List.replicate 12 8]⟩, ⟨0, 1, 10, 2, .big, false⟩⟩

/-- Code of which only the first routine can be written. -/
def halfWritable : Code :=
  { Code.empty 0 with
    routines := [[.op ⟨.pushTrue, ()⟩, .op .endRoutine], [.symbolic ⟨.pushGlobal, (.empty .p8z, ())⟩]] }

/-- An instruction that takes three bytes. -/
def pushWord : Instr :=
  .op ⟨.pushInt16, ((513 : Int16), ())⟩

/-- The window after the instruction was written at the cursor. -/
def middleWritten : Focus :=
  ⟨⟨[[8, 8, 8, 2, 2, 1, 8, 8, 8, 8, 8, 8]]⟩, ⟨0, 1, 10, 5, .big, false⟩⟩

/-- Of the five bytes announced for the code two are written, which stay; the cursor stays too.  The
instruction is written whole, with the same bytes as in a window of three, and is read from the same
place as from a copy of the bytes there. -/
theorem handOff_inPlace_middle :
    (middle.Sound ∧
      writeStructure halfWritable.size (Writable.code halfWritable).writeInWords middle =
        .error (.refused (.symbolicInstruction "PushGlobal"))
          ⟨⟨[[8, 8, 8, 7, 47, 8, 8, 8, 8, 8, 8, 8]]⟩, middle.window⟩ ∧
      WritesInPlace middle (.code halfWritable) ∧ ReadsAsCopy middle Readable.instr.readInWords) ∧
    (writeStructure 3 (Writable.instr pushWord).writeInWords middle = .ok () middleWritten ∧
      ∃ g, writeStructure 3 (Writable.instr pushWord).writeInWords (blank 3 .big) = .ok () g ∧
        g.window.content g.memory = [2, 2, 1]) ∧
    (middleWritten.seek 2).Sound ∧
    Readable.instr.readInWords (middleWritten.seek 2) = .ok (.instr pushWord) middleWritten ∧
    Readable.instr.readInWords (middleWritten.seek 2).copyOfRest =
      .ok (.instr pushWord) ((middleWritten.seek 2).copyOfRest.seek 3) := by
  have hsound : middle.Sound := ⟨⟨by decide, by decide⟩, by decide⟩
  have hsought : (middleWritten.seek 2).Sound := ⟨⟨by decide, by decide⟩, by decide⟩
  obtain ⟨hwrites, hreads⟩ := handOff_inPlace hsound
  have hwritten : writeStructure 3 (Writable.instr pushWord).writeInWords middle = .ok () middleWritten := by
    decide +kernel
  have hread : Readable.instr.readInWords (middleWritten.seek 2) = .ok (.instr pushWord) middleWritten := by
    have hop : readStructure readOp (middleWritten.seek 2) =
        .ok (⟨.pushInt16, ((513 : Int16), ())⟩ : Op) middleWritten := by decide +kernel
    exact Run.bind_of_ok hop
  refine ⟨⟨hsound, by decide +kernel, hwrites _ rfl, hreads _ rfl⟩, ⟨hwritten, ?_⟩, hsought, hread, ?_⟩
  · obtain ⟨-, g, hblank, hbytes⟩ := (hwrites (.instr pushWord) rfl).inside _ hwritten
    exact ⟨g, hblank, hbytes.symm.trans (by decide +kernel)⟩
  · -- what was read tells how the reading of the copy ends
    rcases (handOff_inPlace hsought).2 .instr rfl with ⟨a, n, -, hcopy, hrun⟩ | ⟨e, -, hrun⟩
    · rw [hread] at hrun
      obtain ⟨rfl, hcursor⟩ := EStateM.Result.ok.inj hrun
      have hoffset : 5 = 2 + n := congrArg (fun f => f.window.offset) hcursor
      obtain rfl : n = 3 := by omega
      exact hcopy
    · rw [hread] at hrun
      cases hrun

end MachineM

end ScriptImage
