import ScriptImage.Proofs.EncodedSize
import ScriptImage.Proofs.HeaderReading
import ScriptImage.Proofs.PassRuns
import ScriptImage.Proofs.WordReading

/-!
# Headers written and read back

Before anything is written, the writer compares sources and count width of a header with its
version, since the reader goes by the version alone.  It also goes by the form in which each
pool is stored, which no stored byte tells, but the writer takes pools of any form.  So a header
that is written comes back exactly if its pools have the forms that the reader expects:

    writeHeader h  succeeds                 ↔ h.Storable
    readHeader     then gives h again       ↔ h.DeclaredForms

Literals in the form of names are enough to make a header that is written and cannot be read.
-/

namespace ScriptImage

open MachineM (blank)

namespace WindowM

def writeHeader (h : Header) : WindowM Unit :=
  writeStructure h.size fun order => h.encode order

def readHeader : WindowM Header :=
  read fun order => Reader.nested (Header.read order)

variable {f f' : Focus} {h : Header}

/-- Where a header fits it is written exactly if it is storable, and then as its stored bytes. -/
theorem writeHeader_eq_ok_iff (hw : f.window.readOnly = false)
    (hfits : f.window.offset + h.size ≤ f.window.length) :
    writeHeader h f = .ok () f' ↔ h.Storable ∧ f' = f.write (h.stored f.window.order) := by
  have hwrites := h.writes f.window.order
  have hlength := h.length_stored f.window.order
  have hannounced := hwrites.announced fun _ => hlength
  have hrun : writeHeader h f = _ := writeStructure_eq h.size (fun order => h.encode order) rfl
  rw [hw, if_neg Bool.false_ne_true, if_pos hfits] at hrun
  by_cases hs : h.Storable
  · rw [hwrites.2 hs, hlength, if_neg (by omega), hannounced.1.2 hs] at hrun
    rw [hrun, EStateM.Result.ok.injEq, Focus.write, hlength]
    simp only [hs, true_and]
    exact eq_comm
  · refine iff_of_false (fun hok => ?_) fun h' => hs h'.1
    rw [hrun] at hok
    split at hok
    · cases hok
    · split at hok
      · cases hok
      · next hnone => exact hs (hannounced.1.1 hnone)

theorem read_of_ok {α : Type} {r : ByteOrder → Reader α} {a : α} {c : Cursor}
    (h : r f.window.order f.cursor = .ok a c) : read r f = .ok a (f.seek c.offset) := by
  change r f.window.order (f.window.cursor f.memory) = _ at h
  rw [read, h]
  rfl

theorem read_of_error {α : Type} {r : ByteOrder → Reader α} {e : Error} {c : Cursor}
    (h : r f.window.order f.cursor = .error e c) : read r f = .error e (f.seek c.offset) := by
  change r f.window.order (f.window.cursor f.memory) = _ at h
  rw [read, h]
  rfl

/-- A header is read where its stored bytes are, if it is storable and its pools have their declared
forms. -/
theorem readHeader_eq_ok_iff {p : Nat} :
    readHeader f = .ok h (f.seek p) ↔
      (h.Storable ∧ h.DeclaredForms) ∧ p = f.window.offset + h.size ∧
        h.stored f.window.order <+: f.cursor.rest := by
  have hreads := (Header.reads f.window.order).nested
  have hlength := h.length_stored f.window.order
  constructor
  · intro hok
    cases hrun : Reader.nested (Header.read f.window.order) f.cursor with
    | error e c =>
      rw [readHeader, read_of_error hrun] at hok
      cases hok
    | ok h' c =>
      rw [readHeader, read_of_ok hrun] at hok
      obtain ⟨rfl, hseek⟩ := EStateM.Result.ok.inj hok
      have hp : c.offset = p := congrArg (fun g : Focus => g.window.offset) hseek
      obtain ⟨hvalid, hrest, hoffset⟩ := hreads.eq_ok_iff.1 hrun
      refine ⟨hvalid, ?_, c.rest, hrest.symm⟩
      rw [← hp, hoffset, hlength]
      rfl
  · rintro ⟨hvalid, rfl, rest, hrest⟩
    have hpasses : f.cursor.Passes (h.stored f.window.order) ⟨f.window.offset + h.size, rest⟩ := by
      refine ⟨hrest.symm, ?_⟩
      rw [hlength]
      rfl
    have hrun := hreads.eq_ok_iff.2 ⟨hvalid, hpasses⟩
    rw [readHeader, read_of_ok hrun]

end WindowM

namespace Header

open WindowM

variable {h : Header} {order : ByteOrder} {f : Focus}

/-- A header is written into a window of its size exactly if it is storable; its stored bytes then fill
the window. -/
theorem writeHeader_blank_eq_ok_iff :
    writeHeader h (blank h.size order) = .ok () f ↔
      h.Storable ∧ f = (blank h.size order).write (h.stored order) :=
  writeHeader_eq_ok_iff (f := blank h.size order) rfl (Nat.le_of_eq (Nat.zero_add h.size))

/-- A header that was written comes back from the beginning of its window exactly if its pools have
their declared forms. -/
theorem readHeader_of_writeHeader (hwrite : writeHeader h (blank h.size order) = .ok () f) :
    readHeader (f.seek 0) = .ok h (f.seek h.size) ↔ h.DeclaredForms := by
  obtain ⟨hstorable, rfl⟩ := writeHeader_blank_eq_ok_iff.1 hwrite
  -- from its beginning, the window shows all that was written
  have hcursor : (((blank h.size order).write (h.stored order)).seek 0).cursor.rest = h.stored order :=
    Image.content_write_blank (h.length_stored order) order
  refine readHeader_eq_ok_iff.trans ⟨fun hread => hread.1.2, fun hforms => ?_⟩
  refine ⟨⟨hstorable, hforms⟩, (Nat.zero_add _).symm, ?_⟩
  rw [hcursor]
  exact List.prefix_refl _

/-- **Headers written and read back.**  A header is written into a window of its size exactly if its
sources, its count width and its counts agree with its version.  Reading the window from its
beginning then gives the same header, and ends behind the last byte, exactly if in addition the
pools have the forms that their tables are stored in. -/
theorem readBack_iff (h : Header) (order : ByteOrder) :
    ((∃ f, writeHeader h (blank h.size order) = .ok () f) ↔ h.Storable) ∧
    ∀ f, writeHeader h (blank h.size order) = .ok () f →
      f.window.length = h.size ∧
        (readHeader (f.seek 0) = .ok h (f.seek h.size) ↔ h.DeclaredForms) := by
  refine ⟨⟨?_, fun hs => ⟨_, writeHeader_blank_eq_ok_iff.2 ⟨hs, rfl⟩⟩⟩, fun f hwrite => ⟨?_, ?_⟩⟩
  · rintro ⟨f, hwrite⟩
    exact (writeHeader_blank_eq_ok_iff.1 hwrite).1
  · obtain ⟨-, rfl⟩ := writeHeader_blank_eq_ok_iff.1 hwrite
    rfl
  · exact readHeader_of_writeHeader hwrite

/-- A header whose only literal is stored in the form of a name. -/
def narrowSample : Header :=
  { empty .v60 with strings := .letters .p8z [97] }

/-- What is written need not be readable: the letter is taken for the upper half of a length. -/
theorem not_forall_readBack :
    ¬∀ (h : Header) (order : ByteOrder) (f : Focus), writeHeader h (blank h.size order) = .ok () f →
      readHeader (f.seek 0) = .ok h (f.seek h.size) := by
  intro hall
  obtain ⟨f, hwrite, hread⟩ : ∃ f, writeHeader narrowSample (blank narrowSample.size .little) = .ok () f ∧
      readHeader (f.seek 0) = .error (.outsideWindow .read 24833 12 21) (f.seek 0) :=
    ⟨_, rfl, rfl⟩
  rw [hall narrowSample .little f hwrite] at hread
  cases hread

end Header

end ScriptImage
