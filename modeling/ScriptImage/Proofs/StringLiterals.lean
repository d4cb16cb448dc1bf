import Mathlib.Tactic.SplitIfs
import ScriptImage.Cell.Literal

/-!
# String literals

A string is shown between double quotes.  Quotes, backslashes and three control characters are
escaped by name, every other byte that is no printable ASCII character by its two hexadecimal
digits, and the rest stands for itself.  Reading undoes this byte by byte, whatever follows:

    unescape whole done (escape b ++ rest) = unescape whole (b :: done) rest

so a literal reads back as the string it shows, and two literals are the same exactly if the
contents are.  White space around a literal does not count; a literal has none at its ends.
-/

namespace ScriptImage

theorem Hex.value?_digit : ∀ n < 16, Hex.value? (Hex.digit n) = some n := by decide

namespace ByteString

variable {whole : String} {done : List UInt8} {rest : List Char} {form form' : StringForm}

/-! ## One byte -/

theorem utf8EncodeChar_ofNat : ∀ n < 128, String.utf8EncodeChar (Char.ofNat n) = [UInt8.ofNat n] := by
  decide +kernel

theorem ofNat_ne_backslash : ∀ n < 128, n ≠ 92 → Char.ofNat n ≠ '\\' := by
  decide +kernel

/-- A character that begins no escape stands for its UTF-8 bytes. -/
theorem unescape_cons {c : Char} (hc : c ≠ '\\') :
    unescape whole done (c :: rest) = unescape whole ((String.utf8EncodeChar c).reverse ++ done) rest := by
  rw [unescape.eq_def]
  split
  next heq => cases heq
  next heq =>
    cases heq
    exact absurd rfl hc
  next heq =>
    cases heq
    rfl

theorem unescape_hex {high low : Char} {h l : Nat} (hhigh : Hex.value? high = some h)
    (hlow : Hex.value? low = some l) :
    unescape whole done ('\\' :: 'x' :: high :: low :: rest) =
      unescape whole (UInt8.ofNat (16 * h + l) :: done) rest := by
  rw [unescape, hhigh, hlow]

/-- Whichever way a byte is written, it is read as that byte. -/
theorem unescape_escape (b : UInt8) :
    unescape whole done (escape b ++ rest) = unescape whole (b :: done) rest := by
  have hlt := b.toNat_lt
  unfold escape
  split_ifs with hquote hback hline hreturn htab hprintable
  · rw [hquote]; rfl
  · rw [hback]; rfl
  · rw [hline]; rfl
  · rw [hreturn]; rfl
  · rw [htab]; rfl
  · -- the byte of a printable character is its code point
    have hhigh : b.toNat ≤ 126 := hprintable.2
    have hne : b.toNat ≠ 92 := fun h => hback (UInt8.toNat_inj.1 h)
    rw [List.singleton_append, unescape_cons (ofNat_ne_backslash _ (by omega) hne),
      utf8EncodeChar_ofNat _ (by omega), UInt8.ofNat_toNat]
    rfl
  · have hdigits : 16 * (b.toNat / 16) + b.toNat % 16 = b.toNat := by omega
    show unescape whole done ('\\' :: 'x' :: Hex.digit _ :: Hex.digit _ :: rest) = _
    rw [unescape_hex (Hex.value?_digit _ (by omega)) (Hex.value?_digit _ (by omega)), hdigits,
      UInt8.ofNat_toNat]

/-! ## Whole literals -/

theorem unescape_flatMap_escape (bytes : List UInt8) :
    unescape whole done (bytes.flatMap escape) = .ok (done.reverse ++ bytes) := by
  induction bytes generalizing done with
  | nil => rw [List.flatMap_nil, unescape, List.append_nil]
  | cons b bytes ih =>
    rw [List.flatMap_cons, unescape_escape, ih, List.reverse_cons, List.append_assoc,
      List.singleton_append]

theorem unquote?_quoteBytes (bytes : List UInt8) :
    unquote? (quoteBytes bytes) = some (bytes.flatMap escape) := by
  show (if (bytes.flatMap escape ++ ['"']).getLast? = some '"' then
    some (bytes.flatMap escape ++ ['"']).dropLast else none) = _
  rw [List.getLast?_concat, if_pos rfl, List.dropLast_concat]

theorem toList_quoted (s : ByteString form) : s.quoted.toList = quoteBytes s.bytes :=
  String.toList_ofList

theorem parse_quoted (s : ByteString form) : ByteString.parse form s.quoted = .ok s := by
  unfold ByteString.parse
  rw [toList_quoted, unquote?_quoteBytes]
  show (unescape s.quoted [] (s.bytes.flatMap escape) >>= fun bytes => ofBytes form bytes) = _
  rw [unescape_flatMap_escape]
  exact ofBytes_bytes s

/-- Literals differ where contents do, in whichever forms these are stored. -/
theorem quoted_inj (s : ByteString form) (t : ByteString form') : s.quoted = t.quoted ↔ s.bytes = t.bytes := by
  constructor
  · intro h
    have hinner : unquote? (quoteBytes s.bytes) = unquote? (quoteBytes t.bytes) := by
      rw [← toList_quoted, ← toList_quoted, h]
    rw [unquote?_quoteBytes, unquote?_quoteBytes, Option.some.injEq] at hinner
    -- reading is a function, so equal insides come from equal contents
    have hread := congrArg (unescape s.quoted []) hinner
    rw [unescape_flatMap_escape, unescape_flatMap_escape] at hread
    exact Except.ok.inj hread
  · intro h
    rw [quoted, h, quoted]

/-! ## Printable characters -/

/-- The characters that a literal is made of. -/
def Printable (c : Char) : Prop :=
  0x20 ≤ c.toNat ∧ c.toNat ≤ 0x7E

instance (c : Char) : Decidable (Printable c) :=
  inferInstanceAs (Decidable (_ ∧ _))

theorem printable_digit : ∀ n < 16, Printable (Hex.digit n) := by decide

theorem printable_ofNat : ∀ n ≤ 0x7E, 0x20 ≤ n → Printable (Char.ofNat n) := by decide +kernel

theorem forall_printable {cs : List Char} (h : (cs.all fun c => decide (Printable c)) = true) :
    ∀ c ∈ cs, Printable c := by
  simpa using h

theorem printable_escape {b : UInt8} : ∀ c ∈ escape b, Printable c := by
  have hlt := b.toNat_lt
  unfold escape
  split_ifs with hquote hback hline hreturn htab hprintable
  · exact forall_printable rfl
  · exact forall_printable rfl
  · exact forall_printable rfl
  · exact forall_printable rfl
  · exact forall_printable rfl
  · rintro c hc
    rw [List.mem_singleton.1 hc]
    exact printable_ofNat _ hprintable.2 hprintable.1
  · simp only [Hex.byte, List.forall_mem_cons]
    exact ⟨by decide, by decide, printable_digit _ (by omega), printable_digit _ (by omega), nofun⟩

theorem printable_quoteBytes (bytes : List UInt8) : ∀ c ∈ quoteBytes bytes, Printable c := by
  intro c hc
  simp only [quoteBytes, List.cons_append, List.mem_cons, List.mem_append, List.mem_flatMap,
    List.not_mem_nil, or_false] at hc
  rcases hc with rfl | ⟨b, -, hc⟩ | rfl
  · decide
  · exact printable_escape c hc
  · decide

/-- A text of printable characters is stored as printable bytes. -/
theorem encode_of_printable {cs : List Char} (h : ∀ c ∈ cs, Printable c) :
    ∀ b ∈ Utf8.encode (String.ofList cs), 0x20 ≤ b ∧ b ≤ 0x7E := by
  intro b hb
  rw [Utf8.encode_ofList] at hb
  obtain ⟨c, hc, hb⟩ := List.mem_flatMap.1 hb
  obtain ⟨hlow, hhigh⟩ := h c hc
  rw [← Char.ofNat_toNat c, utf8EncodeChar_ofNat _ (by omega), List.mem_singleton] at hb
  rw [hb, UInt8.le_iff_toNat_le, UInt8.le_iff_toNat_le, UInt8.toNat_ofNat', Nat.mod_eq_of_lt (by omega)]
  exact ⟨hlow, hhigh⟩

end ByteString

/-! ## Literals in a text -/

theorem Cell.parse_string (form : StringForm) (text : String) :
    Cell.parse (.string form) text =
      (ByteString.parse form (String.ofList (Text.trimBlank text.toList))).map fun s =>
        ⟨.string form, s⟩ := by
  rw [Cell.parse]

/-- White space around a literal does not count. -/
theorem Cell.parse_quoted {form : StringForm} (s : ByteString form) {front back : String}
    (hfront : ∀ c ∈ front.toList, Text.isBlank c = true)
    (hback : ∀ c ∈ back.toList, Text.isBlank c = true) :
    Cell.parse (.string form) (front ++ s.quoted ++ back) = .ok ⟨.string form, s⟩ := by
  have htrim : Text.trimBlank (front ++ s.quoted ++ back).toList = ByteString.quoteBytes s.bytes := by
    rw [String.toList_append, String.toList_append, ByteString.toList_quoted]
    refine Text.trimBlank_around (List.cons_ne_nil _ _) hfront hback ?_ ?_
    · rintro c hc
      cases hc
      decide
    · rintro c hc
      rw [ByteString.quoteBytes, List.getLast?_concat] at hc
      cases hc
      decide
  rw [Cell.parse_string, htrim, ← ByteString.quoted, ByteString.parse_quoted]
  rfl

namespace ByteString

variable {form : StringForm}

/-- **String literals read back.**  The literal of a string of any form reads as that string, also
with white space around it; it is made of printable ASCII characters only, so that it stands on one
line, and it is that of no other content. -/
theorem literal_reads_back (s : ByteString form) :
    ByteString.parse form s.quoted = .ok s ∧
    (∀ front back : String, (∀ c ∈ front.toList, Text.isBlank c = true) →
      (∀ c ∈ back.toList, Text.isBlank c = true) →
      Cell.parse (.string form) (front ++ s.quoted ++ back) = .ok ⟨.string form, s⟩) ∧
    (∀ b ∈ Utf8.encode s.quoted, 0x20 ≤ b ∧ b ≤ 0x7E) ∧
    ∀ {form' : StringForm} (t : ByteString form'), s.quoted = t.quoted → s.bytes = t.bytes :=
  ⟨parse_quoted s, fun _ _ hfront hback => Cell.parse_quoted s hfront hback,
    encode_of_printable (printable_quoteBytes s.bytes), fun t => (quoted_inj s t).1⟩

/-- A NUL, a quote, what looks like an escape, a line feed, a byte that is no character, and a backslash
at the end. -/
def awkward : ByteString .p8 :=
  ⟨[0, 34, 92, 110, 10, 255, 92], Nat.le_of_ble_eq_true rfl, fun h => Bool.noConfusion h⟩

theorem literal_reads_back_awkward :
    awkward.quoted = "\"\\x00\\\"\\\\n\\n\\xff\\\\\"" ∧
      (∀ c ∈ " \t\n\x0b".toList, Text.isBlank c = true) ∧ (∀ c ∈ "\x0c\r ".toList, Text.isBlank c = true) ∧
      Cell.parse (.string .p8) (" \t\n\x0b" ++ awkward.quoted ++ "\x0c\r ") =
        .ok ⟨.string .p8, awkward⟩ := by
  have hfront : ∀ c ∈ " \t\n\x0b".toList, Text.isBlank c = true := List.all_eq_true.1 (by decide)
  have hback : ∀ c ∈ "\x0c\r ".toList, Text.isBlank c = true := List.all_eq_true.1 (by decide)
  exact ⟨by decide, hfront, hback, (literal_reads_back awkward).2.1 _ _ hfront hback⟩

end ByteString

end ScriptImage
