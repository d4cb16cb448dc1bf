/-!
# Reading bytes as UTF-8 text

`decodeLossy` reads well-formed UTF-8 and puts U+FFFD for every maximal ill-formed
piece: a lead byte with the continuation bytes that could still have become a
character, or a byte that can begin nothing.
-/

namespace ScriptImage.Utf8

/-- The character that stands for an ill-formed piece. -/
def replacement : Char := Char.ofNat 0xFFFD

/-- What a lead byte asks for: how many bytes follow, the range of the first of them, and
the payload bits of the lead byte. -/
structure Lead where
  following : Nat
  low : UInt8
  high : UInt8
  payload : Nat

/-- What a byte begins, if it begins a character. -/
def lead? (b : UInt8) : Option Lead :=
  if b < 0x80 then some ⟨0, 0x80, 0xBF, b.toNat⟩
  else if 0xC2 ≤ b ∧ b ≤ 0xDF then some ⟨1, 0x80, 0xBF, b.toNat - 0xC0⟩
  else if b = 0xE0 then some ⟨2, 0xA0, 0xBF, 0⟩
  else if b = 0xED then some ⟨2, 0x80, 0x9F, 0xD⟩
  else if 0xE1 ≤ b ∧ b ≤ 0xEF then some ⟨2, 0x80, 0xBF, b.toNat - 0xE0⟩
  else if b = 0xF0 then some ⟨3, 0x90, 0xBF, 0⟩
  else if 0xF1 ≤ b ∧ b ≤ 0xF3 then some ⟨3, 0x80, 0xBF, b.toNat - 0xF0⟩
  else if b = 0xF4 then some ⟨3, 0x80, 0x8F, 4⟩
  else none

/-- Where a reader stands: between characters, or inside one that still owes bytes. -/
inductive State where
  | start
  | inside (owed : Nat) (low high : UInt8) (payload : Nat)

/-- Begins a character at `b`; the characters read so far come newest first. -/
def begin (b : UInt8) (done : List Char) : State × List Char :=
  match lead? b with
  | none => (.start, replacement :: done)
  | some ⟨0, _, _, payload⟩ => (.start, Char.ofNat payload :: done)
  | some ⟨n, low, high, payload⟩ => (.inside n low high payload, done)

/-- Reads one byte. A byte that cannot go on closes the ill-formed piece and begins anew. -/
def step : State × List Char → UInt8 → State × List Char
  | (.start, done), b => begin b done
  | (.inside owed low high payload, done), b =>
    if low ≤ b ∧ b ≤ high then
      let payload := payload * 64 + (b.toNat - 0x80)
      if owed ≤ 1 then (.start, Char.ofNat payload :: done)
      else (.inside (owed - 1) 0x80 0xBF payload, done)
    else begin b (replacement :: done)

/-- The text that the bytes spell, with U+FFFD for every maximal ill-formed piece. -/
def decodeLossy (bytes : List UInt8) : String :=
  match bytes.foldl step (.start, []) with
  | (.start, done) => String.ofList done.reverse
  | (.inside .., done) => String.ofList (replacement :: done).reverse

def encode (text : String) : List UInt8 :=
  text.toUTF8.toList

/-! ## Lemmas -/

theorem toList_loop (bytes : ByteArray) (i : Nat) (done : List UInt8) :
    ByteArray.toList.loop bytes i done = done.reverse ++ bytes.data.toList.drop i := by
  induction i, done using ByteArray.toList.loop.induct bytes with
  | case1 i done hlt ih =>
    have hlt' : i < bytes.data.toList.length := hlt
    have hget : bytes.get! i = bytes.data.toList[i] := by
      show bytes.data[i]! = _
      rw [getElem!_pos bytes.data i hlt, Array.getElem_toList]
    rw [ByteArray.toList.loop, if_pos hlt, ih, List.reverse_cons, List.append_assoc,
      List.singleton_append, hget, ← List.drop_eq_getElem_cons hlt']
  | case2 i done hge =>
    rw [ByteArray.toList.loop, if_neg hge, List.drop_eq_nil_of_le (Nat.le_of_not_lt hge),
      List.append_nil]

/-- The bytes of a text are those of its characters, in order. -/
theorem encode_ofList (cs : List Char) :
    encode (String.ofList cs) = cs.flatMap String.utf8EncodeChar := by
  show ByteArray.toList.loop _ 0 [] = _
  rw [toList_loop, String.toUTF8_eq_toByteArray, String.toByteArray_ofList, List.utf8Encode,
    List.toList_data_toByteArray]
  rfl

end ScriptImage.Utf8
