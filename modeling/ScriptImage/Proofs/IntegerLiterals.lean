import Mathlib.Data.Nat.Digits.Defs
import ScriptImage.Cell.Literal

/-!
# Integer literals

An integer literal is a sign, a mark for the radix and digits of that radix, at least one and
as many as one likes.  Its value is that of the digits, with leading zeros and letters of either
case, and with its sign:

    l.value = ± Nat.ofDigits l.mark.radix (digits, least significant first)

Reading adds the digits up and gives up beyond 127 bits, then compares with the integers of 64
bits, then with the bounds of the type.  Each of these limits lies outside the next one, so what
counts in the end are the bounds alone: a literal is read as its value, or refused as out of range.
-/

namespace ScriptImage

/-! ## Literals -/

/-- The sign in front of a literal. -/
inductive Sign where
  | absent
  | plus
  | minus
  deriving DecidableEq, Repr

def Sign.chars : Sign → List Char
  | absent => []
  | plus => ['+']
  | minus => ['-']

/-- What tells the radix of the digits after it. -/
inductive RadixMark where
  | absent
  | lower
  | upper
  deriving DecidableEq, Repr

namespace RadixMark

def chars : RadixMark → List Char
  | absent => []
  | lower => ['0', 'x']
  | upper => ['0', 'X']

/-- The radix that a mark announces. -/
def radix : RadixMark → Nat
  | absent => 10
  | lower | upper => 16

/-- Whether a character is a digit: letters are, of either case, where the radix is sixteen. -/
def IsDigit (m : RadixMark) (c : Char) : Prop :=
  ('0' ≤ c ∧ c ≤ '9') ∨ m ≠ absent ∧ (('a' ≤ c ∧ c ≤ 'f') ∨ ('A' ≤ c ∧ c ≤ 'F'))

instance (m : RadixMark) (c : Char) : Decidable (m.IsDigit c) :=
  inferInstanceAs (Decidable (_ ∨ _))

end RadixMark

/-- The number that a digit stands for. -/
def digitValue (c : Char) : Nat :=
  (Hex.value? c).getD 0

/-- The text of an integer: a sign, a mark and digits of the radix that it announces. -/
structure IntegerLiteral where
  sign : Sign
  mark : RadixMark
  digits : List Char
  spelled : digits ≠ [] ∧ ∀ c ∈ digits, mark.IsDigit c

namespace IntegerLiteral

def chars (l : IntegerLiteral) : List Char :=
  l.sign.chars ++ (l.mark.chars ++ l.digits)

def text (l : IntegerLiteral) : String :=
  String.ofList l.chars

/-- The number that the digits spell. -/
def magnitude (l : IntegerLiteral) : Nat :=
  Nat.ofDigits l.mark.radix (l.digits.map digitValue).reverse

/-- The integer that a literal denotes. -/
def value (l : IntegerLiteral) : Int :=
  if l.sign = .minus then -(l.magnitude : Int) else l.magnitude

end IntegerLiteral

/-! ## Digits -/

namespace Cell

variable {m : RadixMark} {c : Char} {radix n : Nat} {cs : List Char}

/-- A digit stands for a number below the radix. -/
theorem exists_value?_of_isDigit (h : m.IsDigit c) : ∃ d < m.radix, Hex.value? c = some d := by
  unfold Hex.value?
  rcases h with hdecimal | ⟨hmark, hletter⟩
  · have hle : c.toNat ≤ 57 := hdecimal.2
    rw [if_pos hdecimal]
    refine ⟨c.toNat - 48, ?_, rfl⟩
    cases m <;> simp only [RadixMark.radix] <;> omega
  · have hradix : m.radix = 16 := by
      cases m with
      | absent => exact absurd rfl hmark
      | lower | upper => rfl
    rw [hradix]
    rcases hletter with hlower | hupper
    · have hge : 97 ≤ c.toNat := hlower.1
      have hle : c.toNat ≤ 102 := hlower.2
      have hno : ¬('0' ≤ c ∧ c ≤ '9') := fun h => absurd (show c.toNat ≤ 57 from h.2) (by omega)
      rw [if_neg hno, if_pos hlower]
      exact ⟨c.toNat - 97 + 10, by omega, rfl⟩
    · have hge : 65 ≤ c.toNat := hupper.1
      have hle : c.toNat ≤ 70 := hupper.2
      have hno : ¬('0' ≤ c ∧ c ≤ '9') := fun h => absurd (show c.toNat ≤ 57 from h.2) (by omega)
      have hno' : ¬('a' ≤ c ∧ c ≤ 'f') := fun h => absurd (show 97 ≤ c.toNat from h.1) (by omega)
      rw [if_neg hno, if_neg hno', if_pos hupper]
      exact ⟨c.toNat - 65 + 10, by omega, rfl⟩

theorem digitIn?_of_isDigit (h : m.IsDigit c) : digitIn? m.radix c = some (digitValue c) := by
  obtain ⟨d, hlt, hd⟩ := exists_value?_of_isDigit h
  rw [digitIn?, digitValue, hd, Option.filter_some, if_pos (decide_eq_true hlt), Option.getD_some]

/-- What `n` becomes when digits are written after it. -/
def spell (radix n : Nat) (cs : List Char) : Nat :=
  cs.foldl (fun n c => n * radix + digitValue c) n

theorem le_spell (hradix : 0 < radix) : n ≤ spell radix n cs := by
  induction cs generalizing n with
  | nil => exact Nat.le_refl n
  | cons c cs ih =>
    calc n ≤ n * radix := Nat.le_mul_of_pos_right n hradix
      _ ≤ n * radix + digitValue c := Nat.le_add_right _ _
      _ ≤ spell radix n (c :: cs) := ih

theorem spell_zero (radix : Nat) (cs : List Char) :
    spell radix 0 cs = Nat.ofDigits radix (cs.map digitValue).reverse := by
  rw [Nat.ofDigits_eq_foldr, List.foldr_reverse, List.foldl_map, spell]
  congr 1
  funext n c
  rw [Nat.add_comm, Nat.mul_comm, Nat.cast_id]

/-- Digits are added up as far as 127 bits reach; that they do not suffice shows in the end if it
shows on the way. -/
theorem addDigits_eq (hradix : 0 < radix) (hdigits : ∀ c ∈ cs, digitIn? radix c = some (digitValue c))
    (hn : n ≤ greatestMagnitude) :
    addDigits radix n cs =
      if spell radix n cs ≤ greatestMagnitude then .value (spell radix n cs) else .overflow := by
  induction cs generalizing n with
  | nil =>
    rw [addDigits, spell, List.foldl_nil, if_pos hn]
  | cons c cs ih =>
    have hcons : spell radix n (c :: cs) = spell radix (n * radix + digitValue c) cs := rfl
    have hle : n * radix + digitValue c ≤ spell radix (n * radix + digitValue c) cs := le_spell hradix
    rw [addDigits, hdigits c List.mem_cons_self, hcons]
    show (if greatestMagnitude < n * radix + digitValue c then _ else _) = _
    have hrest := fun c' hc' => hdigits c' (List.mem_cons_of_mem c hc')
    by_cases hlt : greatestMagnitude < n * radix + digitValue c
    · -- further digits do not bring the sum back below the limit
      rw [if_pos hlt, if_neg (by omega)]
    · rw [if_neg hlt, ih hrest (Nat.le_of_not_lt hlt)]

/-! ## Signs and marks -/

theorem splitSign_chars (s : Sign) (h : startsWithSign cs = false) :
    Decimal.splitSign (s.chars ++ cs) = (decide (s = .minus), cs) := by
  cases s with
  | plus | minus => rfl
  | absent =>
    show Decimal.splitSign cs = (false, cs)
    unfold Decimal.splitSign
    split
    · cases h
    · cases h
    · rfl

theorem splitRadix_chars (m : RadixMark) (h : ∀ c ∈ cs, m.IsDigit c) :
    splitRadix (m.chars ++ cs) = (m.radix, cs) := by
  cases m with
  | lower | upper => rfl
  | absent =>
    show splitRadix cs = (10, cs)
    unfold splitRadix
    split
    · exact absurd (h 'x' (by simp)) (by decide)
    · exact absurd (h 'X' (by simp)) (by decide)
    · rfl

theorem startsWithSign_digits (h : ∀ c ∈ cs, m.IsDigit c) : startsWithSign cs = false := by
  cases cs with
  | nil => rfl
  | cons c cs =>
    have hc := h c List.mem_cons_self
    have hplus : c ≠ '+' := by
      rintro rfl
      cases m <;> exact absurd hc (by decide)
    have hminus : c ≠ '-' := by
      rintro rfl
      cases m <;> exact absurd hc (by decide)
    rw [startsWithSign, beq_false_of_ne hplus, beq_false_of_ne hminus]
    rfl

theorem startsWithSign_mark (h : ∀ c ∈ cs, m.IsDigit c) : startsWithSign (m.chars ++ cs) = false := by
  cases m with
  | absent => exact startsWithSign_digits h
  | lower | upper => rfl

/-! ## Types -/

variable {t : CellType} {low high : Int}

/-- The bounds of every type are integers of 64 bits. -/
theorem bounds_le (h : t.bounds? = some (low, high)) : leastInt64 ≤ low ∧ high ≤ greatestInt64 := by
  cases t <;> cases h <;> decide

theorem parse_eq_parseInteger (h : t.bounds? = some (low, high)) (text : String) :
    Cell.parse t text = parseInteger t (Text.trimBlank text.toList) := by
  cases t with
  | float32 | float64 | string => cases h
  | int8 | uint8 | int16 | uint16 | int32 | uint32 => rfl

/-- An integer type takes every integer, and keeps those within its bounds. -/
theorem exists_wrapInt (h : t.bounds? = some (low, high)) (v : Int) :
    ∃ c, wrapInt t v = some c ∧ (low ≤ v → v ≤ high → t.toInt? c = some v) := by
  cases t with
  | int8 =>
    cases h
    exact ⟨_, rfl, fun hlow hhigh => congrArg some (Int8.toInt_ofInt_of_le hlow (by omega))⟩
  | int16 =>
    cases h
    exact ⟨_, rfl, fun hlow hhigh => congrArg some (Int16.toInt_ofInt_of_le hlow (by omega))⟩
  | int32 =>
    cases h
    exact ⟨_, rfl, fun hlow hhigh => congrArg some (Int32.toInt_ofInt_of_le hlow (by omega))⟩
  | uint8 =>
    cases h
    refine ⟨_, rfl, fun hlow hhigh => congrArg some ?_⟩
    rw [UInt8.toNat_ofNat_of_lt' (show v.toNat < 256 by omega), Int.toNat_of_nonneg hlow]
  | uint16 =>
    cases h
    refine ⟨_, rfl, fun hlow hhigh => congrArg some ?_⟩
    rw [UInt16.toNat_ofNat_of_lt' (show v.toNat < 65536 by omega), Int.toNat_of_nonneg hlow]
  | uint32 =>
    cases h
    refine ⟨_, rfl, fun hlow hhigh => congrArg some ?_⟩
    rw [UInt32.toNat_ofNat_of_lt' (show v.toNat < 4294967296 by omega), Int.toNat_of_nonneg hlow]
  | float32 | float64 | string => cases h

theorem exists_ofInt (h : t.bounds? = some (low, high)) {v : Int} (hv : low ≤ v ∧ v ≤ high) :
    ∃ c, ofInt t v = .ok ⟨t, c⟩ ∧ t.toInt? c = some v := by
  obtain ⟨c, hc, hint⟩ := exists_wrapInt h v
  refine ⟨c, ?_, hint hv.1 hv.2⟩
  simp only [ofInt, h, hc]
  rw [if_neg (by omega)]

theorem ofInt_outside (h : t.bounds? = some (low, high)) {v : Int} (hv : ¬(low ≤ v ∧ v ≤ high)) :
    ofInt t v = .error (.integerOutside t v low high) := by
  obtain ⟨c, hc, -⟩ := exists_wrapInt h v
  simp only [ofInt, h, hc]
  rw [if_pos (by omega)]

theorem parseInteger_eq (t : CellType) (l : IntegerLiteral) :
    parseInteger t l.chars =
      if leastInt64 ≤ l.value ∧ l.value ≤ greatestInt64 then ofInt t l.value
      else .error (.literalOutside t l.text) := by
  have hdigits := fun c hc => digitIn?_of_isDigit (l.spelled.2 c hc)
  have hradix : 0 < l.mark.radix := by
    cases l.mark <;> decide
  have hmagnitude : Cell.magnitude l.mark.radix l.digits =
      if l.magnitude ≤ greatestMagnitude then .value l.magnitude else .overflow := by
    rw [Cell.magnitude, if_neg (by simpa using l.spelled.1), addDigits_eq hradix hdigits (by decide),
      spell_zero, IntegerLiteral.magnitude]
  rw [parseInteger, IntegerLiteral.chars, splitSign_chars _ (startsWithSign_mark l.spelled.2)]
  simp only [splitRadix_chars _ l.spelled.2, startsWithSign_digits l.spelled.2]
  rw [if_neg Bool.false_ne_true, hmagnitude]
  by_cases hfits : l.magnitude ≤ greatestMagnitude
  · have hvalue : (if decide (l.sign = .minus) = true then -(l.magnitude : Int) else l.magnitude) =
        l.value := by
      simp only [decide_eq_true_eq]
      rfl
    rw [if_pos hfits]
    simp only [hvalue]
    by_cases hv : leastInt64 ≤ l.value ∧ l.value ≤ greatestInt64
    · rw [if_neg (by omega), if_pos hv]
    · rw [if_pos (by omega), if_neg hv]
      rfl
  · -- beyond 127 bits neither sign gives an integer of 64 bits
    have hlarge : ¬(leastInt64 ≤ l.value ∧ l.value ≤ greatestInt64) := by
      unfold IntegerLiteral.value leastInt64 greatestInt64
      unfold greatestMagnitude at hfits
      split <;> omega
    rw [if_neg hfits, if_neg hlarge]
    rfl

/-! ## Literals in a text -/

theorem isBlank_digit (h : m.IsDigit c) : Text.isBlank c = false := by
  have hrange : 0x30 ≤ c.toNat ∧ c.toNat ≤ 0x66 := by
    rcases h with ⟨hlow, hhigh⟩ | ⟨-, ⟨hlow, hhigh⟩ | ⟨hlow, hhigh⟩⟩
    · have hlow : 48 ≤ c.toNat := hlow
      have hhigh : c.toNat ≤ 57 := hhigh
      omega
    · have hlow : 97 ≤ c.toNat := hlow
      have hhigh : c.toNat ≤ 102 := hhigh
      omega
    · have hlow : 65 ≤ c.toNat := hlow
      have hhigh : c.toNat ≤ 70 := hhigh
      omega
  exact Text.isBlank_of_graphic (by omega) (by omega)

theorem isBlank_sign (s : Sign) : ∀ c ∈ s.chars, Text.isBlank c = false := by
  intro c hc
  cases s with
  | absent => cases hc
  | plus | minus =>
    rw [List.mem_singleton.1 hc]
    rfl

theorem isBlank_mark (m : RadixMark) : ∀ c ∈ m.chars, Text.isBlank c = false := by
  intro c hc
  cases m with
  | absent => cases hc
  | lower | upper =>
    simp only [RadixMark.chars, List.mem_cons, List.not_mem_nil, or_false] at hc
    rcases hc with rfl | rfl <;> rfl

theorem isBlank_chars (l : IntegerLiteral) : ∀ c ∈ l.chars, Text.isBlank c = false := by
  intro c hc
  rcases List.mem_append.1 hc with hsign | hc
  · exact isBlank_sign l.sign c hsign
  · rcases List.mem_append.1 hc with hmark | hdigit
    · exact isBlank_mark l.mark c hmark
    · exact isBlank_digit (l.spelled.2 c hdigit)

/-- Around a literal there may be white space. -/
theorem parse_literal (h : t.bounds? = some (low, high)) (l : IntegerLiteral) {front back : String}
    (hfront : ∀ c ∈ front.toList, Text.isBlank c = true)
    (hback : ∀ c ∈ back.toList, Text.isBlank c = true) :
    Cell.parse t (front ++ l.text ++ back) =
      if leastInt64 ≤ l.value ∧ l.value ≤ greatestInt64 then ofInt t l.value
      else .error (.literalOutside t l.text) := by
  have hne : l.chars ≠ [] := fun hnil =>
    l.spelled.1 (List.append_eq_nil_iff.1 (List.append_eq_nil_iff.1 hnil).2).2
  have htrim : Text.trimBlank (front ++ l.text ++ back).toList = l.chars := by
    rw [String.toList_append, String.toList_append, IntegerLiteral.text, String.toList_ofList]
    exact Text.trimBlank_around hne hfront hback
      (fun c hc => isBlank_chars l c (List.mem_of_mem_head? hc))
      (fun c hc => isBlank_chars l c (List.mem_of_getLast? hc))
  rw [parse_eq_parseInteger h, htrim, parseInteger_eq]

end Cell

/-! ## Integers as text -/

namespace IntegerLiteral

theorem isDigit_of_mem_toDigits {n : Nat} {c : Char} (h : c ∈ Nat.toDigits 10 n) :
    RadixMark.absent.IsDigit c :=
  .inl (Char.isDigit_iff_toNat.1 (Nat.isDigit_of_mem_toDigits (by decide) (by decide) h))

/-- The literal that an integer is shown as. -/
def ofInt (v : Int) : IntegerLiteral where
  sign := if v < 0 then .minus else .absent
  mark := .absent
  digits := Nat.toDigits 10 v.natAbs
  spelled := ⟨Nat.toDigits_ne_nil, fun _ hc => isDigit_of_mem_toDigits hc⟩

theorem digitValue_of_isDigit {c : Char} (h : RadixMark.absent.IsDigit c) :
    digitValue c = c.toNat - '0'.toNat := by
  rcases h with h | ⟨h, -⟩
  · rw [digitValue, Hex.value?, if_pos h, Option.getD_some]
  · exact absurd rfl h

/-- Decimal digits spell what the library reads from them. -/
theorem spell_eq_ofDigitChars {cs : List Char} (n : Nat) (h : ∀ c ∈ cs, RadixMark.absent.IsDigit c) :
    Cell.spell 10 n cs = Nat.ofDigitChars 10 cs n := by
  induction cs generalizing n with
  | nil => rfl
  | cons c cs ih =>
    rw [Nat.ofDigitChars_cons, ← ih _ fun c' hc' => h c' (List.mem_cons_of_mem c hc'),
      ← digitValue_of_isDigit (h c List.mem_cons_self), Nat.mul_comm]
    rfl

theorem magnitude_ofInt (v : Int) : (ofInt v).magnitude = v.natAbs := by
  show Nat.ofDigits 10 ((Nat.toDigits 10 v.natAbs).map digitValue).reverse = _
  rw [← Cell.spell_zero, spell_eq_ofDigitChars _ fun _ hc => isDigit_of_mem_toDigits hc,
    Nat.ofDigitChars_ten_toDigits]

theorem value_ofInt (v : Int) : (ofInt v).value = v := by
  rw [value, magnitude_ofInt]
  show (if (if v < 0 then Sign.minus else .absent) = .minus then _ else _) = _
  by_cases hv : v < 0
  · rw [if_pos hv, if_pos rfl]
    omega
  · rw [if_neg hv, if_neg nofun]
    omega

theorem text_ofInt (v : Int) : (ofInt v).text = toString v := by
  rw [Int.toString_eq_repr, Int.repr_eq_if]
  show String.ofList ((if v < 0 then Sign.minus else .absent).chars ++ ([] ++ Nat.toDigits 10 v.natAbs)) = _
  by_cases hv : v < 0
  · have habs : v.natAbs = (-v).toNat := by omega
    rw [if_pos hv, if_neg (by omega), habs, Nat.repr_eq_ofList_toDigits, List.nil_append,
      String.ofList_append]
    rfl
  · have habs : v.natAbs = v.toNat := by omega
    rw [if_neg hv, if_pos (by omega), habs, Nat.repr_eq_ofList_toDigits]
    rfl

end IntegerLiteral

namespace CellType

variable {t : CellType} {low high : Int}

/-- A cell of an integer type is shown as the integer it holds. -/
theorem text_of_toInt? {c : t.Carrier} {v : Int} (h : t.toInt? c = some v) : t.text c = toString v := by
  cases t with
  | int8 | uint8 | int16 | uint16 | int32 | uint32 =>
    cases h
    rfl
  | float32 | float64 | string => cases h

theorem toInt?_inj {c d : t.Carrier} {v : Int} (hc : t.toInt? c = some v) (hd : t.toInt? d = some v) :
    c = d := by
  have h := hc.trans hd.symm
  cases t with
  | int8 => exact Int8.toInt_inj.1 (Option.some.inj h)
  | uint8 => exact UInt8.toNat_inj.1 (Int.ofNat.inj (Option.some.inj h))
  | int16 => exact Int16.toInt_inj.1 (Option.some.inj h)
  | uint16 => exact UInt16.toNat_inj.1 (Int.ofNat.inj (Option.some.inj h))
  | int32 => exact Int32.toInt_inj.1 (Option.some.inj h)
  | uint32 => exact UInt32.toNat_inj.1 (Int.ofNat.inj (Option.some.inj h))
  | float32 | float64 | string => cases hc

/-- A cell of an integer type holds an integer within the bounds. -/
theorem exists_toInt? (h : t.bounds? = some (low, high)) (c : t.Carrier) :
    ∃ v, t.toInt? c = some v ∧ low ≤ v ∧ v ≤ high := by
  cases t with
  | int8 =>
    cases h
    have hlow := Int8.le_toInt c
    have hhigh := Int8.toInt_lt c
    exact ⟨_, rfl, hlow, by omega⟩
  | int16 =>
    cases h
    have hlow := Int16.le_toInt c
    have hhigh := Int16.toInt_lt c
    exact ⟨_, rfl, hlow, by omega⟩
  | int32 =>
    cases h
    have hlow := Int32.le_toInt c
    have hhigh := Int32.toInt_lt c
    exact ⟨_, rfl, hlow, by omega⟩
  | uint8 =>
    cases h
    have hhigh := UInt8.toNat_lt c
    exact ⟨_, rfl, by omega, by omega⟩
  | uint16 =>
    cases h
    have hhigh := UInt16.toNat_lt c
    exact ⟨_, rfl, by omega, by omega⟩
  | uint32 =>
    cases h
    have hhigh := UInt32.toNat_lt c
    exact ⟨_, rfl, by omega, by omega⟩
  | float32 | float64 | string => cases h

/-- What is shown reads back. -/
theorem parse_text_integer (h : t.bounds? = some (low, high)) (c : t.Carrier) :
    Cell.parse t (t.text c) = .ok ⟨t, c⟩ := by
  obtain ⟨v, hv, hbounds⟩ := exists_toInt? h c
  obtain ⟨hlow, hhigh⟩ := Cell.bounds_le h
  obtain ⟨d, hd, hint⟩ := Cell.exists_ofInt h hbounds
  have hparse : Cell.parse t ("" ++ (IntegerLiteral.ofInt v).text ++ "") = _ :=
    Cell.parse_literal h _ nofun nofun
  rw [IntegerLiteral.value_ofInt, IntegerLiteral.text_ofInt, String.empty_append, String.append_empty,
    if_pos (by omega), hd, ← text_of_toInt? hv] at hparse
  rw [hparse, toInt?_inj hint hv]

end CellType

namespace IntegerLiteral

/-- **Integer literals are exact.**  Of every integer type, a literal of any length with white space
around it reads as the value that is its integer if the type has it, and is refused as out of range
if not.  In particular every value reads back from its text. -/
theorem literal_exact {t : CellType} {low high : Int} (h : t.bounds? = some (low, high)) :
    (∀ (l : IntegerLiteral) (front back : String), (∀ c ∈ front.toList, Text.isBlank c = true) →
      (∀ c ∈ back.toList, Text.isBlank c = true) →
      (low ≤ l.value ∧ l.value ≤ high →
        ∃ c, Cell.parse t (front ++ l.text ++ back) = .ok ⟨t, c⟩ ∧ t.toInt? c = some l.value) ∧
      (¬(low ≤ l.value ∧ l.value ≤ high) →
        ∃ e, Cell.parse t (front ++ l.text ++ back) = .error e ∧ e.kind = .range)) ∧
    ∀ c : t.Carrier, Cell.parse t (t.text c) = .ok ⟨t, c⟩ := by
  obtain ⟨hlow, hhigh⟩ := Cell.bounds_le h
  refine ⟨fun l front back hfront hback => ?_, CellType.parse_text_integer h⟩
  rw [Cell.parse_literal h l hfront hback]
  constructor
  · intro hv
    rw [if_pos (by omega)]
    exact Cell.exists_ofInt h hv
  · intro hv
    split
    · exact ⟨_, Cell.ofInt_outside h hv, rfl⟩
    · exact ⟨_, rfl, rfl⟩

/-- Whether characters are digits of a radix can be computed. -/
theorem spelled_of_all {m : RadixMark} {cs : List Char}
    (h : (!cs.isEmpty && cs.all fun c => decide (m.IsDigit c)) = true) :
    cs ≠ [] ∧ ∀ c ∈ cs, m.IsDigit c := by
  simpa using h

/-- Neither leading zeros nor the number of digits matter: one literal has forty digits and is read, the
other one is `2 ^ 128`, which no accumulator of 128 bits holds, and is out of range. -/
theorem literal_exact_long :
    ∃ l m : IntegerLiteral, l.text = "-0X0000000000000000000000000000000000007fFf" ∧ l.value = -32767 ∧
      m.text = "+340282366920938463463374607431768211456" ∧ m.value = 2 ^ 128 ∧
      CellType.bounds? .int16 = some (-32768, 32767) ∧
      (∀ c ∈ "\t".toList, Text.isBlank c = true) ∧ (∀ c ∈ "\n ".toList, Text.isBlank c = true) ∧
      (∃ c, Cell.parse .int16 ("\t" ++ l.text ++ "\n ") = .ok ⟨.int16, c⟩ ∧
        CellType.toInt? .int16 c = some (-32767)) ∧
      ∃ e, Cell.parse .int16 ("\t" ++ m.text ++ "\n ") = .error e ∧ e.kind = .range := by
  have hfront : ∀ c ∈ "\t".toList, Text.isBlank c = true := List.all_eq_true.1 (by decide)
  have hback : ∀ c ∈ "\n ".toList, Text.isBlank c = true := List.all_eq_true.1 (by decide)
  have hbounds : CellType.bounds? .int16 = some (-32768, 32767) := rfl
  let l : IntegerLiteral :=
    ⟨.minus, .upper, List.replicate 36 '0' ++ ['7', 'f', 'F', 'f'],
      spelled_of_all (by decide +kernel)⟩
  let m : IntegerLiteral :=
    ⟨.plus, .absent, "340282366920938463463374607431768211456".toList,
      spelled_of_all (by decide +kernel)⟩
  have hl : l.value = -32767 := by decide +kernel
  have hm : m.value = 2 ^ 128 := by decide +kernel
  obtain ⟨hread, -⟩ := literal_exact hbounds
  have hin := (hread l _ _ hfront hback).1
  have hout := (hread m _ _ hfront hback).2
  rw [hl] at hin
  rw [hm] at hout
  exact ⟨l, m, by decide +kernel, hl, by decide +kernel, hm, hbounds, hfront, hback, hin (by decide),
    hout (by decide)⟩

end IntegerLiteral

end ScriptImage
