/-!
# Byte order and fixed-width words

A word of `n` bytes is a natural number below `256 ^ n`.  `ByteOrder.encode` spells
it in either byte order and `ByteOrder.decode` reads it back:

    (o.encode n v).length = n
    v < 256 ^ n → o.decode (o.encode n v) = v
    o.encode bs.length (o.decode bs) = bs
-/

namespace ScriptImage

-- powers and sums of numbers are those of core in every module, whatever the module imports
attribute [default_instance 20000, instance(high)] instPowNat
attribute [instance(high)] Zero.ofOfNat0

/-- The order in which the bytes of a word are stored. -/
inductive ByteOrder where
  /-- Least significant byte first. -/
  | little
  /-- Most significant byte first. -/
  | big
  deriving DecidableEq, Repr, Inhabited

def ByteOrder.inverted : ByteOrder → ByteOrder
  | .little => .big
  | .big => .little

/-! ## Words -/

/-- The `n` low bytes of `v`, least significant first. -/
def littleBytes : Nat → Nat → List UInt8
  | 0, _ => []
  | n + 1, v => UInt8.ofNat v :: littleBytes n (v / 256)

/-- The number spelled by bytes that come least significant first. -/
def littleValue : List UInt8 → Nat
  | [] => 0
  | b :: bs => b.toNat + 256 * littleValue bs

/-- The `n` low bytes of `v` in the given order. -/
def ByteOrder.encode (order : ByteOrder) (n v : Nat) : List UInt8 :=
  match order with
  | .little => littleBytes n v
  | .big => (littleBytes n v).reverse

/-- The number spelled by bytes in the given order. -/
def ByteOrder.decode (order : ByteOrder) (bytes : List UInt8) : Nat :=
  match order with
  | .little => littleValue bytes
  | .big => littleValue bytes.reverse

/-! ## Lemmas -/

@[simp]
theorem ByteOrder.inverted_inverted (o : ByteOrder) : o.inverted.inverted = o := by
  cases o <;> rfl

@[simp]
theorem length_littleBytes (n v : Nat) : (littleBytes n v).length = n := by
  induction n generalizing v with
  | zero => rfl
  | succ n ih => simp [littleBytes, ih]

theorem littleValue_littleBytes (n v : Nat) : littleValue (littleBytes n v) = v % 256 ^ n := by
  induction n generalizing v with
  | zero => simp [littleBytes, littleValue, Nat.mod_one]
  | succ n ih =>
    have byte : (UInt8.ofNat v).toNat = v % 256 := by simp
    rw [littleBytes, littleValue, ih, byte, Nat.pow_succ, Nat.mul_comm (256 ^ n) 256, Nat.mod_mul]

theorem littleBytes_littleValue (bs : List UInt8) :
    littleBytes bs.length (littleValue bs) = bs := by
  induction bs with
  | nil => rfl
  | cons b bs ih =>
    have h : b.toNat < 256 := b.toNat_lt
    simp only [List.length_cons, littleValue, littleBytes, List.cons.injEq]
    refine ⟨?_, ?_⟩
    · apply UInt8.toNat_inj.mp
      simp only [UInt8.toNat_ofNat']
      omega
    · have : (b.toNat + 256 * littleValue bs) / 256 = littleValue bs := by omega
      rw [this, ih]

theorem littleValue_lt (bs : List UInt8) : littleValue bs < 256 ^ bs.length := by
  induction bs with
  | nil => simp [littleValue]
  | cons b bs ih =>
    have h : b.toNat < 256 := b.toNat_lt
    simp only [littleValue, List.length_cons, Nat.pow_succ]
    omega

@[simp]
theorem ByteOrder.length_encode (o : ByteOrder) (n v : Nat) : (o.encode n v).length = n := by
  cases o <;> simp [ByteOrder.encode]

theorem ByteOrder.decode_encode (o : ByteOrder) (n v : Nat) :
    o.decode (o.encode n v) = v % 256 ^ n := by
  cases o <;> simp [ByteOrder.encode, ByteOrder.decode, littleValue_littleBytes]

/-- A word that its width holds is read from the front of what is stored. -/
theorem ByteOrder.decode_take_encode (o : ByteOrder) {n v : Nat} (h : v < 256 ^ n) (rest : List UInt8) :
    o.decode ((o.encode n v ++ rest).take n) = v := by
  rw [List.take_left' (o.length_encode n v), o.decode_encode, Nat.mod_eq_of_lt h]

theorem ByteOrder.encode_decode (o : ByteOrder) (bs : List UInt8) :
    o.encode bs.length (o.decode bs) = bs := by
  cases o
  · exact littleBytes_littleValue bs
  · have h := littleBytes_littleValue bs.reverse
    simp only [List.length_reverse] at h
    simp [ByteOrder.encode, ByteOrder.decode, h]

theorem ByteOrder.decode_lt (o : ByteOrder) (bs : List UInt8) : o.decode bs < 256 ^ bs.length := by
  cases o
  · exact littleValue_lt bs
  · have h := littleValue_lt bs.reverse
    simpa [ByteOrder.decode] using h

end ScriptImage
