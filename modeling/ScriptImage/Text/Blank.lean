/-!
# White space

The characters of the Unicode property White_Space, and the removal of white space
from both ends of a text.
-/

namespace ScriptImage.Text

/-- The ranges of code points with the property White_Space. -/
def blankRanges : List (Nat × Nat) :=
  [(0x09, 0x0D), (0x20, 0x20), (0x85, 0x85), (0xA0, 0xA0), (0x1680, 0x1680), (0x2000, 0x200A),
   (0x2028, 0x2029), (0x202F, 0x202F), (0x205F, 0x205F), (0x3000, 0x3000)]

def isBlank (c : Char) : Bool :=
  blankRanges.any fun (low, high) => decide (low ≤ c.toNat) && decide (c.toNat ≤ high)

/-- The characters between the first and the last that is not white space. -/
def trimBlank (cs : List Char) : List Char :=
  ((cs.dropWhile isBlank).reverse.dropWhile isBlank).reverse

/-! ## Lemmas -/

/-- Characters that leave ink in ASCII are no white space. -/
theorem isBlank_of_graphic {c : Char} (hlow : 0x21 ≤ c.toNat) (hhigh : c.toNat ≤ 0x7E) :
    isBlank c = false := by
  simp only [isBlank, blankRanges, List.any_cons, List.any_nil, Bool.or_eq_false_iff,
    Bool.and_eq_false_iff, decide_eq_false_iff_not, and_true]
  omega

variable {front cs back : List Char}

theorem dropWhile_isBlank (hne : cs ≠ []) (hfront : ∀ c ∈ front, isBlank c = true)
    (hhead : ∀ c, cs.head? = some c → isBlank c = false) :
    (front ++ (cs ++ back)).dropWhile isBlank = cs ++ back := by
  rw [List.dropWhile_append_of_pos hfront]
  cases cs with
  | nil => exact absurd rfl hne
  | cons c cs => rw [List.cons_append, List.dropWhile_cons_of_neg (by rw [hhead c rfl]; decide)]

/-- White space around a text that neither begins nor ends with any is what is removed. -/
theorem trimBlank_around (hne : cs ≠ []) (hfront : ∀ c ∈ front, isBlank c = true)
    (hback : ∀ c ∈ back, isBlank c = true) (hhead : ∀ c, cs.head? = some c → isBlank c = false)
    (hlast : ∀ c, cs.getLast? = some c → isBlank c = false) :
    trimBlank (front ++ cs ++ back) = cs := by
  have hreverse : (cs ++ back).reverse = back.reverse ++ (cs.reverse ++ []) := by
    rw [List.reverse_append, List.append_nil]
  have hback' : ∀ c ∈ back.reverse, isBlank c = true := fun c hc => hback c (List.mem_reverse.1 hc)
  have hhead' : ∀ c, cs.reverse.head? = some c → isBlank c = false := fun c hc =>
    hlast c (List.head?_reverse ▸ hc)
  rw [trimBlank, List.append_assoc, dropWhile_isBlank hne hfront hhead, hreverse,
    dropWhile_isBlank (mt List.reverse_eq_nil_iff.1 hne) hback' hhead', List.append_nil,
    List.reverse_reverse]

end ScriptImage.Text
