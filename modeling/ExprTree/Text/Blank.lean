/-!
# Blank characters

A character is blank when it has the `White_Space` property of the Unicode
character database. The property is given by its ranges; they are disjoint and
in increasing order, and every blank character of the core library is among
them.
-/

namespace ExprTree

/-- The first and the last code point of each range of blank characters. -/
def blankRanges : List (UInt32 × UInt32) :=
  [(0x9, 0xD), (0x20, 0x20), (0x85, 0x85), (0xA0, 0xA0), (0x1680, 0x1680), (0x2000, 0x200A),
    (0x2028, 0x2029), (0x202F, 0x202F), (0x205F, 0x205F), (0x3000, 0x3000)]

def isBlank (c : Char) : Bool :=
  blankRanges.any fun (first, last) => first ≤ c.val && c.val ≤ last

example : (blankRanges.map fun (first, last) => (last - first + 1).toNat).sum = 25 := by decide

/-- The ranges are disjoint and in increasing order. -/
theorem blankRanges_pairwise :
    blankRanges.Pairwise fun earlier later => earlier.2 < later.1 := by decide

theorem isBlank_of_isWhitespace {c : Char} (h : c.isWhitespace) : isBlank c := by
  simp only [Char.isWhitespace, Bool.or_eq_true, decide_eq_true_eq] at h
  rcases h with ((rfl | rfl) | rfl) | rfl <;> decide

end ExprTree
