/-!
# Castellano.Text.Blank

White space, and what is left of a text once the white space around it is gone.

The class is the `White_Space` property of the character standard: the ASCII controls from tab
to carriage return, the space, and the spaces and line breaks of the other blocks. Characters
that merely look empty (the zero-width ones, the byte order mark) do not belong to it.
-/

namespace Castellano
namespace Text

/-- The white space characters, as ranges of code points in ascending order. -/
def blankRanges : List (Nat × Nat) :=
  [(0x0009, 0x000D), (0x0020, 0x0020), (0x0085, 0x0085), (0x00A0, 0x00A0), (0x1680, 0x1680),
    (0x2000, 0x200A), (0x2028, 0x2029), (0x202F, 0x202F), (0x205F, 0x205F), (0x3000, 0x3000)]

/-- A character that may stand around a word without being part of it. -/
def isBlank (c : Char) : Bool :=
  blankRanges.any fun range => decide (range.1 ≤ c.toNat) && decide (c.toNat ≤ range.2)

def trimLeft (cs : List Char) : List Char := cs.dropWhile isBlank

def trimRight (cs : List Char) : List Char := (trimLeft cs.reverse).reverse

/-- The text without the blanks around it; blanks between other characters stay. -/
def trim (cs : List Char) : List Char := trimRight (trimLeft cs)

end Text
end Castellano
