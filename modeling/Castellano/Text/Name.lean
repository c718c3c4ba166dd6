import Castellano.Text.Blank

/-!
# Castellano.Text.Name

Names of categories, genders and languages are recognized without regard to case and to the
blanks around them. All of them are written with the letters `a` to `z`, `í`, `ó` and `ñ`, and none
has a `k`. Behind the first 256 characters there are two capitals whose small form has such a letter:
the Kelvin sign, of which it is `k`, and the dotted `İ`, of which it is `i` with a combining dot that
no name has either. So it is enough to fold the capitals of the first 256 characters.
-/

namespace Castellano
namespace Text

/-- The small form of a Latin capital; every other character is kept. -/
def small (c : Char) : Char :=
  let n := c.toNat
  if (0x41 ≤ n ∧ n ≤ 0x5A) ∨ (0xC0 ≤ n ∧ n ≤ 0xDE ∧ n ≠ 0xD7) then Char.ofNat (n + 32) else c

/-- The form in which a name is compared. -/
def foldName (s : String) : String := String.ofList ((trim s.toList).map small)

/-- The first of the values that has the given name among its names. -/
def named? {α : Type} (values : List α) (names : α → List String) (s : String) : Option α :=
  let name := foldName s
  values.find? fun a => (names a).contains name

end Text
end Castellano
