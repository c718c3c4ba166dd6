import Castellano.Category
import Castellano.Text.Normal

/-!
# Castellano.Token

A word with its category, as the parser reads it.
-/

namespace Castellano

/-- A classified word. The word need not be normal. -/
structure Token where
  word : String
  category : Category
  deriving DecidableEq

/-- The token of a word in its normal form. -/
def Token.ofWord (word : String) (category : Category) : Token := ⟨normalize word, category⟩

end Castellano
