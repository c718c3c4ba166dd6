import Castellano.Text.Blank
import Castellano.Text.Capital

/-!
# Castellano.Text.Normal

The normal form of a word, under which words are stored, compared and shown: no blanks around
it, capital letters, and no accent on a vowel. `Ñ` is a letter of its own and keeps its tilde.
-/

namespace Castellano
namespace Text

/-- The vowel without its accent; every other character is kept. -/
def unaccented : Char → Char
  | 'Á' | 'À' | 'Â' | 'Ä' => 'A'
  | 'É' | 'È' | 'Ê' | 'Ë' => 'E'
  | 'Í' | 'Ì' | 'Î' | 'Ï' => 'I'
  | 'Ó' | 'Ò' | 'Ô' | 'Ö' => 'O'
  | 'Ú' | 'Ù' | 'Û' | 'Ü' => 'U'
  | c => c

def normalChars (cs : List Char) : List Char := ((trim cs).flatMap capital).map unaccented

end Text

/-- The normal form of a word. -/
def normalize (word : String) : String := String.ofList (Text.normalChars word.toList)

end Castellano
