import Castellano.Text.Name

/-!
# Castellano.Gender

Grammatical gender. Indefinite articles, which go with any noun, and all words that have no
gender are neutral.
-/

namespace Castellano

inductive Gender where
  | masculine
  | feminine
  | neutral
  deriving DecidableEq

namespace Gender

/-- The genders in the order in which their word lists are kept. -/
def all : List Gender := [masculine, feminine, neutral]

/-- The name under which a gender is shown. -/
def text : Gender → String
  | masculine => "masculino"
  | feminine => "femenino"
  | neutral => "neutro"

/-- The name under which a gender is stored. -/
def key : Gender → String
  | masculine => "masculine"
  | feminine => "feminine"
  | neutral => "neutral"

/-- The names by which a gender is recognized; leaving it out means neutral. -/
def names : Gender → List String
  | masculine => ["m", "masc", "masculine", "masculino"]
  | feminine => ["f", "fem", "feminine", "femenino"]
  | neutral => ["n", "", "neutral", "neutro"]

/-- The gender of the given name, whatever its case and the blanks around it. -/
def ofName? (s : String) : Option Gender := Text.named? all names s

end Gender
end Castellano
