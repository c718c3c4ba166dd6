import Castellano.Text.Name

/-!
# Castellano.Category

The six grammatical categories of the vocabulary. Their order is the precedence under which a
word that is listed in several of them is classified: the first one wins.
-/

namespace Castellano

inductive Category where
  | article
  | noun
  | verb
  | adjective
  | preposition
  | conjunction
  deriving DecidableEq

namespace Category

/-- The categories in order of precedence. -/
def all : List Category := [article, noun, verb, adjective, preposition, conjunction]

/-- The name under which a category is shown and stored. -/
def text : Category → String
  | article => "articulo"
  | noun => "sustantivo"
  | verb => "verbo"
  | adjective => "adjetivo"
  | preposition => "preposicion"
  | conjunction => "conjuncion"

/-- The names by which a category is recognized: Spanish, English and short. -/
def names : Category → List String
  | article => ["articulo", "artículo", "article", "art", "det"]
  | noun => ["sustantivo", "noun", "n", "sust"]
  | verb => ["verbo", "verb", "v"]
  | adjective => ["adjetivo", "adjective", "adj"]
  | preposition => ["preposicion", "preposición", "preposition", "prep"]
  | conjunction => ["conjuncion", "conjunción", "conjunction", "conj"]

/-- The category of the given name, whatever its case and the blanks around it. -/
def ofName? (s : String) : Option Category := Text.named? all names s

/-- Only articles and nouns have a gender. -/
def gendered : Category → Bool
  | article | noun => true
  | verb | adjective | preposition | conjunction => false

end Category
end Castellano
