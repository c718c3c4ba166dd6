import Castellano.Vocabulary.Spanish

/-!
# Castellano.Language

The languages that an analysis can be asked for. A language brings its built-in words.
-/

namespace Castellano

inductive Language where
  | spanish
  deriving DecidableEq

namespace Language

def all : List Language := [spanish]

def code : Language → String
  | spanish => "es"

def text : Language → String
  | spanish => "Español"

/-- The names by which a language is recognized. -/
def names : Language → List String
  | spanish => ["es", "spanish", "espanol", "español"]

/-- The language of the given name, whatever its case and the blanks around it. -/
def ofName? (s : String) : Option Language := Text.named? all names s

def draft : Language → Draft
  | spanish => Spanish.draft

end Language
end Castellano
