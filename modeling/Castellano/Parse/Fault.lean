import Castellano.Token

/-!
# Castellano.Parse.Fault

Why a sequence of words is no sentence.
-/

namespace Castellano
namespace Parse

/-- The cause of a refusal. -/
inductive Fault where
  /-- The words end where a word of the expected category should be. -/
  | unexpectedEnd (expected : Category)
  /-- A word is there, but not of the expected category. -/
  | unexpectedToken (expected found : Category) (word : String)
  | nounPhrase (cause : Fault)
  /-- Neither kind of sentence could be read: not the one with a single subject, nor the one with
  two. -/
  | noProduction (first second : Fault)
  /-- A sentence was read, but words are left. -/
  | unconsumed (words : List String)
  deriving DecidableEq

def Fault.message : Fault → String
  | unexpectedEnd expected =>
    s!"se esperaba {expected.text} pero se alcanzó el final de la oración"
  | unexpectedToken expected found word =>
    s!"se esperaba {expected.text} pero se encontró {found.text} ({word})"
  | nounPhrase cause => s!"error analizando SN: {cause.message}"
  | noProduction first second =>
    s!"no se pudo analizar la oración. Errores: {first.message}, {second.message}"
  | unconsumed words => "tokens no consumidos: " ++ " ".intercalate words

end Parse
end Castellano
