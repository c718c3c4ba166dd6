/-!
# Castellano.Json.Value

JSON values. A string is a sequence of letters, since a JSON text may spell half of a surrogate
pair, which is no character. The fields of an object keep their order and may share a name.
-/

namespace Castellano

namespace Json

/-- What a JSON string consists of. -/
inductive Letter where
  | char (c : Char)
  /-- Half of a surrogate pair, without the other half. -/
  | half (code : Nat)
  deriving DecidableEq

def Letter.char? : Letter → Option Char
  | char c => some c
  | half _ => none

def lettersOf (s : String) : List Letter := s.toList.map Letter.char

/-- The text that letters spell, if all of them are characters. -/
def textOf? (letters : List Letter) : Option String :=
  (letters.mapM Letter.char?).map String.ofList

end Json

/-- A JSON value. Numbers are kept as they are written. -/
inductive Json where
  | null
  | bool (b : Bool)
  | number (literal : String)
  | string (letters : List Json.Letter)
  | array (items : List Json)
  | object (fields : List (List Json.Letter × Json))

namespace Json

def ofString (s : String) : Json := string (lettersOf s)

def ofNat (n : Nat) : Json := number (toString n)

/-- The value of what may be absent. -/
def ofOption {α : Type} (f : α → Json) : Option α → Json
  | none => null
  | some a => f a

def ofFields (fields : List (String × Json)) : Json :=
  object (fields.map fun field => (lettersOf field.1, field.2))

def ofStrings (ss : List String) : Json := array (ss.map ofString)

end Json
end Castellano
