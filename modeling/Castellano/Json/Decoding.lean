import Castellano.Gender
import Castellano.Json.Reader
import Castellano.Token

/-!
# Castellano.Json.Decoding

Categories, genders and tokens from JSON. A category or gender is its stored name, or an object
that has this name as its only field and `null` in it. A token is an object with a field for
the word and one for the category, or an array of the two; it keeps the word as it is given.
-/

namespace Castellano

namespace Json

def text? : Json → Option String
  | string letters => textOf? letters
  | _ => none

/-- The name of an alternative that carries nothing. -/
def name? : Json → Option String
  | string letters => textOf? letters
  | object [(letters, null)] => textOf? letters
  | _ => none

/-- The values of the fields with the given name. -/
def valuesOf (name : String) (fields : List (String × Json)) : List Json :=
  (fields.filter fun field => decide (field.1 = name)).map Prod.snd

/-- The fields of an object, if all their names are texts. -/
def fields? : List (List Letter × Json) → Option (List (String × Json))
  | [] => some []
  | (letters, v) :: fields =>
    match textOf? letters, fields? fields with
    | some name, some named => some ((name, v) :: named)
    | _, _ => none

end Json

def Category.ofJson? (j : Json) : Option Category :=
  match j.name? with
  | none => none
  | some name => Category.all.find? fun c => decide (c.text = name)

def Gender.ofJson? (j : Json) : Option Gender :=
  match j.name? with
  | none => none
  | some name => Gender.all.find? fun g => decide (g.key = name)

namespace Token

def ofParts? (word category : Json) : Option Token :=
  match word.text?, Category.ofJson? category with
  | some w, some c => some ⟨w, c⟩
  | _, _ => none

/-- The token that a JSON value stands for. Fields of other names do not count; each of its own
fields is there exactly once. -/
def ofJson? : Json → Option Token
  | .array [word, category] => ofParts? word category
  | .object fields =>
    match Json.fields? fields with
    | none => none
    | some named =>
      match Json.valuesOf "word" named, Json.valuesOf "category" named with
      | [word], [category] => ofParts? word category
      | _, _ => none
  | _ => none

end Token
end Castellano
