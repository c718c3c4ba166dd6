import Castellano.Vocabulary.Draft

/-!
# Castellano.Vocabulary.Listing

The written form of a vocabulary, one word a line: `word|category|gender`. The gender may be
left out. Blank lines and lines that start with `#` say nothing, and blanks around a line or a
field do not count.

Reading goes on to the first line that is not well formed. The words of the lines before it
stay contributed, and the error tells the number of the line among all lines of the text.
-/

namespace Castellano

structure Contribution where
  category : Category
  gender : Gender
  word : String
  deriving DecidableEq

/-- Why a line is not well formed. -/
inductive LineFault where
  /-- The line does not have two or three fields, or its first field is empty. -/
  | malformed (content : String)
  | unknownCategory (name : String)
  | unknownGender (name : String)
  deriving DecidableEq

/-- A line that is not well formed, with its number counted from one. -/
structure ListingError where
  line : Nat
  fault : LineFault
  deriving DecidableEq

/-! ## Reading -/

namespace Contribution

/-- Reads the fields of a line. The category is looked at before the gender. -/
def ofFields (word category gender : String) : Except LineFault Contribution :=
  match Category.ofName? category with
  | none => .error (.unknownCategory category)
  | some c =>
    match Gender.ofName? gender with
    | none => .error (.unknownGender gender)
    | some g => .ok ⟨c, g, word⟩

/-- Reads a line; blank lines and comments contribute nothing. -/
def ofLine (line : List Char) : Except LineFault (Option Contribution) :=
  match Text.trim line with
  | [] => .ok none
  | '#' :: _ => .ok none
  | content =>
    let fields := (content.splitOn '|').map fun field => String.ofList (Text.trim field)
    let read : Option (String × String × String) :=
      match fields with
      | [word, category] => some (word, category, "")
      | [word, category, gender] => some (word, category, gender)
      | _ => none
    match read with
    | none => .error (.malformed (String.ofList content))
    | some (word, category, gender) =>
      if word = "" then .error (.malformed (String.ofList content))
      else (ofFields word category gender).map some

end Contribution

namespace Draft

def contribute (d : Draft) (c : Contribution) : Draft := d.add c.category c.gender c.word

/-- Reads lines, of which the first has the given number. The number of words read, or the first
error, comes with the draft that the lines before it lead to. -/
def loadLines (d : Draft) (number : Nat) : List (List Char) → Draft × Except ListingError Nat
  | [] => (d, .ok 0)
  | line :: lines =>
    match Contribution.ofLine line with
    | .error fault => (d, .error ⟨number, fault⟩)
    | .ok none => d.loadLines (number + 1) lines
    | .ok (some c) =>
      let (d', count) := (d.contribute c).loadLines (number + 1) lines
      (d', count.map (· + 1))

def load (d : Draft) (text : String) : Draft × Except ListingError Nat :=
  d.loadLines 1 (text.toList.splitOn '\n')

/-! ## Writing -/

def lineOf (k : WordClass) (word : String) : String :=
  word ++ "|" ++ k.category.text ++ "|" ++ k.gender.text ++ "\n"

/-- The listing of a draft: the words of every class, classes in order of precedence. -/
def listing (d : Draft) : String :=
  String.join (WordClass.all.flatMap fun k => (d.list k).map (lineOf k))

end Draft
end Castellano
