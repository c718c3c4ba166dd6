import Castellano.Json.Value

/-!
# Castellano.Json.Printer

JSON as a text of many lines: one item or field a line, two blanks for every level, and empty
arrays and objects in one piece. Only quotes, backslashes and control characters are escaped,
and the common ones among them by a letter.
-/

namespace Castellano
namespace Json

/-! ## Strings -/

/-- A code unit by its four hexadecimal digits. -/
def escapeCode (n : Nat) : String :=
  String.ofList ['\\', 'u', Nat.digitChar (n / 0x1000 % 16), Nat.digitChar (n / 0x100 % 16),
    Nat.digitChar (n / 0x10 % 16), Nat.digitChar (n % 16)]

/-- A character as it is written in a string. -/
def escapeChar (c : Char) : String :=
  if c = '"' then "\\\""
  else if c = '\\' then "\\\\"
  else if c = '\n' then "\\n"
  else if c = '\r' then "\\r"
  else if c = '\t' then "\\t"
  else if c.toNat = 0x08 then "\\b"
  else if c.toNat = 0x0C then "\\f"
  else if c.toNat < 0x20 then escapeCode c.toNat
  else String.singleton c

def Letter.escaped : Letter → String
  | char c => escapeChar c
  | half code => escapeCode code

def quoted (letters : List Letter) : String :=
  "\"" ++ String.join (letters.map Letter.escaped) ++ "\""

/-! ## Values -/

/-- The start of a line at the given level. -/
def lineStart (level : Nat) : String := "\n" ++ String.ofList (List.replicate (2 * level) ' ')

mutual

def printAt (level : Nat) : Json → String
  | null => "null"
  | bool true => "true"
  | bool false => "false"
  | number literal => literal
  | string letters => quoted letters
  | array [] => "[]"
  | array (v :: vs) =>
    "[" ++ lineStart (level + 1) ++ printAt (level + 1) v ++ printItemsAt (level + 1) vs ++
      lineStart level ++ "]"
  | object [] => "\x7b\x7d"
  | object ((k, v) :: fields) =>
    "\x7b" ++ lineStart (level + 1) ++ quoted k ++ ": " ++ printAt (level + 1) v ++
      printFieldsAt (level + 1) fields ++ lineStart level ++ "\x7d"

/-- The items behind the first one. -/
def printItemsAt (level : Nat) : List Json → String
  | [] => ""
  | v :: vs => "," ++ lineStart level ++ printAt level v ++ printItemsAt level vs

/-- The fields behind the first one. -/
def printFieldsAt (level : Nat) : List (List Letter × Json) → String
  | [] => ""
  | (k, v) :: fields =>
    "," ++ lineStart level ++ quoted k ++ ": " ++ printAt level v ++ printFieldsAt level fields

end

def print (j : Json) : String := j.printAt 0

end Json
end Castellano
