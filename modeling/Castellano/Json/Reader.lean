import Castellano.Json.Value

/-!
# Castellano.Json.Reader

Reading JSON texts. Each reader takes what it reads from the front and gives the value with the
characters that are left.
-/

namespace Castellano
namespace Json

/-! ## Strings -/

def hexValue? (c : Char) : Option Nat :=
  if '0' ≤ c ∧ c ≤ '9' then some (c.toNat - 0x30)
  else if 'a' ≤ c ∧ c ≤ 'f' then some (c.toNat - 0x61 + 10)
  else if 'A' ≤ c ∧ c ≤ 'F' then some (c.toNat - 0x41 + 10)
  else none

def codeUnit? (a b c d : Char) : Option Nat :=
  match hexValue? a, hexValue? b, hexValue? c, hexValue? d with
  | some a, some b, some c, some d => some (0x1000 * a + 0x100 * b + 0x10 * c + d)
  | _, _, _, _ => none

def letterOf (code : Nat) : Letter :=
  if 0xD800 ≤ code ∧ code < 0xE000 then .half code else .char (Char.ofNat code)

/-- The character that an escape of one letter stands for. -/
def shortEscape? : Char → Option Char
  | '"' => some '"'
  | '\\' => some '\\'
  | '/' => some '/'
  | 'b' => some (Char.ofNat 0x08)
  | 'f' => some (Char.ofNat 0x0C)
  | 'n' => some '\n'
  | 'r' => some '\r'
  | 't' => some '\t'
  | _ => none

/-- Puts a letter before letters. The first half of a surrogate pair and the second half after it
make one character. -/
def joinLetter : Letter → List Letter → List Letter
  | .half high, .half low :: rest =>
    if high < 0xDC00 ∧ 0xDC00 ≤ low then
      .char (Char.ofNat (0x10000 + 0x400 * (high - 0xD800) + (low - 0xDC00))) :: rest
    else .half high :: .half low :: rest
  | letter, rest => letter :: rest

/-- Reads the letters of a string and the quote that ends it. -/
def readLetters : List Char → Option (List Letter × List Char)
  | [] => none
  | '"' :: cs => some ([], cs)
  | '\\' :: 'u' :: a :: b :: c :: d :: cs =>
    match codeUnit? a b c d, readLetters cs with
    | some code, some (letters, rest) => some (joinLetter (letterOf code) letters, rest)
    | _, _ => none
  | '\\' :: e :: cs =>
    match shortEscape? e, readLetters cs with
    | some c, some (letters, rest) => some (.char c :: letters, rest)
    | _, _ => none
  | c :: cs =>
    if c.toNat < 0x20 ∨ c = '\\' then none
    else
      match readLetters cs with
      | some (letters, rest) => some (.char c :: letters, rest)
      | none => none

/-! ## Numbers -/

def isDigit (c : Char) : Bool := decide ('0' ≤ c) && decide (c ≤ '9')

def readDigits (cs : List Char) : Option (List Char × List Char) :=
  match cs.takeWhile isDigit with
  | [] => none
  | digits => some (digits, cs.dropWhile isDigit)

/-- Reads the whole part of a number, which has no zero in front. -/
def readWhole : List Char → Option (List Char × List Char)
  | '0' :: cs => some (['0'], cs)
  | cs => readDigits cs

def readFraction : List Char → Option (List Char × List Char)
  | '.' :: cs => (readDigits cs).map fun (digits, rest) => ('.' :: digits, rest)
  | cs => some ([], cs)

def readExponent : List Char → Option (List Char × List Char)
  | e :: cs =>
    if e = 'e' ∨ e = 'E' then
      match cs with
      | '+' :: cs => (readDigits cs).map fun (digits, rest) => (e :: '+' :: digits, rest)
      | '-' :: cs => (readDigits cs).map fun (digits, rest) => (e :: '-' :: digits, rest)
      | cs => (readDigits cs).map fun (digits, rest) => (e :: digits, rest)
    else some ([], e :: cs)
  | [] => some ([], [])

def readUnsigned (cs : List Char) : Option (List Char × List Char) :=
  match readWhole cs with
  | none => none
  | some (whole, cs) =>
    match readFraction cs with
    | none => none
    | some (fraction, cs) =>
      match readExponent cs with
      | none => none
      | some (exponent, rest) => some (whole ++ fraction ++ exponent, rest)

def readNumber : List Char → Option (Json × List Char)
  | '-' :: cs =>
    (readUnsigned cs).map fun (digits, rest) => (number (String.ofList ('-' :: digits)), rest)
  | cs => (readUnsigned cs).map fun (digits, rest) => (number (String.ofList digits), rest)

/-! ## Values -/

/-- White space between the parts of a JSON text. -/
def isSpace (c : Char) : Bool := c == ' ' || c == '\t' || c == '\n' || c == '\r'

/-- The text from its first character that is no white space. -/
def skip (cs : List Char) : List Char := cs.dropWhile isSpace

def readName (cs : List Char) : Option (List Letter × List Char) :=
  match skip cs with
  | '"' :: cs =>
    match readLetters cs with
    | none => none
    | some (name, cs) =>
      match skip cs with
      | ':' :: rest => some (name, rest)
      | _ => none
  | _ => none

mutual

/-- Reads a value. The first argument bounds the nesting and the number of parts. -/
def readValue : Nat → List Char → Option (Json × List Char)
  | 0, _ => none
  | bound + 1, cs =>
    match skip cs with
    | 'n' :: 'u' :: 'l' :: 'l' :: rest => some (null, rest)
    | 't' :: 'r' :: 'u' :: 'e' :: rest => some (bool true, rest)
    | 'f' :: 'a' :: 'l' :: 's' :: 'e' :: rest => some (bool false, rest)
    | '"' :: cs => (readLetters cs).map fun (letters, rest) => (string letters, rest)
    | '[' :: cs =>
      match skip cs with
      | ']' :: rest => some (array [], rest)
      | cs => (readItems bound cs).map fun (items, rest) => (array items, rest)
    | '\x7b' :: cs =>
      match skip cs with
      | '\x7d' :: rest => some (object [], rest)
      | cs => (readFields bound cs).map fun (fields, rest) => (object fields, rest)
    | cs => readNumber cs

def readItems : Nat → List Char → Option (List Json × List Char)
  | 0, _ => none
  | bound + 1, cs =>
    match readValue bound cs with
    | none => none
    | some (v, cs) =>
      match skip cs with
      | ']' :: rest => some ([v], rest)
      | ',' :: cs => (readItems bound cs).map fun (items, rest) => (v :: items, rest)
      | _ => none

def readFields : Nat → List Char → Option (List (List Letter × Json) × List Char)
  | 0, _ => none
  | bound + 1, cs =>
    match readName cs with
    | none => none
    | some (name, cs) =>
      match readValue bound cs with
      | none => none
      | some (v, cs) =>
        match skip cs with
        | '\x7d' :: rest => some ([(name, v)], rest)
        | ',' :: cs => (readFields bound cs).map fun (fields, rest) => ((name, v) :: fields, rest)
        | _ => none

end

/-- Reads a JSON text, which has nothing but white space around its value. Every step of the reader
that goes deeper or further comes at most twice for a character. -/
def read (s : String) : Option Json :=
  let cs := s.toList
  match readValue (2 * cs.length + 2) cs with
  | none => none
  | some (v, rest) => if skip rest = [] then some v else none

end Json
end Castellano
