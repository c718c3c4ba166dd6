import Castellano.Automaton.Table
import Castellano.Vocabulary.Basic

/-!
# Castellano.Automaton.Basic

The word automaton: it recognizes the words that it was made from, tells whether a text begins
one of them, and lists the words that begin with a text. Texts are taken in their normal form.

The automaton grows by spelling words: the characters that lead somewhere are followed, and for
the rest of the word new states are made, so that words share states exactly as far as they begin
alike.
-/

namespace Castellano

/-- A deterministic automaton for a sequence of words. -/
structure Automaton where
  /-- What classifies the words. -/
  vocabulary : Vocabulary
  table : Automaton.Table
  /-- The number of states in which a word ends. -/
  finalStateCount : Nat
  transitionCount : Nat
  /-- The number of words that it was made from, repeated and empty ones included. -/
  wordCount : Nat

namespace Automaton

/-! ## Construction -/

def empty (v : Vocabulary) : Automaton := ⟨v, Table.initial, 0, 0, 0⟩

def grow (a : Automaton) (q : Nat) (c : Char) : Automaton :=
  { a with table := a.table.grow q c, transitionCount := a.transitionCount + 1 }

/-- Follows a text from state `q` and makes the states that are missing. The result is the grown
automaton and the state in which the text ends. -/
def spell (a : Automaton) (q : Nat) : List Char → Automaton × Nat
  | [] => (a, q)
  | c :: cs =>
    match a.table.next? q c with
    | some r => a.spell r cs
    | none => (a.grow q c).spell a.table.size cs

/-- Lets a word end in state `q`. Its category is the one that the vocabulary gives. -/
def mark (a : Automaton) (q : Nat) (word : String) : Automaton :=
  { a with
    table := a.table.mark q word (a.vocabulary.categoryOf? word)
    finalStateCount :=
      if a.table.isFinal q then a.finalStateCount else a.finalStateCount + 1 }

/-- Adds a word in its normal form. A word without characters is counted but ends in no state. -/
def insert (a : Automaton) (word : String) : Automaton :=
  let counted := { a with wordCount := a.wordCount + 1 }
  let w := normalize word
  if w = "" then counted
  else
    let (spelled, q) := counted.spell 0 w.toList
    spelled.mark q w

/-- The automaton of a sequence of words, classified by a vocabulary. -/
def ofWords (v : Vocabulary) (words : List String) : Automaton := words.foldl insert (empty v)

def ofVocabulary (v : Vocabulary) : Automaton := ofWords v v.words

/-! ## Questions -/

def classify (a : Automaton) (word : String) : Option Category := a.vocabulary.categoryOf? word

def walk (a : Automaton) (text : String) : Table.Walk := a.table.walk 0 (normalize text).toList

def stateOf? (a : Automaton) (text : String) : Option State :=
  match (a.walk text).arrival with
  | none => none
  | some q => a.table[q]?

/-- What is found out about a text that should be a word. -/
structure Recognition where
  accepted : Bool
  word : Option String
  /-- Its category, if the vocabulary has the word. -/
  category : Option Category
  path : List Nat

def recognize (a : Automaton) (text : String) : Recognition :=
  match a.stateOf? text with
  | none => ⟨false, none, none, (a.walk text).path⟩
  | some s => ⟨s.isFinal, s.word, s.category, (a.walk text).path⟩

/-- What is found out about a text that should begin a word. -/
structure Continuation where
  /-- The text begins a word, or has no characters. -/
  valid : Bool
  path : List Nat
  /-- The characters that may come next, in ascending order. -/
  continuations : List Char
  isWord : Bool

def begins (a : Automaton) (text : String) : Continuation :=
  match a.stateOf? text with
  | none => ⟨false, (a.walk text).path, [], false⟩
  | some s => ⟨true, (a.walk text).path, s.continuations, s.isFinal⟩

/-- The words that begin with a text, in ascending order. No word has more characters than there
are states behind the initial one, so the size of the table bounds the search. -/
def completions (a : Automaton) (text : String) : List String :=
  match (a.walk text).arrival with
  | none => []
  | some q => a.table.wordsFrom a.table.size q

/-! ## Statistics -/

structure Stats where
  stateCount : Nat
  finalStateCount : Nat
  transitionCount : Nat
  wordCount : Nat

def stats (a : Automaton) : Stats :=
  { stateCount := a.table.size
    finalStateCount := a.finalStateCount
    transitionCount := a.transitionCount
    wordCount := a.wordCount }

end Automaton
end Castellano
