import Castellano.Grammar.Tree
import Castellano.Parse.Fault

/-!
# Castellano.Parse.Basic

A recursive descent parser for the grammar of sentences. Each phrase has a reader, which takes
tokens from the front and gives the tree with the tokens that are left. Going back after a
failed attempt is reading the same tokens in another way, so nothing has to be restored.

Readers are greedy: an adjective, an object or a prepositional phrase is taken whenever one
comes next. Agreement in gender is no matter of structure and is not looked at here.
-/

namespace Castellano
namespace Parse

/-! ## Words -/

def leafOf (c : Category) (word : String) : Tree := Tree.leaf (NonTerminal.preterminal c) word

/-- Reads one word, which must be of the given category. -/
def word (c : Category) : List Token → Except Fault (Tree × List Token)
  | [] => .error (.unexpectedEnd c)
  | t :: ts =>
    if t.category = c then .ok (leafOf c t.word, ts)
    else .error (.unexpectedToken c t.category t.word)

/-- Reads an adjective if one comes next. -/
def adjective? (ts : List Token) : List Tree × List Token :=
  match word .adjective ts with
  | .ok (adjective, rest) => ([adjective], rest)
  | .error _ => ([], ts)

/-! ## Phrases -/

/-- Reads the parts of a noun phrase: a determiner and a noun, with at most one adjective between
them or behind them. -/
def nounPhraseParts (ts : List Token) : Except Fault (List Tree × List Token) :=
  match word .article ts with
  | .error fault => .error fault
  | .ok (determiner, ts) =>
    match word .adjective ts with
    | .ok (adjective, ts) =>
      match word .noun ts with
      | .error fault => .error fault
      | .ok (noun, rest) => .ok ([determiner, adjective, noun], rest)
    | .error _ =>
      match word .noun ts with
      | .error fault => .error fault
      | .ok (noun, ts) =>
        let (adjectives, rest) := adjective? ts
        .ok (determiner :: noun :: adjectives, rest)

def nounPhrase (ts : List Token) : Except Fault (Tree × List Token) :=
  match nounPhraseParts ts with
  | .error fault => .error (.nounPhrase fault)
  | .ok (parts, rest) => .ok (Tree.branch .nounPhrase parts, rest)

/-- Reads what follows a verb in its phrase: an object, an adjective or nothing. -/
def complement (ts : List Token) : List Tree × List Token :=
  match nounPhrase ts with
  | .ok (object, rest) => ([object], rest)
  | .error _ => adjective? ts

def verbPhrase (ts : List Token) : Except Fault (Tree × List Token) :=
  match word .verb ts with
  | .error fault => .error fault
  | .ok (verb, ts) =>
    let (parts, rest) := complement ts
    .ok (Tree.branch .verbPhrase (verb :: parts), rest)

/-! ## Sentences -/

def prepositional (ts : List Token) : Except Fault (List Tree × List Token) :=
  match word .preposition ts with
  | .error fault => .error fault
  | .ok (preposition, ts) =>
    match nounPhrase ts with
    | .error fault => .error fault
    | .ok (object, rest) => .ok ([preposition, object], rest)

/-- Reads what follows subject and predicate: a prepositional phrase, an adjective or nothing. -/
def tail (ts : List Token) : List Tree × List Token :=
  match prepositional ts with
  | .ok (parts, rest) => (parts, rest)
  | .error _ => adjective? ts

/-- Reads a sentence with one subject. -/
def simpleSentence (ts : List Token) : Except Fault (Tree × List Token) :=
  match nounPhrase ts with
  | .error fault => .error fault
  | .ok (subject, ts) =>
    match verbPhrase ts with
    | .error fault => .error fault
    | .ok (predicate, ts) =>
      let (parts, rest) := tail ts
      .ok (Tree.branch .sentence (subject :: predicate :: parts), rest)

/-- Reads a sentence with two subjects, which a conjunction joins. -/
def coordinatedSentence (ts : List Token) : Except Fault (Tree × List Token) :=
  match nounPhrase ts with
  | .error fault => .error fault
  | .ok (first, ts) =>
    match word .conjunction ts with
    | .error fault => .error fault
    | .ok (conjunction, ts) =>
      match nounPhrase ts with
      | .error fault => .error fault
      | .ok (second, ts) =>
        match verbPhrase ts with
        | .error fault => .error fault
        | .ok (predicate, rest) =>
          .ok (Tree.branch .sentence [first, conjunction, second, predicate], rest)

/-- Reads a sentence: one with a single subject if possible, else one with two. -/
def sentence (ts : List Token) : Except Fault (Tree × List Token) :=
  match simpleSentence ts with
  | .ok result => .ok result
  | .error first =>
    match coordinatedSentence ts with
    | .ok result => .ok result
    | .error second => .error (.noProduction first second)

/-- What is found out about the structure of a sequence of words. -/
structure Result where
  valid : Bool
  tree? : Option Tree
  faults : List Fault

namespace Result

def accepted (tree : Tree) : Result := ⟨true, some tree, []⟩

def refused (fault : Fault) : Result := ⟨false, none, [fault]⟩

def messages (r : Result) : List String := r.faults.map Fault.message

end Result
end Parse

/-- Parses classified words as one sentence, which must take in all of them. -/
def parse (ts : List Token) : Parse.Result :=
  match Parse.sentence ts with
  | .error fault => .refused fault
  | .ok (tree, []) => .accepted tree
  | .ok (_, rest) => .refused (.unconsumed (rest.map Token.word))

end Castellano
