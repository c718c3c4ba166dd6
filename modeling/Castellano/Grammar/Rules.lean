import Castellano.Grammar.Symbol

/-!
# Castellano.Grammar.Rules

The context-free grammar of sentences, as a table of alternatives for each nonterminal. The order
of the alternatives breaks ties: of two derivations the one whose alternative comes first counts.
-/

namespace Castellano
namespace Grammar

open NonTerminal in
/-- The alternatives whose symbols are nonterminals. -/
def phrases : NonTerminal → List (List NonTerminal)
  | sentence =>
    [[nounPhrase, verbPhrase],
      [nounPhrase, verbPhrase, preposition, nounPhrase],
      [nounPhrase, conjunction, nounPhrase, verbPhrase],
      [nounPhrase, verbPhrase, adjective]]
  | nounPhrase =>
    [[determiner, noun], [determiner, noun, adjective], [determiner, adjective, noun]]
  | verbPhrase => [[verb], [verb, nounPhrase], [verb, adjective]]
  | determiner | noun | verb | adjective | preposition | conjunction => []

/-- The symbol that every sentence is derived from. -/
def start : NonTerminal := .sentence

/-- The alternatives of a nonterminal. A preterminal has one: the category it stands for. -/
def alternatives (n : NonTerminal) : List (List Symbol) :=
  match n.category? with
  | some c => [[.terminal c]]
  | none => (phrases n).map fun symbols => symbols.map Symbol.nonterminal

/-- The symbols are one of the alternatives of the nonterminal. -/
def derives (n : NonTerminal) (symbols : List Symbol) : Bool :=
  decide (symbols ∈ alternatives n)

def terminals : List Category :=
  Category.all.filter fun c => NonTerminal.all.any fun n =>
    (alternatives n).any fun symbols => decide (Symbol.terminal c ∈ symbols)

/-! ## Display and statistics -/

def ruleText (n : NonTerminal) : String :=
  let sides := (alternatives n).map fun symbols => " ".intercalate (symbols.map Symbol.text)
  n.label ++ " -> " ++ " | ".intercalate sides ++ "\n"

def text : String := String.join (NonTerminal.all.map ruleText)

structure Stats where
  ruleCount : Nat
  alternativeCount : Nat
  terminalCount : Nat
  nonterminalCount : Nat

/-- Counts the rules, of which every nonterminal has one, and their parts. -/
def stats : Stats :=
  { ruleCount := NonTerminal.all.length
    alternativeCount := (NonTerminal.all.flatMap alternatives).length
    terminalCount := terminals.length
    nonterminalCount := NonTerminal.all.length }

end Grammar
end Castellano
