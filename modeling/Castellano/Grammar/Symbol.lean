import Castellano.Category

/-!
# Castellano.Grammar.Symbol

The symbols of the grammar of sentences. A preterminal is a nonterminal that stands for one
word; there is one for each category.
-/

namespace Castellano

inductive NonTerminal where
  | sentence
  | nounPhrase
  | verbPhrase
  | determiner
  | noun
  | verb
  | adjective
  | preposition
  | conjunction
  deriving DecidableEq

namespace NonTerminal

/-- The nonterminals in the order in which their rules are listed. -/
def all : List NonTerminal :=
  [sentence, nounPhrase, verbPhrase, determiner, noun, verb, adjective, preposition, conjunction]

/-- The label by which a nonterminal is shown in trees and rules. -/
def label : NonTerminal → String
  | sentence => "S"
  | nounPhrase => "NP"
  | verbPhrase => "VP"
  | determiner => "DET"
  | noun => "NOUN"
  | verb => "VERB"
  | adjective => "ADJ"
  | preposition => "PREP"
  | conjunction => "CONJ"

/-- The name under which a nonterminal is stored. -/
def key : NonTerminal → String
  | sentence => "Sentence"
  | nounPhrase => "NounPhrase"
  | verbPhrase => "VerbPhrase"
  | determiner => "Determiner"
  | noun => "Noun"
  | verb => "Verb"
  | adjective => "Adjective"
  | preposition => "Preposition"
  | conjunction => "Conjunction"

/-- The preterminal that stands for a word of the category. -/
def preterminal : Category → NonTerminal
  | .article => determiner
  | .noun => noun
  | .verb => verb
  | .adjective => adjective
  | .preposition => preposition
  | .conjunction => conjunction

/-- The category of the words that a preterminal stands for. -/
def category? : NonTerminal → Option Category
  | sentence | nounPhrase | verbPhrase => none
  | determiner => some .article
  | noun => some .noun
  | verb => some .verb
  | adjective => some .adjective
  | preposition => some .preposition
  | conjunction => some .conjunction

theorem category?_preterminal (c : Category) : category? (preterminal c) = some c := by
  cases c <;> rfl

end NonTerminal

/-- A symbol on the right of a rule; the terminals are the categories. -/
inductive Symbol where
  | nonterminal (n : NonTerminal)
  | terminal (c : Category)
  deriving DecidableEq

def Symbol.text : Symbol → String
  | nonterminal n => n.label
  | terminal c => c.text

end Castellano
