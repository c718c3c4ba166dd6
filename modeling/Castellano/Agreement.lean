import Castellano.Grammar.Tree
import Castellano.Vocabulary.Basic

/-!
# Castellano.Agreement

Agreement in gender between a determiner and its noun. A neutral determiner goes with any noun;
another one goes with the nouns of its own gender. Words that the vocabulary does not have as
articles, or as nouns, are neutral.
-/

namespace Castellano

/-- Nouns of the second gender can follow determiners of the first. -/
def Gender.admits (determiner noun : Gender) : Bool :=
  decide (determiner = .neutral) || decide (determiner = noun)

theorem Gender.admits_iff (determiner noun : Gender) :
    determiner.admits noun = true ↔ determiner = .neutral ∨ noun = determiner := by
  rw [admits, Bool.or_eq_true, decide_eq_true_eq, decide_eq_true_eq, @eq_comm _ determiner noun]

namespace Vocabulary

def determinerGender (v : Vocabulary) (word : String) : Gender :=
  match v.classOf? word with
  | some (.article g) => g
  | _ => .neutral

def nounGender (v : Vocabulary) (word : String) : Gender :=
  match v.classOf? word with
  | some (.noun g) => g
  | _ => .neutral

def agrees (v : Vocabulary) (determiner noun : String) : Bool :=
  (v.determinerGender determiner).admits (v.nounGender noun)

/-- The word is classified as a noun, of a gender that the determiner can have. -/
def admitsNoun (v : Vocabulary) (determiner : Gender) (word : String) : Bool :=
  match v.classOf? word with
  | some (.noun g) => determiner.admits g
  | _ => false

/-- The nouns that agree with a determiner, in the order of the vocabulary and each once. -/
def compatibleNouns (v : Vocabulary) (determiner : String) : List String :=
  ((v.wordsOf .noun).filter (v.admitsNoun (v.determinerGender determiner))).eraseDups

end Vocabulary

/-! ## Agreement in trees -/

/-- A determiner and a noun that do not agree, with their genders. -/
structure Mismatch where
  determiner : String
  noun : String
  determinerGender : Gender
  nounGender : Gender
  deriving DecidableEq

def Mismatch.message (m : Mismatch) : String :=
  s!"concordancia incorrecta: \"{m.determiner}\" ({m.determinerGender.text}) no concuerda con " ++
    s!"\"{m.noun}\" ({m.nounGender.text})"

namespace Vocabulary

/-- The mismatch of a determiner and a noun, if they do not agree. -/
def mismatch? (v : Vocabulary) (determiner noun : String) : Option Mismatch :=
  if v.agrees determiner noun then none
  else some ⟨normalize determiner, normalize noun, v.determinerGender determiner,
    v.nounGender noun⟩

/-- The mismatch in a noun phrase, of its first determiner and its first noun. Nodes of other
symbols, and those where one of the two has no word, have none. -/
def nodeMismatch? (v : Vocabulary) (t : Tree) : Option Mismatch :=
  if t.symbol = .nounPhrase then
    match (t.child? .determiner).bind Tree.value, (t.child? .noun).bind Tree.value with
    | some determiner, some noun => v.mismatch? determiner noun
    | _, _ => none
  else none

mutual

/-- The mismatches in a tree, from the root down and from left to right. -/
def mismatches (v : Vocabulary) : Tree → List Mismatch
  | .node s value ts => (v.nodeMismatch? (.node s value ts)).toList ++ v.mismatchesAll ts

def mismatchesAll (v : Vocabulary) : List Tree → List Mismatch
  | [] => []
  | t :: ts => v.mismatches t ++ v.mismatchesAll ts

end

end Vocabulary
end Castellano
