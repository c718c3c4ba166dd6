import Castellano.Text.Normal
import Castellano.WordClass

/-!
# Castellano.Vocabulary.Draft

A vocabulary under construction. Words arrive one by one, each with its class; a draft keeps
them in the order of their first contribution. A word counts once per class but may belong to
several classes, and a word without characters does not count at all.
-/

namespace Castellano

/-- The contributions to a vocabulary so far, in order and without repetition. -/
structure Draft where
  entries : List (WordClass × String)
  deriving DecidableEq

namespace Draft

def empty : Draft := ⟨[]⟩

/-- Enters a normal word under a class, unless it is there already or has no characters. -/
def enter (d : Draft) (k : WordClass) (word : String) : Draft :=
  if word = "" ∨ (k, word) ∈ d.entries then d else ⟨d.entries ++ [(k, word)]⟩

/-- Contributes a word. The gender counts only if the category has one. -/
def add (d : Draft) (c : Category) (g : Gender) (word : String) : Draft :=
  d.enter (WordClass.of c g) (normalize word)

def extend (d : Draft) (c : Category) (g : Gender) (words : List String) : Draft :=
  words.foldl (fun d word => d.add c g word) d

/-- The words of one class, in order of first contribution. -/
def list (d : Draft) (k : WordClass) : List String :=
  (d.entries.filter fun e => decide (e.1 = k)).map Prod.snd

end Draft
end Castellano
