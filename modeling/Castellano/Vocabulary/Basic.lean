import Castellano.Vocabulary.Draft

/-!
# Castellano.Vocabulary.Basic

A vocabulary: word lists by class, and an index that classifies words.

The lists are kept in order of precedence, so the class of a word is the first one that lists
it. The index holds every word once, with that class; it is made when the vocabulary is built.
-/

namespace Castellano

structure Vocabulary where
  /-- The listed words with their classes, in order of precedence. -/
  entries : List (WordClass × String)
  /-- Each word with the class that it has. -/
  index : List (String × WordClass)

/-- Enters a listed word into an index, unless the word has a class already. -/
def Vocabulary.indexEntry (index : List (String × WordClass)) (e : WordClass × String) :
    List (String × WordClass) :=
  match index.lookup e.2 with
  | some _ => index
  | none => index ++ [(e.2, e.1)]

namespace Draft

def byPrecedence (d : Draft) : List (WordClass × String) :=
  WordClass.all.flatMap fun k => (d.list k).map fun word => (k, word)

def build (d : Draft) : Vocabulary :=
  { entries := d.byPrecedence, index := d.byPrecedence.foldl Vocabulary.indexEntry [] }

end Draft

namespace Vocabulary

/-- The class of a word, if the vocabulary has the word. -/
def classOf? (v : Vocabulary) (word : String) : Option WordClass := v.index.lookup (normalize word)

/-- The category of a word. -/
def categoryOf? (v : Vocabulary) (word : String) : Option Category :=
  (v.classOf? word).map WordClass.category

def contains (v : Vocabulary) (word : String) : Bool := (v.classOf? word).isSome

/-- All listed words in order of precedence; a word of two classes is there twice. -/
def words (v : Vocabulary) : List String := v.entries.map Prod.snd

/-- The words of a category, whatever their gender. -/
def wordsOf (v : Vocabulary) (c : Category) : List String :=
  (v.entries.filter fun e => decide (e.1.category = c)).map Prod.snd

def list (v : Vocabulary) (k : WordClass) : List String :=
  (v.entries.filter fun e => decide (e.1 = k)).map Prod.snd

/-- The number of distinct words. -/
def size (v : Vocabulary) : Nat := v.index.length

end Vocabulary
end Castellano
