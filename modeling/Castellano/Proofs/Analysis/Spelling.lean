import Castellano.Automaton.Basic
import Castellano.Proofs.Agreement.Compatible

/-!
# Castellano.Proofs.Analysis.Spelling

The normal form of a word answers for the word. Every question to a vocabulary, to its agreement or
to an automaton starts by normalizing, and since normalizing twice is normalizing once, it does not
matter whether the word that is asked about has been normalized before (`normalForm_answers`). So
words can be stored, compared and handed on in their normal form.
-/

namespace Castellano

namespace Vocabulary

theorem contains_normalize (v : Vocabulary) (word : String) :
    v.contains (normalize word) = v.contains word := by
  rw [contains, contains, classOf?_normalize]

theorem compatibleNouns_normalize (v : Vocabulary) (determiner : String) :
    v.compatibleNouns (normalize determiner) = v.compatibleNouns determiner := by
  rw [compatibleNouns, compatibleNouns, determinerGender_normalize]

end Vocabulary

namespace Automaton

theorem walk_normalize (a : Automaton) (text : String) :
    a.walk (normalize text) = a.walk text := by
  rw [walk, walk, normalize_normalize]

theorem stateOf?_normalize (a : Automaton) (text : String) :
    a.stateOf? (normalize text) = a.stateOf? text := by
  rw [stateOf?, stateOf?, walk_normalize]

theorem recognize_normalize (a : Automaton) (text : String) :
    a.recognize (normalize text) = a.recognize text := by
  rw [recognize, recognize, stateOf?_normalize, walk_normalize]

theorem begins_normalize (a : Automaton) (text : String) :
    a.begins (normalize text) = a.begins text := by
  rw [begins, begins, stateOf?_normalize, walk_normalize]

theorem completions_normalize (a : Automaton) (text : String) :
    a.completions (normalize text) = a.completions text := by
  rw [completions, completions, walk_normalize]

end Automaton

/-- A normal form is normal itself: no blanks at its ends, and only capitals without accents. The
words that are so are just those that normalizing leaves alone, and those that it leads to; and a
word without characters comes only of blanks. Whatever is asked about a word, the answer for its
normal form is the same. -/
theorem normalForm_answers (word : String) :
    (normalize (normalize word) = normalize word ∧ IsNormalForm (normalize word)) ∧
    (normalize word = "" ↔ Text.trim word.toList = []) ∧
    ((normalize word = word ↔ IsNormalForm word) ∧
      (normalize word = word ↔ ∃ w, normalize w = word)) ∧
    (∀ v : Vocabulary, v.classOf? (normalize word) = v.classOf? word ∧
      v.contains (normalize word) = v.contains word ∧
      v.compatibleNouns (normalize word) = v.compatibleNouns word ∧
      ∀ other, v.agrees (normalize word) other = v.agrees word other ∧
        v.agrees other (normalize word) = v.agrees other word) ∧
    ∀ a : Automaton, a.recognize (normalize word) = a.recognize word ∧
      a.begins (normalize word) = a.begins word ∧
      a.completions (normalize word) = a.completions word := by
  refine ⟨⟨normalize_normalize word, isNormalForm_normalize word⟩, normalize_eq_empty_iff word,
    ⟨(isNormalForm_iff word).symm, ?_⟩, ?_, ?_⟩
  · constructor
    · intro h
      exact ⟨word, h⟩
    · rintro ⟨w, rfl⟩
      exact normalize_normalize w
  · intro v
    refine ⟨v.classOf?_normalize word, v.contains_normalize word,
      v.compatibleNouns_normalize word, fun other => ⟨?_, ?_⟩⟩
    · simp only [Vocabulary.agrees, v.determinerGender_normalize]
    · simp only [Vocabulary.agrees, v.nounGender_normalize]
  · intro a
    exact ⟨a.recognize_normalize word, a.begins_normalize word, a.completions_normalize word⟩

end Castellano
