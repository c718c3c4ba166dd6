import Castellano.Agreement
import Castellano.Proofs.Vocabulary.Index

/-!
# Castellano.Proofs.Agreement.Compatible

The list of the nouns that a determiner can have, against the question whether the two agree. The
list is made from the listed nouns, and the question is answered by the index; since the class that
the index has for a word is one that lists it (`mem_wordsOf_build`), a noun agrees exactly if it is
in the list (`agrees_iff_compatible`). A word that is listed as a noun but classified otherwise, or
under another gender, is left out of the list, and so the two still agree.
-/

namespace Castellano

/-! ## Genders -/

namespace Vocabulary

theorem determinerGender_normalize (v : Vocabulary) (word : String) :
    v.determinerGender (normalize word) = v.determinerGender word := by
  rw [determinerGender, determinerGender, classOf?_normalize]

theorem nounGender_normalize (v : Vocabulary) (word : String) :
    v.nounGender (normalize word) = v.nounGender word := by
  rw [nounGender, nounGender, classOf?_normalize]

theorem agrees_normalize (v : Vocabulary) (determiner noun : String) :
    v.agrees (normalize determiner) (normalize noun) = v.agrees determiner noun := by
  rw [agrees, agrees, determinerGender_normalize, nounGender_normalize]

theorem admitsNoun_iff (v : Vocabulary) (determiner : Gender) (word : String) :
    v.admitsNoun determiner word = true ↔
      ∃ g, v.classOf? word = some (.noun g) ∧ (determiner = .neutral ∨ g = determiner) := by
  rw [admitsNoun]
  split
  · rename_i g hg
    simp [hg, Gender.admits_iff]
  · rename_i hno
    refine iff_of_false Bool.false_ne_true ?_
    rintro ⟨g, hg, -⟩
    exact hno g hg

/-- A noun has a gender of its own if it is classified as a noun of that gender. -/
theorem nounGender_eq_iff (v : Vocabulary) {g : Gender} (hg : g ≠ .neutral) (word : String) :
    v.nounGender word = g ↔ v.classOf? word = some (.noun g) := by
  rw [nounGender]
  split
  · rename_i g' hg'
    rw [hg', Option.some.injEq, WordClass.noun.injEq]
  · rename_i hno
    exact iff_of_false (Ne.symm hg) (hno g)

/-! ## The list -/

theorem mem_compatibleNouns_iff (v : Vocabulary) (determiner word : String) :
    word ∈ v.compatibleNouns determiner ↔
      word ∈ v.wordsOf .noun ∧ ∃ g, v.classOf? word = some (.noun g) ∧
        (v.determinerGender determiner = .neutral ∨ g = v.determinerGender determiner) := by
  rw [compatibleNouns, List.mem_eraseDups, List.mem_filter, admitsNoun_iff]

theorem mem_wordsOf_build (d : Draft) {word : String} {k : WordClass}
    (h : d.build.classOf? word = some k) : normalize word ∈ d.build.wordsOf k.category := by
  rw [classOf?_build, firstClass?, Option.map_eq_some_iff] at h
  obtain ⟨e, he, rfl⟩ := h
  have hin : e ∈ d.build.entries := List.mem_of_find?_eq_some he
  have hword : e.2 = normalize word := by simpa using List.find?_some he
  rw [← hword]
  exact List.mem_map_of_mem (List.mem_filter.mpr ⟨hin, decide_eq_true rfl⟩)

theorem normalize_mem_compatibleNouns_iff (d : Draft) (determiner noun : String) :
    normalize noun ∈ d.build.compatibleNouns determiner ↔
      ∃ g, d.build.classOf? noun = some (.noun g) ∧
        (d.build.determinerGender determiner = .neutral ∨
          g = d.build.determinerGender determiner) := by
  rw [mem_compatibleNouns_iff, classOf?_normalize]
  refine and_iff_right_of_imp ?_
  rintro ⟨g, hg, -⟩
  exact mem_wordsOf_build d hg

end Vocabulary

/-- A determiner and a noun agree exactly if the determiner is neutral or the noun is among those
that the determiner can have; for words that are classified as nouns the latter is enough. The list
holds the listed nouns that are classified as nouns of the gender of the determiner, or of any if
it is neutral, once each and in the order in which they are listed first. -/
theorem agrees_iff_compatible (d : Draft) (determiner noun : String) :
    let v := d.build
    let gender := v.determinerGender determiner
    let nouns := v.compatibleNouns determiner
    (v.agrees determiner noun = true ↔ gender = .neutral ∨ normalize noun ∈ nouns) ∧
    (v.categoryOf? noun = some .noun →
      (v.agrees determiner noun = true ↔ normalize noun ∈ nouns)) ∧
    nouns.Nodup ∧
    (∀ word, word ∈ nouns ↔ word ∈ v.wordsOf .noun ∧
      ∃ g, v.classOf? word = some (.noun g) ∧ (gender = .neutral ∨ g = gender)) ∧
    nouns.Pairwise fun w x => (v.wordsOf .noun).idxOf w < (v.wordsOf .noun).idxOf x := by
  intro v gender nouns
  have hmem : normalize noun ∈ nouns ↔
      ∃ g, v.classOf? noun = some (.noun g) ∧ (gender = .neutral ∨ g = gender) :=
    Vocabulary.normalize_mem_compatibleNouns_iff d determiner noun
  have hagrees : v.agrees determiner noun = true ↔ gender = .neutral ∨ v.nounGender noun = gender :=
    Gender.admits_iff _ _
  have horder : nouns.Pairwise fun w x =>
      (v.wordsOf .noun).idxOf w < (v.wordsOf .noun).idxOf x :=
    List.pairwise_idxOf_eraseDups _ _
  have hiff : v.agrees determiner noun = true ↔ gender = .neutral ∨ normalize noun ∈ nouns := by
    rw [hagrees, hmem]
    by_cases hg : gender = .neutral
    · simp [hg]
    · simp [hg, v.nounGender_eq_iff hg]
  refine ⟨hiff, fun hnoun => ?_, ?_, v.mem_compatibleNouns_iff determiner, horder⟩
  · rw [hiff, or_iff_right_of_imp]
    intro hneutral
    -- every noun goes with a neutral determiner, whatever its gender
    obtain ⟨k, hk, hcategory⟩ := Option.map_eq_some_iff.mp hnoun
    obtain ⟨g, rfl⟩ : ∃ g, k = .noun g := by
      cases k with
      | noun g => exact ⟨g, rfl⟩
      | _ => cases hcategory
    exact hmem.mpr ⟨g, hk, .inl hneutral⟩
  · refine horder.imp fun {w x} hlt heq => ?_
    rw [heq] at hlt
    exact Nat.lt_irrefl _ hlt

end Castellano
