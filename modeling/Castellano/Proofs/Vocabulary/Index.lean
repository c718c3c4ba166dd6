import Castellano.Proofs.ForStd
import Castellano.Proofs.Vocabulary.History
import Castellano.Vocabulary.Basic

/-!
# Castellano.Proofs.Vocabulary.Index

The index of a vocabulary against its lists. A word has the class of the first entry that lists
it (`classOf?_build`), so it is in the vocabulary exactly when its normal form is a listed word
(`contains_build_iff`).
-/

namespace Castellano

namespace Vocabulary

/-! ## First entries -/

/-- The class of the first entry that lists a word. -/
def firstClass? (entries : List (WordClass × String)) (word : String) : Option WordClass :=
  (entries.find? fun e => decide (e.2 = word)).map Prod.fst

theorem firstClass?_cons (e : WordClass × String) (entries : List (WordClass × String))
    (word : String) :
    firstClass? (e :: entries) word =
      if e.2 = word then some e.1 else firstClass? entries word := by
  rw [firstClass?, List.find?_cons]
  by_cases h : e.2 = word
  · simp [h]
  · simp [h, firstClass?]

theorem isSome_firstClass?_iff (entries : List (WordClass × String)) (word : String) :
    (firstClass? entries word).isSome = true ↔ word ∈ entries.map Prod.snd := by
  simp [firstClass?]

/-! ## Making the index -/

theorem lookup_indexEntry (index : List (String × WordClass)) (e : WordClass × String)
    (word : String) :
    (indexEntry index e).lookup word =
      (index.lookup word).or (if e.2 = word then some e.1 else none) := by
  rw [indexEntry]
  split
  · rename_i k hk
    by_cases h : e.2 = word
    · rw [← h, hk, Option.some_or]
    · rw [if_neg h, Option.or_none]
  · rw [List.lookup_append, List.lookup_cons, List.lookup_nil]
    by_cases h : e.2 = word
    · simp [h]
    · simp [h, beq_eq_false_iff_ne.mpr (Ne.symm h)]

theorem lookup_foldl_indexEntry (entries : List (WordClass × String))
    (index : List (String × WordClass)) (word : String) :
    (entries.foldl indexEntry index).lookup word =
      (index.lookup word).or (firstClass? entries word) := by
  induction entries generalizing index with
  | nil => rw [List.foldl_nil, firstClass?, List.find?_nil, Option.map_none, Option.or_none]
  | cons e entries ih =>
    rw [List.foldl_cons, ih, lookup_indexEntry, Option.or_assoc, firstClass?_cons]
    split <;> rfl

/-- The index holds each word once. -/
theorem map_fst_foldl_indexEntry (entries : List (WordClass × String)) :
    (entries.foldl indexEntry []).map Prod.fst = (entries.map Prod.snd).eraseDups := by
  induction entries using List.reverseRecOn with
  | nil => rfl
  | append_singleton entries e ih =>
    rw [List.foldl_append, List.foldl_cons, List.foldl_nil, List.map_append, List.map_singleton,
      List.eraseDups_append_singleton, ← ih, indexEntry]
    have hlookup := lookup_foldl_indexEntry entries [] e.2
    rw [List.lookup_nil, Option.none_or] at hlookup
    have hmem := isSome_firstClass?_iff entries e.2
    rw [hlookup]
    cases hclass : firstClass? entries e.2 with
    | some k =>
      rw [hclass] at hmem
      rw [if_pos (hmem.mp rfl), List.append_nil]
    | none =>
      rw [hclass] at hmem
      have hnew : e.2 ∉ entries.map Prod.snd := mt hmem.mpr Bool.false_ne_true
      rw [if_neg hnew, List.map_append, List.map_singleton]

/-! ## Questions -/

theorem classOf?_build (d : Draft) (word : String) :
    d.build.classOf? word = firstClass? d.build.entries (normalize word) := by
  rw [classOf?, Draft.build, lookup_foldl_indexEntry, List.lookup_nil, Option.none_or]

theorem contains_build_iff (d : Draft) (word : String) :
    d.build.contains word = true ↔ normalize word ∈ d.build.words := by
  rw [contains, classOf?_build, isSome_firstClass?_iff, words]

theorem classOf?_normalize (v : Vocabulary) (word : String) :
    v.classOf? (normalize word) = v.classOf? word := by
  rw [classOf?, normalize_normalize, classOf?]

theorem categoryOf?_normalize (v : Vocabulary) (word : String) :
    v.categoryOf? (normalize word) = v.categoryOf? word := by
  rw [categoryOf?, classOf?_normalize, categoryOf?]

theorem isSome_categoryOf? (v : Vocabulary) (word : String) :
    (v.categoryOf? word).isSome = v.contains word := by
  rw [categoryOf?, Option.isSome_map, contains]

/-! ## Listed words -/

theorem mem_list_iff (d : Draft) (k : WordClass) (word : String) :
    word ∈ d.list k ↔ (k, word) ∈ d.entries := by
  simp [Draft.list]

theorem mem_byPrecedence_iff (d : Draft) (e : WordClass × String) :
    e ∈ d.byPrecedence ↔ e ∈ d.entries := by
  obtain ⟨k, word⟩ := e
  rw [Draft.byPrecedence, List.mem_flatMap]
  constructor
  · rintro ⟨j, -, hj⟩
    obtain ⟨w, hw, heq⟩ := List.mem_map.mp hj
    rw [← heq]
    exact (mem_list_iff d j w).mp hw
  · intro he
    exact ⟨k, WordClass.mem_all k, List.mem_map.mpr ⟨word, (mem_list_iff d k word).mpr he, rfl⟩⟩

theorem mem_words_build_iff (d : Draft) (word : String) :
    word ∈ d.build.words ↔ ∃ k, (k, word) ∈ d.entries := by
  simp [words, Draft.build, mem_byPrecedence_iff]

end Vocabulary

/-- The words of a vocabulary come out of contributions in normal form and with characters. -/
theorem Draft.Reachable.normalize_of_mem {d : Draft} (h : d.Reachable) {word : String}
    (hw : word ∈ d.build.words) : normalize word = word ∧ word ≠ "" := by
  obtain ⟨k, hk⟩ := (Vocabulary.mem_words_build_iff d word).mp hw
  exact ⟨h.canonical.normal (k, word) hk, h.canonical.nonempty (k, word) hk⟩

theorem Draft.Reachable.map_normalize_words {d : Draft} (hd : d.Reachable) :
    d.build.words.map normalize = d.build.words := by
  have hid : ∀ w ∈ d.build.words, normalize w = id w := fun w hw => (hd.normalize_of_mem hw).1
  rw [List.map_congr_left hid, List.map_id]

theorem Draft.Reachable.contains_iff {d : Draft} (hd : d.Reachable) (word : String) :
    d.build.contains word = true ↔ normalize word ≠ "" ∧ normalize word ∈ d.build.words := by
  rw [Vocabulary.contains_build_iff]
  exact ⟨fun hw => ⟨(hd.normalize_of_mem hw).2, hw⟩, And.right⟩

end Castellano
