import Castellano.Proofs.Automaton.Endings
import Castellano.Proofs.ForStd

/-!
# Castellano.Proofs.Automaton.Words

What an automaton knows once words have been inserted into it: the texts that lead somewhere are
the beginnings of the words, and the words, as far as they have characters, are what ends at their
own texts (`Knows`). Inserting a word preserves this for the words so far and the new one
(`Knows.insert`), so it holds of the automaton of any sequence of words (`knows_ofWords`), in
whatever order they come and however often.
-/

namespace Castellano
namespace Automaton

/-- What there is to say of a text among words that are classified by a vocabulary. -/
def endingAmong (v : Vocabulary) (ws : List String) (cs : List Char) : Ending :=
  if cs ≠ [] ∧ String.ofList cs ∈ ws then
    .ofWord (String.ofList cs) (v.categoryOf? (String.ofList cs))
  else .nothing

theorem endingAmong_nil (v : Vocabulary) (cs : List Char) : endingAmong v [] cs = .nothing :=
  if_neg fun h => List.not_mem_nil h.2

theorem endingAmong_snoc {v : Vocabulary} {ws : List String} {w : String} {cs : List Char}
    (h : cs = w.toList → cs = []) : endingAmong v (ws ++ [w]) cs = endingAmong v ws cs := by
  have hiff : cs ≠ [] ∧ String.ofList cs ∈ ws ++ [w] ↔ cs ≠ [] ∧ String.ofList cs ∈ ws := by
    refine and_congr_right fun hne => ?_
    rw [List.mem_append, List.mem_singleton, or_iff_left]
    rintro rfl
    exact hne (h (by rw [String.toList_ofList]))
  simp only [endingAmong, hiff]

theorem endingAmong_toList (v : Vocabulary) (ws : List String) (w : String) :
    endingAmong v ws w.toList =
      if w ≠ "" ∧ w ∈ ws then .ofWord w (v.categoryOf? w) else .nothing := by
  simp only [endingAmong, String.ofList_toList, ne_eq, String.toList_eq_nil_iff]

/-- The automaton has just the given words, which are in normal form, and classifies them by the
given vocabulary. -/
structure Knows (a : Automaton) (v : Vocabulary) (ws : List String) : Prop where
  vocabulary_eq : a.vocabulary = v
  shaped : a.table.Shaped
  isSome_ending?_iff : ∀ cs,
    (a.table.ending? cs).isSome = true ↔ cs = [] ∨ ∃ w ∈ ws, cs <+: w.toList
  getD_ending? : ∀ cs, (a.table.ending? cs).getD .nothing = endingAmong v ws cs

theorem knows_empty (v : Vocabulary) : (empty v).Knows v [] := by
  refine ⟨rfl, Table.shaped_initial, fun cs => ?_, fun cs => ?_⟩
  · rw [empty, Table.ending?_initial]
    by_cases h : cs = [] <;> simp [h]
  · rw [empty, Table.ending?_initial, endingAmong_nil]
    split <;> rfl

/-- The texts that lead somewhere are the beginnings of the words. -/
theorem Knows.leads_iff {a : Automaton} {v : Vocabulary} {ws : List String} (ha : a.Knows v ws)
    (cs : List Char) :
    (∃ q, a.table.Leads cs q) ↔ cs = [] ∨ ∃ w ∈ ws, cs <+: w.toList := by
  rw [← ha.isSome_ending?_iff]
  constructor
  · rintro ⟨q, hq⟩
    exact ha.shaped.isSome_ending? hq
  · intro hsome
    by_contra hno
    rw [Table.ending?_of_not_leads hno] at hsome
    cases hsome

/-! ## Insertion -/

theorem Knows.count {a : Automaton} {v : Vocabulary} {ws : List String} (ha : a.Knows v ws) :
    Knows { a with wordCount := a.wordCount + 1 } v ws :=
  ⟨ha.vocabulary_eq, ha.shaped, ha.isSome_ending?_iff, ha.getD_ending?⟩

/-- A word without characters is no new word. -/
theorem Knows.snoc_empty {a : Automaton} {v : Vocabulary} {ws : List String} (ha : a.Knows v ws) :
    a.Knows v (ws ++ [""]) := by
  refine ⟨ha.vocabulary_eq, ha.shaped, fun cs => ?_, fun cs => ?_⟩
  · rw [ha.isSome_ending?_iff, List.exists_mem_append_singleton]
    refine ⟨Or.imp_right Or.inl, ?_⟩
    rintro (h | h | h)
    · exact .inl h
    · exact .inr h
    · exact .inl (List.prefix_nil.mp h)
  · rw [endingAmong_snoc (fun h => h.trans (String.toList_eq_nil_iff.mpr rfl))]
    exact ha.getD_ending? cs

theorem Spelled.knows_mark {a b : Automaton} {v : Vocabulary} {ws : List String} {w : String}
    {q : Nat} (ha : a.Knows v ws) (hb : a.Spelled w.toList (b, q)) (hw : w ≠ "") :
    (b.mark q w).Knows v (ws ++ [w]) := by
  have hvocabulary : b.vocabulary = v := hb.vocabulary_eq.trans ha.vocabulary_eq
  have hmark : ∀ cs, (b.mark q w).table.ending? cs =
      if cs = w.toList then some (.ofWord w (v.categoryOf? w))
      else (a.table.ending? cs).or (if cs <+: w.toList then some .nothing else none) := by
    intro cs
    rw [mark, Table.ending?_mark hb.shaped hb.leads, hb.ending?_eq, hvocabulary]
  refine ⟨hvocabulary, hb.shaped.mark q w _, fun cs => ?_, fun cs => ?_⟩
  · rw [hmark]
    by_cases hcs : cs = w.toList
    · simp [hcs]
    · rw [if_neg hcs, Option.isSome_or, Bool.or_eq_true, ha.isSome_ending?_iff,
        List.exists_mem_append_singleton, or_assoc]
      simp
  · rw [hmark]
    by_cases hcs : cs = w.toList
    · rw [if_pos hcs, hcs, endingAmong_toList, if_pos ⟨hw, by simp⟩, Option.getD_some]
    · rw [if_neg hcs, endingAmong_snoc (fun h => absurd h hcs), ← ha.getD_ending?]
      cases a.table.ending? cs with
      | none => rw [Option.none_or]; split <;> rfl
      | some e => rfl

theorem Knows.insert {a : Automaton} {v : Vocabulary} {ws : List String} (ha : a.Knows v ws)
    (word : String) : (a.insert word).Knows v (ws ++ [normalize word]) := by
  simp only [Automaton.insert]
  generalize normalize word = w
  split
  · rename_i hw
    rw [hw]
    exact ha.count.snoc_empty
  · rename_i hw
    have hspelled := spelled_spell ha.count.shaped (Table.leads_nil_iff.mpr rfl) w.toList
    exact hspelled.knows_mark ha.count hw

theorem Knows.foldl_insert {a : Automaton} {v : Vocabulary} {ws : List String}
    (ha : a.Knows v ws) (words : List String) :
    (words.foldl Automaton.insert a).Knows v (ws ++ words.map normalize) := by
  induction words generalizing a ws with
  | nil => rw [List.map_nil, List.append_nil]; exact ha
  | cons word words ih =>
    rw [List.foldl_cons, List.map_cons, List.append_cons]
    exact ih (ha.insert word)

theorem knows_ofWords (v : Vocabulary) (words : List String) :
    (ofWords v words).Knows v (words.map normalize) :=
  (knows_empty v).foldl_insert words

/-! ## Recognition -/

def Recognition.ending (r : Recognition) : Ending := ⟨r.accepted, r.word, r.category⟩

theorem Recognition.ending_eq_iff (r : Recognition) (e : Ending) :
    r.ending = e ↔ r.accepted = e.isFinal ∧ r.word = e.word ∧ r.category = e.category := by
  rw [Recognition.ending]
  cases e
  rw [Ending.mk.injEq]

theorem map_stateOf? (a : Automaton) (text : String) :
    (a.stateOf? text).map State.ending = a.table.ending? (normalize text).toList := by
  rw [stateOf?, walk, Table.ending?]
  cases (a.table.walk 0 (normalize text).toList).arrival <;> rfl

theorem ending_recognize (a : Automaton) (text : String) :
    (a.recognize text).ending = (a.table.ending? (normalize text).toList).getD .nothing := by
  rw [← map_stateOf?, recognize]
  cases a.stateOf? text <;> rfl

/-- A text is recognized as its normal form, if that is one of the words. -/
theorem Knows.ending_recognize {a : Automaton} {v : Vocabulary} {ws : List String}
    (ha : a.Knows v ws) (text : String) :
    (a.recognize text).ending =
      if normalize text ≠ "" ∧ normalize text ∈ ws then
        .ofWord (normalize text) (v.categoryOf? (normalize text))
      else .nothing := by
  rw [Automaton.ending_recognize, ha.getD_ending?, endingAmong_toList]

theorem Knows.recognize_of_mem {a : Automaton} {v : Vocabulary} {ws : List String}
    (ha : a.Knows v ws) {text : String} (h : normalize text ≠ "" ∧ normalize text ∈ ws) :
    (a.recognize text).accepted = true ∧ (a.recognize text).word = some (normalize text) ∧
      (a.recognize text).category = v.categoryOf? (normalize text) := by
  have hending := ha.ending_recognize text
  rwa [if_pos h, Recognition.ending_eq_iff] at hending

theorem Knows.recognize_of_not_mem {a : Automaton} {v : Vocabulary} {ws : List String}
    (ha : a.Knows v ws) {text : String} (h : ¬(normalize text ≠ "" ∧ normalize text ∈ ws)) :
    (a.recognize text).accepted = false ∧ (a.recognize text).word = none ∧
      (a.recognize text).category = none := by
  have hending := ha.ending_recognize text
  rwa [if_neg h, Recognition.ending_eq_iff] at hending

theorem valid_begins (a : Automaton) (text : String) :
    (a.begins text).valid = (a.table.ending? (normalize text).toList).isSome := by
  rw [← map_stateOf?, begins]
  cases a.stateOf? text <;> rfl

/-- A text begins one of the words if its normal form is the beginning of one. -/
theorem Knows.valid_begins_iff {a : Automaton} {v : Vocabulary} {ws : List String}
    (ha : a.Knows v ws) (text : String) :
    (a.begins text).valid = true ↔
      normalize text = "" ∨ ∃ w ∈ ws, (normalize text).toList <+: w.toList := by
  rw [valid_begins, ha.isSome_ending?_iff, String.toList_eq_nil_iff]

end Automaton
end Castellano
