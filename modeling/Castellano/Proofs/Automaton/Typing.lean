import Castellano.Proofs.Automaton.Continuations

/-!
# Castellano.Proofs.Automaton.Typing

Typing a word of a vocabulary from left to right. What has been typed is brought into normal form
before it is looked up, and of a word in normal form this takes away nothing but blanks at the end
(`toList_normalize_take`). So at each moment what is read is a beginning of the word, and the
answers are those that the word calls for (`begins_take_of_mem`).

A word may have blanks inside, such as `POR FAVOR`. Just after one of them has been typed the text
is read without it, and the answers are those from before the blank.
-/

namespace Castellano

/-- A beginning of a word in normal form is read without the blanks at its end. -/
theorem toList_normalize_take {w : String} (hw : normalize w = w) (k : Nat) :
    (normalize (String.ofList (w.toList.take k))).toList = Text.trimRight (w.toList.take k) := by
  have hchars : Text.normalChars w.toList = w.toList := by rw [← toList_normalize, hw]
  rw [toList_normalize, String.toList_ofList, Text.normalChars_take hchars]

namespace Automaton

/-- On the way to a word, the next character of the word may come next. -/
theorem Knows.next_mem_continuations {a : Automaton} {v : Vocabulary} {ws : List String}
    (ha : a.Knows v ws) (hs : a.table.Sorted) {w text : String} (hw : w ∈ ws)
    (hbegins : (normalize text).toList <+: w.toList) {c : Char}
    (hc : w.toList[(normalize text).toList.length]? = some c) :
    c ∈ (a.begins text).continuations := by
  have hsnoc : (normalize text).toList ++ [c] =
      w.toList.take ((normalize text).toList.length + 1) := by
    rw [List.take_add_one, ← List.prefix_iff_eq_take.mp hbegins, hc]
    rfl
  refine (ha.mem_continuations_iff hs text c).mpr ⟨w, hw, ?_⟩
  rw [hsnoc]
  exact List.take_prefix _ _

end Automaton

open Automaton

/-- Whatever has been typed of a word of the vocabulary begins a word, and the word is among the
completions. The walk gets past what has been typed up to the blanks at its end, and the next
character of the word after those may come next; so, unless the last character typed is a blank,
the walk gets past every character and the next one of the word may come next. When all of the word
has been typed it is a word. -/
theorem begins_take_of_mem {d : Draft} (hd : d.Reachable) {w : String} (hw : w ∈ d.build.words)
    {k : Nat} (hk : k ≤ w.length) :
    let a := Automaton.ofVocabulary d.build
    let typed := w.toList.take k
    let read := Text.trimRight typed
    let r := a.begins (String.ofList typed)
    r.valid = true ∧
    r.path.length = read.length ∧
    (∀ c, w.toList[read.length]? = some c → c ∈ r.continuations) ∧
    ((∀ c ∈ typed.getLast?, Text.isBlank c = false) →
      r.path.length = k ∧ ∀ c, w.toList[k]? = some c → c ∈ r.continuations) ∧
    (k = w.length → r.isWord = true) ∧
    w ∈ a.completions (String.ofList typed) := by
  intro a typed read r
  obtain ⟨hnormal, hne⟩ := hd.normalize_of_mem hw
  have hknows : a.Knows d.build d.build.words := hd.knows_ofVocabulary
  have hsorted : a.table.Sorted := (built_ofWords d.build d.build.words).sorted
  have hread : (normalize (String.ofList typed)).toList = read := toList_normalize_take hnormal k
  have hbegins : (normalize (String.ofList typed)).toList <+: w.toList := by
    rw [hread]
    exact (Text.trimRight_prefix_self typed).trans (List.take_prefix k w.toList)
  have hvalid : r.valid = true := (hknows.valid_begins_iff _).mpr (.inr ⟨w, hw, hbegins⟩)
  have hpath : r.path.length = read.length := by
    rw [(hknows.length_path_begins_eq_iff _).mpr hvalid, ← String.length_toList, hread]
  have hnext : ∀ c, w.toList[read.length]? = some c → c ∈ r.continuations := by
    intro c hc
    rw [← hread] at hc
    exact hknows.next_mem_continuations hsorted hw hbegins hc
  refine ⟨hvalid, hpath, hnext, fun hlast => ?_, fun hall => ?_, ?_⟩
  · have hlength : read.length = k := by
      have hsame : read = typed := Text.trimRight_eq_self hlast
      rw [hsame]
      exact List.length_take_of_le (by rwa [String.length_toList])
    rw [← hlength]
    exact ⟨hpath, hnext⟩
  · have htyped : String.ofList typed = w := by
      have htake : typed = w.toList := by
        simp only [typed, hall, ← String.length_toList, List.take_length]
      rw [htake, String.ofList_toList]
    refine (hknows.isWord_begins_iff _).mpr ?_
    rw [htyped, hnormal]
    exact ⟨hne, hw⟩
  · exact (hknows.mem_completions_iff hsorted _ w).mpr ⟨hne, hw, hbegins⟩

/-- `POR FAVOR`, typed up to and with the blank. -/
theorem begins_take_por_favor :
    let d := (Draft.empty.load "por favor|conj").1
    let r := (Automaton.ofVocabulary d.build).begins "POR "
    d.Reachable ∧ "POR FAVOR" ∈ d.build.words ∧ 4 ≤ "POR FAVOR".length ∧
    r.valid = true ∧ r.path.length = 3 ∧ ' ' ∈ r.continuations := by
  intro d r
  have hd : d.Reachable := .load _ .empty
  have hw : "POR FAVOR" ∈ d.build.words := by decide +kernel
  have hk : 4 ≤ "POR FAVOR".length := by decide
  obtain ⟨hvalid, hpath, hnext, -⟩ := begins_take_of_mem hd hw hk
  exact ⟨hd, hw, hk, hvalid, hpath, hnext ' ' rfl⟩

/-- With the blank that ends it, a beginning of a word does not have one step for each of its
characters, and the next character of the word cannot come next. -/
theorem begins_take_ends_at_blank :
    let d := (Draft.empty.load "a b|verbo").1
    let w := "A B"
    let r := (Automaton.ofVocabulary d.build).begins (String.ofList (w.toList.take 2))
    d.Reachable ∧ w ∈ d.build.words ∧ 2 < w.length ∧
    r.path.length ≠ 2 ∧ w.toList[2]? = some 'B' ∧ 'B' ∉ r.continuations := by
  intro d w r
  refine ⟨.load _ .empty, ?_, ?_, ?_, ?_, ?_⟩
  all_goals decide +kernel

end Castellano
