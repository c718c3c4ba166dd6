import Castellano.Proofs.Automaton.Words
import Castellano.Proofs.Vocabulary.Index

/-!
# Castellano.Proofs.Automaton.Recognition

What an automaton of words finds out about a text, and how far the text leads.

A walk enters one state for each character that it gets past, so the length of its path is that of
the longest beginning of the text that leads somewhere (`exists_arrival_take`,
`length_le_of_arrival`). In an automaton of words the texts that lead somewhere are the beginnings
of the words (`Knows.leads_iff`). `recognize_ofWords` says the rest: the words that are recognized
are those that the automaton was made from, up to their normal forms.
-/

namespace Castellano
namespace Automaton
namespace Table

/-! ## Paths -/

/-- The part of a text that a walk gets past leads to the last state of its path. -/
theorem arrival_take (t : Table) (q : Nat) (cs : List Char) :
    (t.walk q (cs.take (t.walk q cs).path.length)).arrival =
      some ((t.walk q cs).path.getLastD q) := by
  induction cs generalizing q with
  | nil => rfl
  | cons c cs ih =>
    cases hc : t.next? q c with
    | none => simp [walk, hc]
    | some p =>
      simp only [walk, hc, List.length_cons, List.take_succ_cons, List.getLastD_cons]
      exact ih p

theorem exists_arrival_take (t : Table) (q : Nat) (cs : List Char) :
    ∃ r, (t.walk q (cs.take (t.walk q cs).path.length)).arrival = some r :=
  ⟨_, t.arrival_take q cs⟩

theorem length_path_le (t : Table) (q : Nat) (cs : List Char) :
    (t.walk q cs).path.length ≤ cs.length := by
  induction cs generalizing q with
  | nil => exact Nat.le_refl 0
  | cons c cs ih =>
    cases hc : t.next? q c with
    | none => simp [walk, hc]
    | some p => simpa [walk, hc] using ih p

/-- A walk gets past every beginning of the text that leads somewhere. -/
theorem length_le_of_arrival {t : Table} {q r : Nat} {cs ds : List Char} (hds : ds <+: cs)
    (h : (t.walk q ds).arrival = some r) : ds.length ≤ (t.walk q cs).path.length := by
  induction ds generalizing q cs with
  | nil => exact Nat.zero_le _
  | cons d ds ih =>
    obtain ⟨es, rfl⟩ := hds
    rw [arrival_cons, Option.bind_eq_some_iff] at h
    obtain ⟨p, hp, h⟩ := h
    have hle := ih (List.prefix_append ds es) h
    simp only [List.cons_append, walk, hp, List.length_cons]
    omega

end Table

/-! ## Beginnings of words -/

/-- The text begins one of the words in its normal form. The text without characters counts even
where there are no words. -/
def BeginsOne (words : List String) (cs : List Char) : Prop :=
  cs = [] ∨ ∃ w ∈ words, cs <+: (normalize w).toList

theorem exists_leads_ofWords_iff (v : Vocabulary) (words : List String) (cs : List Char) :
    (∃ q, (ofWords v words).table.Leads cs q) ↔ BeginsOne words cs := by
  rw [(knows_ofWords v words).leads_iff, BeginsOne]
  simp only [List.mem_map, exists_exists_and_eq_and]

theorem path_recognize (a : Automaton) (text : String) :
    (a.recognize text).path = (a.walk text).path := by
  simp only [recognize]
  split <;> simp only

theorem path_begins (a : Automaton) (text : String) :
    (a.begins text).path = (a.walk text).path := by
  simp only [begins]
  split <;> simp only

end Automaton

open Automaton

/-- The words of a vocabulary come in normal form, so its automaton has just these words. -/
theorem Draft.Reachable.knows_ofVocabulary {d : Draft} (hd : d.Reachable) :
    (ofVocabulary d.build).Knows d.build d.build.words := by
  have hknows := knows_ofWords d.build d.build.words
  rwa [hd.map_normalize_words] at hknows

/-- An automaton of words recognizes a text exactly if its normal form has characters and is that
of one of the words; then it gives that form with the category that the vocabulary has for it, if
any. Recognized or not, its path is as long as the longest beginning of the normal form that is
one of a word. -/
theorem recognize_ofWords (v : Vocabulary) (words : List String) (text : String) :
    let a := Automaton.ofWords v words
    let r := a.recognize text
    let n := normalize text
    (r.accepted = true ↔ n ≠ "" ∧ ∃ w ∈ words, n = normalize w) ∧
    (r.accepted = true → r.word = some n ∧ r.category = v.categoryOf? n) ∧
    (r.accepted = false → r.word = none ∧ r.category = none) ∧
    (v.contains n = false → r.category = none) ∧
    r.path = (a.begins text).path ∧
    (∃ cs, cs <+: n.toList ∧ BeginsOne words cs ∧ cs.length = r.path.length) ∧
    ∀ cs, cs <+: n.toList → BeginsOne words cs → cs.length ≤ r.path.length := by
  intro a r n
  have hknows := knows_ofWords v words
  have hpath : r.path = (a.walk text).path := path_recognize a text
  have hin : n ∈ words.map normalize ↔ ∃ w ∈ words, n = normalize w := by
    simp only [List.mem_map, eq_comm]
  rw [← hin]
  have hword : (r.accepted = true ↔ n ≠ "" ∧ n ∈ words.map normalize) ∧
      (r.accepted = true → r.word = some n ∧ r.category = v.categoryOf? n) ∧
      (r.accepted = false → r.word = none ∧ r.category = none) := by
    by_cases hn : n ≠ "" ∧ n ∈ words.map normalize
    · have hr : r.accepted = true ∧ r.word = some n ∧ r.category = v.categoryOf? n :=
        hknows.recognize_of_mem hn
      simp [hr, hn]
    · have hr : r.accepted = false ∧ r.word = none ∧ r.category = none :=
        hknows.recognize_of_not_mem hn
      simp only [hr, hn, and_self, iff_self, Bool.false_eq_true, false_implies, implies_true]
  obtain ⟨haccepted, hyes, hno⟩ := hword
  refine ⟨haccepted, hyes, hno, ?_, ?_, ?_, ?_⟩
  · intro hout
    rw [← Vocabulary.isSome_categoryOf?, Option.isSome_eq_false_iff, Option.isNone_iff_eq_none]
      at hout
    cases hr : r.accepted with
    | true => exact (hyes hr).2.trans hout
    | false => exact (hno hr).2
  · rw [hpath, path_begins]
  · rw [hpath]
    have hbegins := (exists_leads_ofWords_iff v words _).mp (a.table.exists_arrival_take 0 n.toList)
    exact ⟨_, List.take_prefix _ _, hbegins,
      List.length_take_of_le (a.table.length_path_le 0 n.toList)⟩
  · intro cs hcs hbegins
    obtain ⟨q, hq⟩ := (exists_leads_ofWords_iff v words cs).mpr hbegins
    rw [hpath]
    exact Table.length_le_of_arrival hcs hq

end Castellano
