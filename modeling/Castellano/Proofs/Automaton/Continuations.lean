import Castellano.Proofs.Automaton.Completions
import Castellano.Proofs.Automaton.Recognition

/-!
# Castellano.Proofs.Automaton.Continuations

What an automaton of words says of a text that may be the beginning of a word.

A walk enters as many states as the text has characters exactly if it arrives somewhere
(`length_path_eq_iff`). The characters that lead on from there are those by which the text goes on
to begin a word (`Knows.mem_continuations_iff`): every edge lies on the way to some word, so none of
them leads into a dead end, and no later insertion takes an edge away. `begins_ofWords` says all
that the answer holds.
-/

namespace Castellano
namespace Automaton

theorem State.Sorted.pairwise_continuations {s : State} (hs : s.Sorted) :
    s.continuations.Pairwise (· < ·) :=
  List.pairwise_map.mpr hs

namespace Table

theorem length_path_eq_iff (t : Table) (q : Nat) (cs : List Char) :
    (t.walk q cs).path.length = cs.length ↔ ∃ r, (t.walk q cs).arrival = some r := by
  constructor
  · intro hlength
    have harrival := t.exists_arrival_take q cs
    rwa [hlength, List.take_length] at harrival
  · rintro ⟨r, hr⟩
    have hge := length_le_of_arrival (List.prefix_refl cs) hr
    have hle := t.length_path_le q cs
    omega

theorem Sorted.mem_continuations_iff {t : Table} (ht : t.Sorted) {q : Nat} {s : State}
    (hs : t[q]? = some s) {c : Char} : c ∈ s.continuations ↔ ∃ r, t.next? q c = some r := by
  simp only [ht.next?_eq_some_iff hs, State.continuations, List.mem_map, Prod.exists,
    exists_and_right, exists_eq_right]

end Table

/-! ## Beginnings -/

variable {a : Automaton} {text : String}

theorem begins_of_leads {q : Nat} {s : State} (hq : a.table.Leads (normalize text).toList q)
    (hs : a.table[q]? = some s) :
    a.begins text = ⟨true, (a.walk text).path, s.continuations, s.isFinal⟩ := by
  have hstate : a.stateOf? text = some s := by
    rw [stateOf?, walk, hq]
    exact hs
  rw [begins, hstate]

theorem begins_of_not_leads (h : ¬∃ q, a.table.Leads (normalize text).toList q) :
    a.begins text = ⟨false, (a.walk text).path, [], false⟩ := by
  have hstate : a.stateOf? text = none := by
    rw [stateOf?]
    cases hq : (a.walk text).arrival with
    | none => rfl
    | some q => exact absurd ⟨q, hq⟩ h
  rw [begins, hstate]

theorem begins_of_not_valid (h : (a.begins text).valid = false) :
    (a.begins text).continuations = [] ∧ (a.begins text).isWord = false := by
  rw [begins] at h ⊢
  cases hstate : a.stateOf? text with
  | none => exact ⟨rfl, rfl⟩
  | some s => rw [hstate] at h; cases h

theorem isWord_begins (a : Automaton) (text : String) :
    (a.begins text).isWord = (a.recognize text).accepted := by
  rw [begins, recognize]
  cases a.stateOf? text <;> rfl

theorem length_path_begins_le (a : Automaton) (text : String) :
    (a.begins text).path.length ≤ (normalize text).length := by
  rw [path_begins, walk, ← String.length_toList]
  exact a.table.length_path_le 0 _

namespace Knows

variable {v : Vocabulary} {ws : List String}

theorem isWord_begins_iff (ha : a.Knows v ws) (text : String) :
    (a.begins text).isWord = true ↔ normalize text ≠ "" ∧ normalize text ∈ ws := by
  rw [isWord_begins]
  by_cases h : normalize text ≠ "" ∧ normalize text ∈ ws
  · exact iff_of_true (ha.recognize_of_mem h).1 h
  · exact iff_of_false (by simp [(ha.recognize_of_not_mem h).1]) h

theorem length_path_begins_eq_iff (ha : a.Knows v ws) (text : String) :
    (a.begins text).path.length = (normalize text).length ↔ (a.begins text).valid = true := by
  have hleads := ha.leads_iff (normalize text).toList
  rw [ha.valid_begins_iff, ← String.toList_eq_nil_iff, ← hleads, path_begins, walk,
    ← String.length_toList]
  exact a.table.length_path_eq_iff 0 _

theorem mem_continuations_iff (ha : a.Knows v ws) (hs : a.table.Sorted) (text : String)
    (c : Char) :
    c ∈ (a.begins text).continuations ↔ ∃ w ∈ ws, (normalize text).toList ++ [c] <+: w.toList := by
  have hsnoc := ha.leads_iff ((normalize text).toList ++ [c])
  rw [or_iff_right (by simp)] at hsnoc
  rw [← hsnoc]
  by_cases h : ∃ q, a.table.Leads (normalize text).toList q
  · obtain ⟨q, hq⟩ := h
    have hstate := Array.getElem?_eq_getElem (ha.shaped.lt_size hq)
    rw [begins_of_leads hq hstate, hs.mem_continuations_iff hstate]
    -- the text leads to one state, so its extensions are the edges of that state
    constructor
    · rintro ⟨r, hr⟩
      exact ⟨r, Table.leads_snoc_iff.mpr ⟨q, hq, hr⟩⟩
    · rintro ⟨r, hr⟩
      obtain ⟨p, hp, hr⟩ := Table.leads_snoc_iff.mp hr
      obtain rfl : q = p := Option.some.inj (hq.symm.trans hp)
      exact ⟨r, hr⟩
  · rw [begins_of_not_leads h]
    refine iff_of_false List.not_mem_nil ?_
    rintro ⟨r, hr⟩
    exact h (hr.of_prefix (List.prefix_append _ [c]))

theorem pairwise_continuations (ha : a.Knows v ws) (hs : a.table.Sorted) (text : String) :
    (a.begins text).continuations.Pairwise (· < ·) := by
  by_cases h : ∃ q, a.table.Leads (normalize text).toList q
  · obtain ⟨q, hq⟩ := h
    have hstate := Array.getElem?_eq_getElem (ha.shaped.lt_size hq)
    rw [begins_of_leads hq hstate]
    exact (hs q _ hstate).pairwise_continuations
  · rw [begins_of_not_leads h]
    exact List.Pairwise.nil

/-- Only where there is no word at all does a beginning have no word behind it. -/
theorem valid_and_completions_eq_nil_iff (ha : a.Knows v ws) (hs : a.table.Sorted)
    (text : String) :
    (a.begins text).valid = true ∧ a.completions text = [] ↔
      normalize text = "" ∧ ∀ w ∈ ws, w = "" := by
  rw [ha.valid_begins_iff, List.eq_nil_iff_forall_not_mem]
  simp only [ha.mem_completions_iff hs]
  constructor
  · rintro ⟨hvalid, hnone⟩
    have hempty : normalize text = "" := by
      rcases hvalid with hempty | ⟨w, hw, hbegins⟩
      · exact hempty
      · by_contra hne
        refine hnone w ⟨?_, hw, hbegins⟩
        rintro rfl
        exact hne (String.toList_eq_nil_iff.mp (List.prefix_nil.mp hbegins))
    refine ⟨hempty, fun w hw => ?_⟩
    by_contra hne
    exact hnone w ⟨hne, hw, by simp [hempty]⟩
  · rintro ⟨hempty, hall⟩
    exact ⟨.inl hempty, fun w hw => hw.1 (hall w hw.2.1)⟩

end Knows
end Automaton

open Automaton

/-- A text begins a word of an automaton exactly if its normal form has no characters or begins the
normal form of one of the words. The walk then gets past all of it; the characters that may come
next are listed in ascending order and lead to the beginnings of words, and the text is a word
exactly if it is one of them in normal form. Otherwise the walk stops short and nothing may come
next. Every beginning has a word behind it, unless there are no words with characters. -/
theorem begins_ofWords (v : Vocabulary) (words : List String) (text : String) :
    let a := Automaton.ofWords v words
    let r := a.begins text
    let n := normalize text
    (r.valid = true ↔ n = "" ∨ ∃ w ∈ words, n.toList <+: (normalize w).toList) ∧
    (r.valid = true →
      r.path.length = n.length ∧
      r.continuations.Pairwise (· < ·) ∧
      (∀ c, c ∈ r.continuations ↔ ∃ w ∈ words, n.toList ++ [c] <+: (normalize w).toList) ∧
      (r.isWord = true ↔ n ≠ "" ∧ ∃ w ∈ words, n = normalize w)) ∧
    (r.valid = false →
      r.continuations = [] ∧ r.isWord = false ∧ r.path.length < n.length) ∧
    (r.valid = true ∧ a.completions text = [] ↔ n = "" ∧ ∀ w ∈ words, normalize w = "") := by
  intro a r n
  have hknows := knows_ofWords v words
  have hsorted := (built_ofWords v words).sorted
  have hvalid : r.valid = true ↔ n = "" ∨ ∃ w ∈ words, n.toList <+: (normalize w).toList := by
    simpa using hknows.valid_begins_iff text
  have hlength : r.path.length = n.length ↔ r.valid = true := hknows.length_path_begins_eq_iff text
  have hcontinuations : ∀ c, c ∈ r.continuations ↔
      ∃ w ∈ words, n.toList ++ [c] <+: (normalize w).toList := by
    intro c
    simpa using hknows.mem_continuations_iff hsorted text c
  have hword : r.isWord = true ↔ n ≠ "" ∧ ∃ w ∈ words, n = normalize w := by
    have hin : n ∈ words.map normalize ↔ ∃ w ∈ words, n = normalize w := by
      simp only [List.mem_map, eq_comm]
    rw [← hin]
    exact hknows.isWord_begins_iff text
  refine ⟨hvalid, fun h => ?_, fun h => ?_, ?_⟩
  · exact ⟨hlength.mpr h, hknows.pairwise_continuations hsorted text, hcontinuations, hword⟩
  · obtain ⟨hnone, hno⟩ := begins_of_not_valid h
    have hle : r.path.length ≤ n.length := a.length_path_begins_le text
    have hne : r.path.length ≠ n.length := by
      rw [ne_eq, hlength, h]
      exact Bool.false_ne_true
    exact ⟨hnone, hno, by omega⟩
  · simpa using hknows.valid_and_completions_eq_nil_iff hsorted text

example : ((ofWords Draft.empty.build ["sol", "Sal", "salir"]).begins "sa").continuations =
    ['L'] := by decide +kernel

end Castellano
