import Castellano.Proofs.Automaton.Construction
import Castellano.Proofs.Automaton.Words
import Castellano.Proofs.ForStd
import Mathlib.Data.List.Sort

/-!
# Castellano.Proofs.Automaton.Completions

The list of the words that begin with a text. Three facts make it:

* `mem_wordsFrom_iff`: the words listed from a state are those that end in a state fewer edges away
  than the search goes deep. Edges lead to greater numbers, so in an automaton no state is further
  away than the table is long (`Shaped.add_length_le`).
* `Knows.leads_word_iff`: the word that ends in a state is spelled by the text that leads there.
* `pairwise_wordsFrom`: with sorted edges the words come in ascending order, which is that of the
  code points of their characters. A word stands before its extensions, and extensions by smaller
  characters before those by greater ones.

A list in strictly ascending order is settled by what is in it, so the order of the words and
their repetitions make no difference (`completions_ofWords`).
-/

namespace Castellano
namespace Automaton
namespace Table

/-! ## Words behind a state -/

/-- The word that ends in state `q`. -/
def word? (t : Table) (q : Nat) : Option String := t[q]?.bind State.word

theorem word?_eq {t : Table} {q : Nat} {s : State} (hs : t[q]? = some s) : t.word? q = s.word := by
  rw [word?, hs, Option.bind_some]

theorem mem_wordsFrom_iff {t : Table} (ht : t.Sorted) {depth q : Nat} {w : String} :
    w ∈ t.wordsFrom depth q ↔
      ∃ cs r, cs.length < depth ∧ (t.walk q cs).arrival = some r ∧ t.word? r = some w := by
  induction depth generalizing q with
  | zero => simp [wordsFrom]
  | succ depth ih =>
    rw [wordsFrom]
    cases hs : t[q]? with
    | none =>
      refine iff_of_false List.not_mem_nil ?_
      rintro ⟨cs, r, -, hr, hw⟩
      have hnone : ∀ c, t.next? q c = none := fun c => by rw [next?, hs]
      cases cs with
      | nil => cases hr; rw [word?, hs] at hw; cases hw
      | cons c cs => rw [arrival_cons, hnone] at hr; cases hr
    | some s =>
      have hword := word?_eq hs
      simp only [List.mem_append, Option.mem_toList, List.mem_flatMap, ih]
      constructor
      · rintro (hw | ⟨⟨c, p⟩, hp, cs, r, hlen, hr, hw⟩)
        · exact ⟨[], q, Nat.succ_pos depth, rfl, hword.trans hw⟩
        · refine ⟨c :: cs, r, Nat.succ_lt_succ hlen, ?_, hw⟩
          rw [arrival_cons, (ht.next?_eq_some_iff hs).mpr hp]
          exact hr
      · rintro ⟨cs, r, hlen, hr, hw⟩
        cases cs with
        | nil =>
          cases hr
          exact .inl (hword.symm.trans hw)
        | cons c cs =>
          rw [arrival_cons, Option.bind_eq_some_iff] at hr
          obtain ⟨p, hp, hr⟩ := hr
          have hedge := (ht.next?_eq_some_iff hs).mp hp
          exact .inr ⟨(c, p), hedge, cs, r, Nat.lt_of_succ_lt_succ hlen, hr, hw⟩

/-- Every step of a walk leads to a greater number. -/
theorem Shaped.add_length_le {t : Table} (ht : t.Shaped) {q r : Nat} {cs : List Char}
    (h : (t.walk q cs).arrival = some r) : q + cs.length ≤ r := by
  induction cs generalizing q with
  | nil => cases h; exact Nat.le_refl _
  | cons c cs ih =>
    rw [arrival_cons, Option.bind_eq_some_iff] at h
    obtain ⟨p, hp, h⟩ := h
    have hlt := (ht.forward hp).1
    have hle := ih h
    rw [List.length_cons]
    omega

/-! ## Ascending order -/

/-- The word that ends in a state is spelled by the text that leads there. -/
def Labelled (t : Table) : Prop :=
  ∀ {cs : List Char} {q : Nat} {w : String}, t.Leads cs q → t.word? q = some w → cs = w.toList

theorem Leads.append {t : Table} {cs ds : List Char} {q r : Nat} (h : t.Leads cs q)
    (hr : (t.walk q ds).arrival = some r) : t.Leads (cs ++ ds) r := by
  rw [Leads, arrival_append, h, Option.bind_some, hr]

theorem Labelled.prefix_of_mem {t : Table} (hl : t.Labelled) (ht : t.Sorted) {cs : List Char}
    {depth q : Nat} {w : String} (hq : t.Leads cs q) (hw : w ∈ t.wordsFrom depth q) :
    cs <+: w.toList := by
  obtain ⟨ds, r, -, hr, hw⟩ := (mem_wordsFrom_iff ht).mp hw
  exact ⟨ds, hl (hq.append hr) hw⟩

theorem pairwise_wordsFrom {t : Table} (ht : t.Sorted) (hl : t.Labelled) {cs : List Char}
    {depth q : Nat} (hq : t.Leads cs q) : (t.wordsFrom depth q).Pairwise (· < ·) := by
  -- the text that leads to a state begins all words behind it, and an edge makes it longer
  induction depth generalizing q cs with
  | zero => exact List.Pairwise.nil
  | succ depth ih =>
    rw [wordsFrom]
    cases hs : t[q]? with
    | none => exact List.Pairwise.nil
    | some s =>
      have hedge : ∀ e ∈ s.edges, t.Leads (cs ++ [e.1]) e.2 := fun e he =>
        leads_snoc_iff.mpr ⟨q, hq, (ht.next?_eq_some_iff hs).mpr he⟩
      have hbehind : ∀ e ∈ s.edges, ∀ w ∈ t.wordsFrom depth e.2, cs ++ [e.1] <+: w.toList :=
        fun e he w hw => hl.prefix_of_mem ht (hedge e he) hw
      refine List.pairwise_append.mpr ⟨?_, List.pairwise_flatMap.mpr ⟨?_, ?_⟩, ?_⟩
      · cases s.word with
        | none => exact List.Pairwise.nil
        | some w => exact List.pairwise_singleton _ w
      · exact fun e he => ih (hedge e he)
      · -- behind two edges the words differ first in the characters of the edges
        refine (ht q s hs).imp_of_mem fun {e e'} he he' hlt w hw x hx => ?_
        exact String.lt_of_prefixes hlt (hbehind e he w hw) (hbehind e' he' x hx)
      · -- the word that ends in the state itself is a beginning of those behind it
        intro w hw x hx
        obtain ⟨e, he, hx⟩ := List.mem_flatMap.mp hx
        have hword : t.word? q = some w := (word?_eq hs).trans (Option.mem_toList.mp hw)
        exact String.lt_of_prefix_snoc (hl hq hword) (hbehind e he x hx)

end Table

/-! ## Words of an automaton -/

theorem word_endingAmong_iff {v : Vocabulary} {ws : List String} {cs : List Char} {w : String} :
    (endingAmong v ws cs).word = some w ↔ cs = w.toList ∧ w ≠ "" ∧ w ∈ ws := by
  rw [endingAmong]
  split
  · rename_i h
    rw [Ending.ofWord, Option.some.injEq]
    constructor
    · rintro rfl
      refine ⟨String.toList_ofList.symm, ?_, h.2⟩
      rw [ne_eq, ← String.toList_eq_nil_iff, String.toList_ofList]
      exact h.1
    · rintro ⟨rfl, -⟩
      exact String.ofList_toList
  · rename_i h
    refine iff_of_false (Option.some_ne_none w).symm ?_
    rintro ⟨rfl, hne, hin⟩
    rw [ne_eq, String.toList_eq_nil_iff, String.ofList_toList] at h
    exact h ⟨hne, hin⟩

namespace Knows

variable {a : Automaton} {v : Vocabulary} {ws : List String}

theorem word?_of_leads (ha : a.Knows v ws) {cs : List Char} {q : Nat} (hq : a.table.Leads cs q) :
    a.table.word? q = (endingAmong v ws cs).word := by
  rw [← ha.getD_ending?, Table.ending?_of_leads hq, Table.word?]
  cases a.table[q]? <;> rfl

theorem leads_word_iff (ha : a.Knows v ws) {cs : List Char} {w : String} :
    (∃ q, a.table.Leads cs q ∧ a.table.word? q = some w) ↔ cs = w.toList ∧ w ≠ "" ∧ w ∈ ws := by
  constructor
  · rintro ⟨q, hq, hw⟩
    rw [ha.word?_of_leads hq] at hw
    exact word_endingAmong_iff.mp hw
  · intro h
    obtain ⟨hcs, -, hw⟩ := id h
    obtain ⟨q, hq⟩ := (ha.leads_iff cs).mpr (.inr ⟨w, hw, hcs ▸ List.prefix_refl cs⟩)
    refine ⟨q, hq, ?_⟩
    rw [ha.word?_of_leads hq]
    exact word_endingAmong_iff.mpr h

theorem labelled (ha : a.Knows v ws) : a.table.Labelled := fun hq hw =>
  (ha.leads_word_iff.mp ⟨_, hq, hw⟩).1

theorem mem_completions_iff (ha : a.Knows v ws) (hs : a.table.Sorted) (text : String)
    (w : String) :
    w ∈ a.completions text ↔ w ≠ "" ∧ w ∈ ws ∧ (normalize text).toList <+: w.toList := by
  rw [completions, walk]
  generalize (normalize text).toList = cs
  cases hq : (a.table.walk 0 cs).arrival with
  | none =>
    refine iff_of_false List.not_mem_nil ?_
    rintro ⟨-, hw, hcs⟩
    obtain ⟨q, hq'⟩ := (ha.leads_iff cs).mpr (.inr ⟨w, hw, hcs⟩)
    rw [Table.Leads, hq] at hq'
    cases hq'
  | some q =>
    simp only [Table.mem_wordsFrom_iff hs]
    constructor
    · rintro ⟨ds, r, -, hr, hw⟩
      obtain ⟨htext, hne, hin⟩ := ha.leads_word_iff.mp ⟨r, Table.Leads.append hq hr, hw⟩
      exact ⟨hne, hin, ⟨ds, htext⟩⟩
    · rintro ⟨hne, hin, ds, hds⟩
      obtain ⟨r, hlead, hw⟩ := ha.leads_word_iff.mpr ⟨hds, hne, hin⟩
      have hr : (a.table.walk q ds).arrival = some r := by
        rwa [Table.Leads, Table.arrival_append, hq, Option.bind_some] at hlead
      -- the search goes deep enough, for the way to the word enters a state at each step
      have hdepth := ha.shaped.add_length_le hr
      have hsize := ha.shaped.lt_size hlead
      exact ⟨ds, r, by omega, hr, hw⟩

theorem pairwise_completions (ha : a.Knows v ws) (hs : a.table.Sorted) (text : String) :
    (a.completions text).Pairwise (· < ·) := by
  rw [completions]
  cases hq : (a.walk text).arrival with
  | none => exact List.Pairwise.nil
  | some q => exact Table.pairwise_wordsFrom hs ha.labelled hq

end Knows
end Automaton

open Automaton

/-- The completions of a text in an automaton of words are just the words in normal form, those
without characters left out, that begin with the normal form of the text. They are listed once
each in the order of their code points, whatever the order of the words and however often each of
them comes. A text without characters is completed by all of them. -/
theorem completions_ofWords (v : Vocabulary) (words : List String) (text : String) :
    let found := (Automaton.ofWords v words).completions text
    (∀ w, w ∈ found ↔
      w ≠ "" ∧ w ∈ words.map normalize ∧ (normalize text).toList <+: w.toList) ∧
    found.Nodup ∧
    found.Pairwise (· < ·) ∧
    (normalize text = "" → ∀ w, w ∈ found ↔ w ≠ "" ∧ w ∈ words.map normalize) ∧
    ∀ words' : List String, (∀ w, w ∈ words' ↔ w ∈ words) →
      (Automaton.ofWords v words').completions text = found := by
  intro found
  have hmem : ∀ ws w, w ∈ (ofWords v ws).completions text ↔
      w ≠ "" ∧ w ∈ ws.map normalize ∧ (normalize text).toList <+: w.toList := fun ws w =>
    (knows_ofWords v ws).mem_completions_iff (built_ofWords v ws).sorted text w
  have hsorted : ∀ ws, ((ofWords v ws).completions text).Pairwise (· < ·) := fun ws =>
    (knows_ofWords v ws).pairwise_completions (built_ofWords v ws).sorted text
  refine ⟨hmem words, (hsorted words).nodup, hsorted words, ?_, ?_⟩
  · intro hempty w
    rw [hmem, hempty]
    simp
  · intro words' hsame
    refine (hsorted words').eq_of_mem_iff (hsorted words) fun w => ?_
    rw [hmem words', hmem words]
    simp only [List.mem_map, hsame]

example : (ofWords Draft.empty.build ["sol", "Sal", "", "solar", "ola", "sol "]).completions "s" =
    ["SAL", "SOL", "SOLAR"] := by decide +kernel

end Castellano
