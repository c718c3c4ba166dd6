import Castellano.Proofs.Automaton.Construction
import Castellano.Proofs.Automaton.Recognition
import Castellano.Proofs.Vocabulary.Precedence
import Mathlib.Algebra.BigOperators.Group.Finset.Piecewise

/-!
# Castellano.Proofs.Automaton.Statistics

The statistics of an automaton of words. The states are in bijection with the beginnings of the
words (`bijOn_lastState`): a state belongs to one text because the table is a tree, and some text
leads to each state because each was made together with an edge from one with a smaller number.

The numbers of edges and of final states are counted while the automaton is made, beside the table
that they are about. Each step keeps them in agreement with the table (`Built.tallied`), and the
final states are then counted by the words that end in them.
-/

namespace Castellano
namespace Automaton
namespace Table

/-! ## Ends of walks -/

/-- The state in which the walk of a text ends, be it at the end of the text or where no edge leads
on. -/
def lastState (t : Table) (cs : List Char) : Nat := (t.walk 0 cs).path.getLastD 0

/-- The part of a text that its walk gets past. -/
def consumed (t : Table) (cs : List Char) : List Char := cs.take (t.walk 0 cs).path.length

theorem leads_consumed (t : Table) (cs : List Char) : t.Leads (t.consumed cs) (t.lastState cs) :=
  t.arrival_take 0 cs

theorem Leads.consumed_eq {t : Table} {cs : List Char} {q : Nat} (h : t.Leads cs q) :
    t.consumed cs = cs :=
  List.take_of_length_le (length_le_of_arrival List.prefix_rfl h)

theorem Leads.lastState_eq {t : Table} {cs : List Char} {q : Nat} (h : t.Leads cs q) :
    t.lastState cs = q := by
  have hlast := t.leads_consumed cs
  rw [h.consumed_eq, Leads, h] at hlast
  exact (Option.some.inj hlast).symm

theorem Shaped.lastState_eq_iff {t : Table} (ht : t.Shaped) (cs ds : List Char) :
    t.lastState cs = t.lastState ds ↔ t.consumed cs = t.consumed ds := by
  have hcs := t.leads_consumed cs
  have hds := t.leads_consumed ds
  constructor
  · intro h
    exact ht.text_unique hcs (h ▸ hds)
  · intro h
    rw [Leads, h, hds] at hcs
    exact (Option.some.inj hcs).symm

/-- Some text leads to each state: going back along the edges, the numbers decrease until the
initial state is reached. -/
theorem Shaped.exists_leads {t : Table} (ht : t.Shaped) {q : Nat} (hq : q < t.size) :
    ∃ cs, t.Leads cs q := by
  induction q using Nat.strongRecOn with
  | ind q ih =>
    by_cases hroot : q = 0
    · exact ⟨[], leads_nil_iff.mpr hroot⟩
    · obtain ⟨p, c, hp⟩ := ht.entered hq hroot
      have hlt := (ht.forward hp).1
      obtain ⟨cs, hcs⟩ := ih p hlt (hlt.trans hq)
      exact ⟨cs ++ [c], leads_snoc_iff.mpr ⟨p, hcs, hp⟩⟩

/-! ## Edges and final states -/

/-- A state, or one as it is made where there is none. -/
def state (t : Table) (q : Nat) : State := t[q]?.getD .fresh

theorem state_of_size_le {t : Table} {q : Nat} (hq : t.size ≤ q) : t.state q = .fresh := by
  rw [state, Array.getElem?_eq_none hq, Option.getD_none]

theorem state_grow {t : Table} {q : Nat} (hq : q < t.size) (c : Char) (p : Nat) :
    (t.grow q c).state p = if p = q then (t.state p).link c t.size else t.state p := by
  rw [state, getElem?_grow hq, state]
  by_cases hp : p = q
  · subst hp
    rw [if_pos rfl, if_pos rfl, Array.getElem?_eq_getElem hq]
    rfl
  · rw [if_neg hp, if_neg hp]
    by_cases hnew : p = t.size
    · rw [if_pos hnew, Array.getElem?_eq_none (Nat.le_of_eq hnew.symm)]; rfl
    · rw [if_neg hnew]

theorem state_mark {t : Table} {q : Nat} (hq : q < t.size) (word : String)
    (category : Option Category) (p : Nat) :
    (t.mark q word category).state p =
      if p = q then (t.state p).mark word category else t.state p := by
  rw [state, mark, Array.getElem?_modify, state]
  by_cases hp : p = q
  · subst hp
    rw [if_pos rfl, if_pos rfl, Array.getElem?_eq_getElem hq]
    rfl
  · rw [if_neg hp, if_neg (Ne.symm hp)]

theorem isFinal_eq (t : Table) (q : Nat) : t.isFinal q = (t.state q).isFinal := by
  rw [isFinal, state]
  cases t[q]? <;> rfl

/-- The number of edges of all states. In an automaton of words no state has two edges for one
character (`Built.sorted`), so these are the transitions that the table holds. -/
def edgeCount (t : Table) : Nat := ∑ q ∈ Finset.range t.size, (t.state q).edges.length

def finalStates (t : Table) : Finset Nat := {q ∈ Finset.range t.size | t.isFinal q = true}

theorem lt_size_of_isFinal {t : Table} {q : Nat} (h : t.isFinal q = true) : q < t.size := by
  by_contra hq
  rw [isFinal_eq, state_of_size_le (not_lt.mp hq)] at h
  cases h

theorem mem_finalStates_iff {t : Table} {q : Nat} :
    q ∈ t.finalStates ↔ t.isFinal q = true := by
  rw [finalStates, Finset.mem_filter, Finset.mem_range, and_iff_right_iff_imp]
  exact lt_size_of_isFinal

theorem length_placeEdge (c : Char) (q : Nat) (es : List (Char × Nat)) :
    (State.placeEdge c q es).length = es.length + 1 := by
  induction es with
  | nil => rfl
  | cons e es ih =>
    rw [State.placeEdge]
    split
    · rfl
    · rw [List.length_cons, ih, List.length_cons]

theorem edgeCount_grow {t : Table} {q : Nat} (hq : q < t.size) (c : Char) :
    (t.grow q c).edgeCount = t.edgeCount + 1 := by
  have hedges : ∀ p, ((t.grow q c).state p).edges.length =
      (t.state p).edges.length + if p = q then 1 else 0 := by
    intro p
    rw [state_grow hq]
    split
    · exact length_placeEdge c t.size _
    · rfl
  have hnew : (t.state t.size).edges.length = 0 := by
    rw [state_of_size_le (Nat.le_refl t.size)]; rfl
  rw [edgeCount, size_grow, Finset.sum_range_succ]
  simp only [hedges, hnew, Finset.sum_add_distrib, Finset.sum_ite_eq', Finset.mem_range, hq,
    if_true, if_neg (Nat.ne_of_gt hq), Nat.add_zero]
  rw [edgeCount]

theorem finalStates_grow {t : Table} {q : Nat} (hq : q < t.size) (c : Char) :
    (t.grow q c).finalStates = t.finalStates := by
  ext p
  rw [mem_finalStates_iff, mem_finalStates_iff, isFinal_eq, state_grow hq, isFinal_eq]
  split <;> rfl

theorem edgeCount_mark {t : Table} {q : Nat} (hq : q < t.size) (word : String)
    (category : Option Category) : (t.mark q word category).edgeCount = t.edgeCount := by
  have hedges : ∀ p, ((t.mark q word category).state p).edges = (t.state p).edges := by
    intro p
    rw [state_mark hq]
    split <;> rfl
  have hsize : (t.mark q word category).size = t.size := Array.size_modify
  simp only [edgeCount, hedges, hsize]

theorem finalStates_mark {t : Table} {q : Nat} (hq : q < t.size) (word : String)
    (category : Option Category) :
    (t.mark q word category).finalStates = Insert.insert q t.finalStates := by
  ext p
  rw [Finset.mem_insert, mem_finalStates_iff, mem_finalStates_iff, isFinal_eq, state_mark hq,
    isFinal_eq]
  split
  · rename_i hp
    exact iff_of_true rfl (.inl hp)
  · rename_i hp
    rw [or_iff_right hp]

end Table

/-! ## Counts -/

/-- The counts kept beside the table are those of the table. -/
structure Tallied (a : Automaton) : Prop where
  transitionCount_eq : a.transitionCount = a.table.edgeCount
  transitionCount_succ : a.transitionCount + 1 = a.table.size
  finalStateCount_eq : a.finalStateCount = a.table.finalStates.card

theorem tallied_empty (v : Vocabulary) : (empty v).Tallied := by
  exact ⟨rfl, rfl, rfl⟩

theorem Tallied.grow {a : Automaton} (ha : a.Tallied) {q : Nat} (hq : q < a.table.size)
    (c : Char) : (a.grow q c).Tallied := by
  refine ⟨?_, ?_, ?_⟩
  · rw [Automaton.grow, Table.edgeCount_grow hq, ha.transitionCount_eq]
  · rw [Automaton.grow, Table.size_grow, ha.transitionCount_succ]
  · rw [Automaton.grow, Table.finalStates_grow hq, ha.finalStateCount_eq]

theorem Tallied.mark {a : Automaton} (ha : a.Tallied) {q : Nat} (hq : q < a.table.size)
    (word : String) : (a.mark q word).Tallied := by
  refine ⟨?_, ?_, ?_⟩
  · rw [Automaton.mark, Table.edgeCount_mark hq, ha.transitionCount_eq]
  · exact ha.transitionCount_succ.trans Array.size_modify.symm
  · rw [Automaton.mark, Table.finalStates_mark hq, Finset.card_insert_eq_ite,
      ha.finalStateCount_eq]
    simp only [Table.mem_finalStates_iff]

theorem Built.tallied {v : Vocabulary} {a : Automaton} (ha : Built v a) : a.Tallied := by
  induction ha with
  | empty => exact tallied_empty v
  | count _ ih => exact ⟨ih.transitionCount_eq, ih.transitionCount_succ, ih.finalStateCount_eq⟩
  | grow ha hq _ ih => exact ih.grow (ha.shaped.lt_size hq) _
  | mark ha _ hq ih => exact ih.mark (ha.shaped.lt_size hq) _

theorem wordCount_spell (a : Automaton) (q : Nat) (cs : List Char) :
    (a.spell q cs).1.wordCount = a.wordCount := by
  induction cs generalizing a q with
  | nil => rfl
  | cons c cs ih =>
    rw [spell]
    split
    · exact ih a _
    · rw [ih, grow]

theorem wordCount_insert (a : Automaton) (word : String) :
    (a.insert word).wordCount = a.wordCount + 1 := by
  simp only [insert]
  split
  · rfl
  · rw [mark, wordCount_spell]

theorem wordCount_ofWords (v : Vocabulary) (words : List String) :
    (ofWords v words).wordCount = words.length := by
  rw [ofWords]
  induction words using List.reverseRecOn with
  | nil => rfl
  | append_singleton words word ih =>
    rw [List.foldl_append, List.foldl_cons, List.foldl_nil, wordCount_insert, ih,
      List.length_append, List.length_singleton]

/-! ## Counting by words -/

/-- The beginnings of the words in their normal forms, with the text that has no characters. -/
def beginnings (words : List String) : Finset (List Char) :=
  ([] :: words.flatMap fun w => (normalize w).toList.inits).toFinset

theorem mem_beginnings_iff {words : List String} {cs : List Char} :
    cs ∈ beginnings words ↔ BeginsOne words cs := by
  simp [beginnings, BeginsOne]

example : (beginnings ["casa", "casas", "come", "con"]).card = 10 := by decide +kernel

/-- The normal forms of the words, as far as they have characters. -/
def forms (words : List String) : Finset String := (words.map normalize).toFinset.erase ""

theorem mem_forms_iff {words : List String} {w : String} :
    w ∈ forms words ↔ w ≠ "" ∧ w ∈ words.map normalize := by
  rw [forms, Finset.mem_erase, List.mem_toFinset]

theorem bijOn_lastState (v : Vocabulary) (words : List String) :
    Set.BijOn (ofWords v words).table.lastState (beginnings words)
      (Finset.range (ofWords v words).table.size) := by
  have hshaped := (built_ofWords v words).shaped
  have hleads : ∀ cs ∈ beginnings words,
      (ofWords v words).table.Leads cs ((ofWords v words).table.lastState cs) := by
    intro cs hcs
    obtain ⟨q, hq⟩ := (exists_leads_ofWords_iff v words cs).mpr (mem_beginnings_iff.mp hcs)
    rw [hq.lastState_eq]
    exact hq
  refine ⟨fun cs hcs => ?_, fun cs hcs ds hds heq => ?_, fun q hq => ?_⟩
  · rw [Finset.coe_range, Set.mem_Iio]
    exact hshaped.lt_size (hleads cs hcs)
  · exact hshaped.text_unique (hleads cs hcs) (heq ▸ hleads ds hds)
  · rw [Finset.coe_range, Set.mem_Iio] at hq
    obtain ⟨cs, hcs⟩ := hshaped.exists_leads hq
    have hmem := mem_beginnings_iff.mpr ((exists_leads_ofWords_iff v words cs).mp ⟨q, hcs⟩)
    exact ⟨cs, hmem, hcs.lastState_eq⟩

/-- A state is final if a word ends in it. -/
theorem Knows.isFinal_iff {a : Automaton} {v : Vocabulary} {ws : List String} (ha : a.Knows v ws)
    {cs : List Char} {q : Nat} (hq : a.table.Leads cs q) :
    a.table.isFinal q = true ↔ cs ≠ [] ∧ String.ofList cs ∈ ws := by
  have hending := ha.getD_ending? cs
  rw [Table.ending?_of_leads hq] at hending
  have hfinal : a.table.isFinal q = (endingAmong v ws cs).isFinal := by
    rw [← hending, Table.isFinal]
    cases a.table[q]? <;> rfl
  rw [hfinal, endingAmong]
  split
  · rename_i hword
    exact iff_of_true rfl hword
  · rename_i hno
    exact iff_of_false Bool.false_ne_true hno

theorem card_finalStates (v : Vocabulary) (words : List String) :
    (ofWords v words).table.finalStates.card = (forms words).card := by
  have hknows := knows_ofWords v words
  generalize ofWords v words = a at hknows ⊢
  have hleads : ∀ w ∈ forms words, a.table.Leads w.toList (a.table.lastState w.toList) := by
    intro w hw
    have hbegins := (hknows.leads_iff w.toList).mpr
      (.inr ⟨w, (mem_forms_iff.mp hw).2, List.prefix_rfl⟩)
    obtain ⟨q, hq⟩ := hbegins
    rw [hq.lastState_eq]
    exact hq
  symm
  refine Finset.card_nbij (fun w => a.table.lastState w.toList) (fun w hw => ?_)
    (fun w hw x hx heq => ?_) (fun q hq => ?_)
  · obtain ⟨hne, hmem⟩ := mem_forms_iff.mp hw
    rw [Finset.mem_coe, Table.mem_finalStates_iff, hknows.isFinal_iff (hleads w hw),
      String.ofList_toList, ne_eq, String.toList_eq_nil_iff]
    exact ⟨hne, hmem⟩
  · have heq : a.table.lastState w.toList = a.table.lastState x.toList := heq
    exact String.toList_inj.mp
      (hknows.shaped.text_unique (hleads w hw) (heq ▸ hleads x hx))
  · have hq := Table.mem_finalStates_iff.mp hq
    obtain ⟨cs, hcs⟩ := hknows.shaped.exists_leads (Table.lt_size_of_isFinal hq)
    obtain ⟨hne, hmem⟩ := (hknows.isFinal_iff hcs).mp hq
    refine ⟨String.ofList cs, mem_forms_iff.mpr ⟨?_, hmem⟩, ?_⟩
    · rwa [ne_eq, ← String.toList_eq_nil_iff, String.toList_ofList]
    · show a.table.lastState (String.ofList cs).toList = q
      rw [String.toList_ofList, hcs.lastState_eq]

end Automaton

open Automaton

theorem Draft.Reachable.forms_words {d : Draft} (hd : d.Reachable) :
    forms d.build.words = d.build.words.toFinset := by
  rw [forms, hd.map_normalize_words, Finset.erase_eq_of_notMem]
  rw [List.mem_toFinset]
  exact fun hmem => (hd.normalize_of_mem hmem).2 rfl

/-- The states of an automaton of words are numbered in bijection with the beginnings of the words,
and walks that end alike are those that got past the same text. The statistics are the numbers of
beginnings, of edges in the table, of normal forms with characters, and of words. For the automaton
of a vocabulary the last two are what the vocabulary counts. -/
theorem stats_ofWords (v : Vocabulary) (words : List String) :
    let a := Automaton.ofWords v words
    let stats := a.stats
    (∀ cs ds, a.table.lastState cs = a.table.lastState ds ↔
      a.table.consumed cs = a.table.consumed ds) ∧
    Set.BijOn a.table.lastState (beginnings words) (Finset.range stats.stateCount) ∧
    (∀ cs ∈ beginnings words, a.table.consumed cs = cs) ∧
    a.table.lastState [] = 0 ∧
    stats.stateCount = (beginnings words).card ∧
    ((∀ w ∈ words, normalize w = "") → stats.stateCount = 1) ∧
    stats.transitionCount + 1 = stats.stateCount ∧
    stats.transitionCount = a.table.edgeCount ∧
    stats.finalStateCount = (forms words).card ∧
    stats.wordCount = words.length ∧
    ∀ sources : List Source,
      let v := (sources.foldl Draft.receive Draft.empty).build
      let stats := (Automaton.ofVocabulary v).stats
      stats.finalStateCount = v.size ∧ stats.wordCount = v.words.length := by
  intro a stats
  have hbuilt : Built v a := built_ofWords v words
  have hbij : Set.BijOn a.table.lastState (beginnings words) (Finset.range a.table.size) :=
    bijOn_lastState v words
  have hcard : stats.stateCount = (beginnings words).card := by
    rw [Finset.card_nbij _ hbij.mapsTo hbij.injOn hbij.surjOn, Finset.card_range]
    rfl
  have hfinal : ∀ (v : Vocabulary) (words : List String),
      (ofWords v words).finalStateCount = (forms words).card := fun v words =>
    (built_ofWords v words).tallied.finalStateCount_eq.trans (card_finalStates v words)
  refine ⟨hbuilt.shaped.lastState_eq_iff, hbij, fun cs hcs => ?_, rfl, hcard, fun hnone => ?_,
    hbuilt.tallied.transitionCount_succ, hbuilt.tallied.transitionCount_eq, hfinal v words,
    wordCount_ofWords v words, fun sources => ⟨?_, wordCount_ofWords _ _⟩⟩
  · obtain ⟨q, hq⟩ := (exists_leads_ofWords_iff v words cs).mpr (mem_beginnings_iff.mp hcs)
    exact hq.consumed_eq
  · have hempty : beginnings words = {[]} := by
      ext cs
      rw [mem_beginnings_iff, Finset.mem_singleton, BeginsOne, or_iff_left_of_imp]
      rintro ⟨w, hw, hcs⟩
      rw [hnone w hw] at hcs
      exact List.prefix_nil.mp hcs
    rw [hcard, hempty, Finset.card_singleton]
  · have hd := (Draft.reachable_iff _).mpr ⟨sources, rfl⟩
    generalize sources.foldl Draft.receive Draft.empty = d at hd ⊢
    show (ofWords d.build d.build.words).finalStateCount = d.build.size
    rw [hfinal, hd.forms_words, Vocabulary.size_build]

end Castellano
