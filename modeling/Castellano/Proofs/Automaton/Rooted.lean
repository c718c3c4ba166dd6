import Castellano.Proofs.Automaton.Statistics

/-!
# Castellano.Proofs.Automaton.Rooted

The state table of a word automaton at any moment of its construction. It is a tree that grows away
from the initial state, and the words in it are spelled by the ways that lead to them (`Rooted`).
This holds between two words and in the middle of one (`Arises`), since it is kept by each of the
two things that happen to a table: a state is added together with its edge, or a word is marked.

Three things follow for whoever goes through the table. A state that is referred to is there: the
one at which a word is spelled on, those on a walk, and those behind a state. Walks enter states in
ascending order. And collecting the words behind a state comes to an end (`Collects`): the
recursion follows edges, and they lead to greater numbers only.
-/

namespace Castellano
namespace Automaton
namespace Table

/-! ## Edges -/

/-- A character leads from one state to another. -/
def Edge (t : Table) (q : Nat) (c : Char) (r : Nat) : Prop :=
  ∃ s, t[q]? = some s ∧ (c, r) ∈ s.edges

theorem Sorted.edge_iff {t : Table} (ht : t.Sorted) {q : Nat} {c : Char} {r : Nat} :
    t.Edge q c r ↔ t.next? q c = some r := by
  constructor
  · rintro ⟨s, hs, he⟩
    exact (ht.next?_eq_some_iff hs).mpr he
  · intro h
    cases hs : t[q]? with
    | none => rw [next?, hs] at h; cases h
    | some s => exact ⟨s, hs, (ht.next?_eq_some_iff hs).mp h⟩

/-- A state to which no edge leads yet brings no edges with it. -/
theorem edge_push_fresh_iff (t : Table) (q : Nat) (c : Char) (r : Nat) :
    Edge (t.push .fresh) q c r ↔ t.Edge q c r := by
  rw [Edge, Edge, Array.getElem?_push]
  split
  · rename_i hq
    rw [Array.getElem?_eq_none (Nat.le_of_eq hq.symm)]
    refine iff_of_false ?_ nofun
    rintro ⟨s, hs, he⟩
    cases hs
    cases he
  · exact Iff.rfl

/-! ## Walks -/

/-- A walk enters states in ascending order. -/
theorem Shaped.pairwise_path {t : Table} (ht : t.Shaped) (q : Nat) (cs : List Char) :
    (q :: (t.walk q cs).path).Pairwise (· < ·) := by
  induction cs generalizing q with
  | nil => exact List.pairwise_singleton _ q
  | cons c cs ih =>
    rw [walk]
    cases hr : t.next? q c with
    | none => exact List.pairwise_singleton _ q
    | some r =>
      have hlt := (ht.forward hr).1
      have hrest := ih r
      refine hrest.cons fun p hp => ?_
      rcases List.mem_cons.mp hp with rfl | hp
      · exact hlt
      · exact hlt.trans ((List.pairwise_cons.mp hrest).1 p hp)

theorem Shaped.lt_size_of_mem_path {t : Table} (ht : t.Shaped) {q r : Nat} {cs : List Char}
    (h : r ∈ (t.walk q cs).path) : r < t.size := by
  induction cs generalizing q with
  | nil => cases h
  | cons c cs ih =>
    rw [walk] at h
    cases hp : t.next? q c with
    | none => rw [hp] at h; cases h
    | some p =>
      rw [hp] at h
      rcases List.mem_cons.mp h with rfl | h
      · exact (ht.forward hp).2
      · exact ih h

/-- A walk that arrives ends in the last state entered, or where it started. -/
theorem arrival_mem {t : Table} {q r : Nat} {cs : List Char}
    (h : (t.walk q cs).arrival = some r) : r ∈ q :: (t.walk q cs).path := by
  induction cs generalizing q with
  | nil => cases h; exact List.mem_singleton_self _
  | cons c cs ih =>
    rw [walk] at h ⊢
    cases hp : t.next? q c with
    | none => rw [hp] at h; cases h
    | some p =>
      rw [hp] at h
      exact List.mem_cons_of_mem q (ih h)

/-! ## Collecting words -/

/-- The words that end in some states or behind them. Each state is looked up in the table, gives
its own word, then those of the states to which its edges lead, and then comes the next state.
Nothing bounds the depth, so there are words for a state exactly if this recursion ends and all
states on the way are there. -/
inductive Collects (t : Table) : List Nat → List String → Prop where
  | nil : Collects t [] []
  | cons {q : Nat} {s : State} {qs : List Nat} {ws ws' : List String} : t[q]? = some s →
      Collects t (s.edges.map Prod.snd) ws → Collects t qs ws' →
      Collects t (q :: qs) (s.word.toList ++ ws ++ ws')

theorem Collects.unique {t : Table} {qs : List Nat} {ws ws' : List String}
    (h : t.Collects qs ws) (h' : t.Collects qs ws') : ws = ws' := by
  induction h generalizing ws' with
  | nil => cases h'; rfl
  | cons hs _ _ ihbehind ihnext =>
    cases h' with
    | cons hs' hbehind hnext =>
      rw [hs] at hs'
      cases hs'
      rw [ihbehind hbehind, ihnext hnext]

theorem Collects.append {t : Table} {qs qs' : List Nat} {ws ws' : List String}
    (h : t.Collects qs ws) (h' : t.Collects qs' ws') : t.Collects (qs ++ qs') (ws ++ ws') := by
  induction h with
  | nil => exact h'
  | cons hs hbehind _ _ ihnext =>
    rw [List.append_assoc]
    exact .cons hs hbehind ihnext

theorem collects_flatMap {t : Table} {es : List (Char × Nat)} {g : Char × Nat → List String}
    (h : ∀ e ∈ es, t.Collects [e.2] (g e)) : t.Collects (es.map Prod.snd) (es.flatMap g) := by
  induction es with
  | nil => exact .nil
  | cons e es ih =>
    exact (h e List.mem_cons_self).append (ih fun e' he' => h e' (List.mem_cons_of_mem e he'))

/-- Edges lead to greater numbers, so going as deep as there are greater numbers is deep enough. -/
theorem Shaped.collects_wordsFrom {t : Table} (ht : t.Shaped) (hs : t.Sorted) {depth q : Nat}
    (hq : q < t.size) (hdepth : t.size ≤ q + depth) :
    t.Collects [q] (t.wordsFrom depth q) := by
  -- an edge takes one from the depth, and at least one from the numbers that are still greater
  induction depth generalizing q with
  | zero => omega
  | succ depth ih =>
    have hstate := Array.getElem?_eq_getElem hq
    have hbehind : ∀ e ∈ (t[q]).edges, t.Collects [e.2] (t.wordsFrom depth e.2) := by
      intro e he
      obtain ⟨hlt, hsize⟩ := ht.forward ((hs.next?_eq_some_iff hstate).mpr he)
      exact ih hsize (by omega)
    have hcollects := Collects.cons hstate (collects_flatMap hbehind) .nil
    rw [List.append_nil] at hcollects
    rwa [wordsFrom, hstate]

/-! ## Marked states -/

theorem state_eq {t : Table} {q : Nat} {s : State} (hs : t[q]? = some s) : t.state q = s := by
  rw [state, hs, Option.getD_some]

/-- The states that hold a word are just the final ones, and the word of a state has characters and
leads there. -/
structure Marked (t : Table) : Prop where
  isFinal_iff : ∀ q, (t.state q).isFinal = true ↔ (t.state q).word.isSome = true
  leads_word : ∀ {q w}, (t.state q).word = some w → w ≠ "" ∧ t.Leads w.toList q

theorem marked_initial : initial.Marked := by
  have hfresh : ∀ q, initial.state q = .fresh := by
    intro q
    cases q with
    | zero => rfl
    | succ q => exact state_of_size_le (Nat.le_add_left 1 q)
  refine ⟨fun q => ?_, fun {q w} hw => ?_⟩
  · rw [hfresh]
    exact iff_of_false Bool.false_ne_true Bool.false_ne_true
  · rw [hfresh] at hw
    cases hw

theorem Marked.grow {t : Table} (hm : t.Marked) (ht : t.Shaped) {cs : List Char} {q : Nat}
    {c : Char} (hq : t.Leads cs q) (hc : t.next? q c = none) : (t.grow q c).Marked := by
  have hstate := state_grow (ht.lt_size hq) c
  refine ⟨fun p => ?_, fun {p w} hw => ?_⟩
  · rw [hstate]
    split <;> exact hm.isFinal_iff p
  · -- the new state holds no word, and no other state got another one
    have hword : (t.state p).word = some w := by
      rw [hstate] at hw
      split at hw <;> exact hw
    obtain ⟨hne, hp⟩ := hm.leads_word hword
    exact ⟨hne, (leads_grow_iff ht hq hc).mpr (.inl hp)⟩

theorem Marked.mark {t : Table} (hm : t.Marked) (ht : t.Shaped) {w : String} {q : Nat}
    (hw : w ≠ "") (hq : t.Leads w.toList q) (category : Option Category) :
    (t.mark q w category).Marked := by
  have hstate := state_mark (ht.lt_size hq) w category
  have hwalk := walk_congr (next?_mark t q w category) 0
  refine ⟨fun p => ?_, fun {p w'} hw' => ?_⟩
  · rw [hstate]
    split
    · exact iff_of_true rfl rfl
    · exact hm.isFinal_iff p
  · rw [Leads, hwalk]
    rw [hstate] at hw'
    split at hw'
    · rename_i hp
      cases hw'
      exact ⟨hw, hp ▸ hq⟩
    · exact hm.leads_word hw'

/-! ## Rooted tables -/

/-- The states form a tree that grows away from the initial state, and the word of a state is the
one text that leads there. -/
structure Rooted (t : Table) : Prop where
  nonempty : 0 < t.size
  forward : ∀ {q c r}, t.Edge q c r → q < r ∧ r < t.size
  entered : ∀ {r}, r < t.size → r ≠ 0 → ∃! e : Nat × Char, t.Edge e.1 e.2 r
  not_entered : ∀ q c, ¬t.Edge q c 0
  not_isFinal : t.isFinal 0 = false
  isFinal_iff : ∀ {q : Nat} {s : State}, t[q]? = some s →
    (s.isFinal = true ↔ s.word.isSome = true)
  leads_iff : ∀ {q : Nat} {s : State} {w : String}, t[q]? = some s → s.word = some w →
    ∀ cs, t.Leads cs q ↔ cs = w.toList

theorem Marked.isFinal_zero {t : Table} (hm : t.Marked) (ht : t.Shaped) :
    t.isFinal 0 = false := by
  by_contra hfinal
  rw [Bool.not_eq_false, isFinal_eq, hm.isFinal_iff, Option.isSome_iff_exists] at hfinal
  obtain ⟨w, hw⟩ := hfinal
  obtain ⟨hne, hleads⟩ := hm.leads_word hw
  have hnil := ht.text_unique hleads (leads_nil_iff.mpr rfl)
  exact hne (String.toList_eq_nil_iff.mp hnil)

theorem Shaped.rooted {t : Table} (ht : t.Shaped) (hs : t.Sorted) (hm : t.Marked) :
    t.Rooted where
  nonempty := ht.nonempty
  forward h := ht.forward (hs.edge_iff.mp h)
  entered := by
    intro r hr hne
    obtain ⟨q, c, hq⟩ := ht.entered hr hne
    refine ⟨(q, c), hs.edge_iff.mpr hq, fun e he => ?_⟩
    obtain ⟨hstate, hchar⟩ := ht.unique (hs.edge_iff.mp he) hq
    exact Prod.ext hstate hchar
  not_entered q c h := Nat.not_lt_zero q (ht.forward (hs.edge_iff.mp h)).1
  not_isFinal := hm.isFinal_zero ht
  isFinal_iff h := state_eq h ▸ hm.isFinal_iff _
  leads_iff := by
    intro q s w hq hw cs
    rw [← state_eq hq] at hw
    obtain ⟨-, hleads⟩ := hm.leads_word hw
    exact ⟨fun h => ht.text_unique h hleads, fun h => h ▸ hleads⟩

end Table

/-! ## Construction -/

theorem Built.marked {v : Vocabulary} {a : Automaton} (ha : Built v a) : a.table.Marked := by
  induction ha with
  | empty => exact Table.marked_initial
  | count _ ih => exact ih
  | grow ha hq hc ih => exact ih.grow ha.shaped hq hc
  | mark ha hw hq ih => exact ih.mark ha.shaped hw hq _

theorem Built.rooted {v : Vocabulary} {a : Automaton} (ha : Built v a) : a.table.Rooted :=
  ha.shaped.rooted ha.sorted ha.marked

/-- What there is while the automaton of some words is made: the automaton and the state at which
the construction stands. That is the initial state between two words, and in the middle of a word
the one to which the characters so far lead. -/
inductive Arises (v : Vocabulary) (words : List String) : Automaton → Nat → Prop where
  | between {before after : List String} : words = before ++ after →
      Arises v words (ofWords v before) 0
  | within {before after : List String} {word : String} {cs : List Char} {a : Automaton} {q : Nat} :
      words = before ++ word :: after → cs <+: (normalize word).toList →
      spell { ofWords v before with wordCount := (ofWords v before).wordCount + 1 } 0 cs =
        (a, q) → Arises v words a q

theorem Arises.built {v : Vocabulary} {words : List String} {a : Automaton} {q : Nat}
    (h : Arises v words a q) : Built v a ∧ q < a.table.size := by
  have hroot : ∀ a : Automaton, a.table.Leads [] 0 := fun _ => Table.leads_nil_iff.mpr rfl
  cases h with
  | @between before _ _ =>
    have hbuilt := built_ofWords v before
    exact ⟨hbuilt, hbuilt.shaped.nonempty⟩
  | @within before _ _ cs _ _ _ _ hspell =>
    have hcounted := (built_ofWords v before).count
    have hbuilt := hcounted.spell (hroot _) cs
    have hspelled := spelled_spell hcounted.shaped (hroot _) cs
    rw [hspell] at hbuilt hspelled
    exact ⟨hbuilt, hspelled.shaped.lt_size hspelled.leads⟩

end Automaton

open Automaton

/-- While the automaton of some words is made, between two words and in the middle of one, its
table is a tree that grows away from the initial state, where the states with words are just the
final ones and each of these words is the text that leads to its state. A state that has just been
pushed has no edges yet and none leads to it.

So every state that is looked up is there. The construction stands at a state of the table. What is
walked for a text starts at state 0, enters states in ascending order, all in the table, and ends in
one of them. And from every state the words behind it can be collected, which gives those that the
search of bounded depth finds. -/
theorem rooted_of_arises (v : Vocabulary) (words : List String) {a : Automaton} {q : Nat}
    (h : Arises v words a q) :
    let t := a.table
    t.Rooted ∧
    q < t.size ∧
    (∀ p c r, Table.Edge (t.push .fresh) p c r ↔ t.Edge p c r) ∧
    (∀ text,
      let path := (a.walk text).path
      (a.recognize text).path = path ∧
      (a.begins text).path = path ∧
      (0 :: path).Pairwise (· < ·) ∧
      (∀ r ∈ 0 :: path, r < t.size) ∧
      ∀ r, (a.walk text).arrival = some r →
        r ∈ 0 :: path ∧ t.Collects [r] (a.completions text)) ∧
    ∀ r < t.size, ∀ ws, t.Collects [r] ws ↔ ws = t.wordsFrom t.size r := by
  intro t
  obtain ⟨hbuilt, hq⟩ := h.built
  have hshaped : t.Shaped := hbuilt.shaped
  have hcollects : ∀ r < t.size, t.Collects [r] (t.wordsFrom t.size r) := fun r hr =>
    hshaped.collects_wordsFrom hbuilt.sorted hr (Nat.le_add_left _ r)
  refine ⟨hbuilt.rooted, hq, t.edge_push_fresh_iff, fun text => ?_, fun r hr ws => ?_⟩
  · intro path
    have hsize : ∀ r ∈ 0 :: path, r < t.size := by
      intro r hr
      rcases List.mem_cons.mp hr with rfl | hr
      · exact hshaped.nonempty
      · exact hshaped.lt_size_of_mem_path hr
    refine ⟨a.path_recognize text, a.path_begins text, hshaped.pairwise_path 0 _, hsize,
      fun r hr => ?_⟩
    have hmem := Table.arrival_mem hr
    refine ⟨hmem, ?_⟩
    rw [completions, hr]
    exact hcollects r (hsize r hmem)
  · exact ⟨fun hws => hws.unique (hcollects r hr), fun hws => hws ▸ hcollects r hr⟩

/-- The second of two words, `SAL`, of which `SA` has been spelled. -/
theorem rooted_of_arises_sal :
    let v := Draft.empty.build
    let sol := ofWords v ["sol"]
    let spelled := spell { sol with wordCount := sol.wordCount + 1 } 0 ['S', 'A']
    Arises v ["sol", "Sal"] spelled.1 spelled.2 ∧ spelled.2 = 4 ∧ spelled.1.table.size = 5 ∧
    (spelled.1.recognize "Sol").path = [1, 2, 3] ∧ spelled.1.table.Rooted ∧
    spelled.1.table.wordsFrom 5 0 = ["SOL"] := by
  intro v sol spelled
  have h : Arises v ["sol", "Sal"] spelled.1 spelled.2 :=
    @Arises.within v _ ["sol"] [] "Sal" ['S', 'A'] _ _ rfl (by decide +kernel)
      Prod.mk.eta.symm
  refine ⟨h, ?_, ?_, ?_, (rooted_of_arises v ["sol", "Sal"] h).1, ?_⟩
  all_goals decide +kernel

end Castellano
