import Castellano.Proofs.Automaton.Endings
import Mathlib.Data.Char

/-!
# Castellano.Proofs.Automaton.Construction

The automata that come up while one is made from words (`Built`). Each comes from the one before
by a small step: a word is counted, a state is made behind a text that leads somewhere, or a word
ends at its own text. `built_ofWords` says that inserting words is made of such steps, so that what
each of them keeps holds of the automaton of any sequence of words, and of every automaton on the
way. The shape of the table is kept (`Built.shaped`), and so is the order of its edges
(`Built.sorted`).
-/

namespace Castellano
namespace Automaton

/-! ## Sorted edges -/

namespace State

/-- The edges stand in the order of their characters, with at most one edge for a character. -/
def Sorted (s : State) : Prop := s.edges.Pairwise fun e e' => e.1 < e'.1

theorem mem_placeEdge {c : Char} {q : Nat} {es : List (Char × Nat)} {e : Char × Nat} :
    e ∈ placeEdge c q es ↔ e = (c, q) ∨ e ∈ es := by
  induction es with
  | nil => rw [placeEdge, List.mem_singleton, or_iff_left List.not_mem_nil]
  | cons e' es ih =>
    rw [placeEdge]
    split
    · rw [List.mem_cons]
    · rw [List.mem_cons, ih, List.mem_cons, or_left_comm]

theorem pairwise_placeEdge {c : Char} {es : List (Char × Nat)}
    (hes : es.Pairwise fun e e' => e.1 < e'.1) (hc : es.lookup c = none) (q : Nat) :
    (placeEdge c q es).Pairwise fun e e' => e.1 < e'.1 := by
  induction es with
  | nil => exact List.pairwise_singleton _ _
  | cons e es ih =>
    obtain ⟨hfirst, hrest⟩ := List.pairwise_cons.mp hes
    rw [List.lookup_cons_eq_ite] at hc
    split at hc
    · cases hc
    · rename_i hne
      rw [placeEdge]
      split
      · rename_i hlt
        refine hes.cons fun e' he' => ?_
        rcases List.mem_cons.mp he' with rfl | he'
        · exact hlt
        · exact lt_trans hlt (hfirst e' he')
      · rename_i hge
        refine (ih hrest hc).cons fun e' he' => ?_
        rcases mem_placeEdge.mp he' with rfl | he'
        · exact lt_of_le_of_ne (not_lt.mp hge) (Ne.symm hne)
        · exact hfirst e' he'

theorem sorted_fresh : fresh.Sorted := List.Pairwise.nil

theorem Sorted.link {s : State} (hs : s.Sorted) {c : Char} (hc : s.target? c = none) (q : Nat) :
    (s.link c q).Sorted :=
  pairwise_placeEdge hs hc q

theorem Sorted.mark {s : State} (hs : s.Sorted) (word : String) (category : Option Category) :
    (s.mark word category).Sorted := hs

/-- Where no character has two edges, looking for one finds each of them. -/
theorem Sorted.target?_eq_some_iff {s : State} (hs : s.Sorted) {c : Char} {q : Nat} :
    s.target? c = some q ↔ (c, q) ∈ s.edges := by
  obtain ⟨edges, _, _, _⟩ := s
  simp only [Sorted, target?] at hs ⊢
  induction edges with
  | nil => simp
  | cons e es ih =>
    obtain ⟨hfirst, hrest⟩ := List.pairwise_cons.mp hs
    rw [List.lookup_cons_eq_ite, List.mem_cons]
    split
    · rename_i heq
      have hnot : (c, q) ∉ es := fun h => lt_irrefl c (heq ▸ hfirst (c, q) h)
      rw [or_iff_left hnot, Option.some.injEq, Prod.ext_iff, eq_comm]
      exact ⟨fun h => ⟨heq, h⟩, And.right⟩
    · rename_i hne
      rw [ih hrest, or_iff_right]
      exact fun h => hne (congrArg Prod.fst h)

end State

namespace Table

/-- The edges of every state are sorted. -/
def Sorted (t : Table) : Prop := ∀ (q : Nat) (s : State), t[q]? = some s → s.Sorted

theorem sorted_initial : initial.Sorted := by
  intro q s hs
  have hfresh : s = State.fresh := by
    have hmem := Array.mem_of_getElem? hs
    rwa [initial, List.mem_toArray, List.mem_singleton] at hmem
  rw [hfresh]
  exact State.sorted_fresh

theorem Sorted.grow {t : Table} (ht : t.Sorted) {q : Nat} {c : Char} (hq : q < t.size)
    (hc : t.next? q c = none) : (t.grow q c).Sorted := by
  intro p s hs
  rw [getElem?_grow hq] at hs
  split at hs
  · rename_i hp
    subst hp
    obtain ⟨s', hs', rfl⟩ := Option.map_eq_some_iff.mp hs
    rw [next?, hs'] at hc
    exact (ht p s' hs').link hc t.size
  · split at hs
    · cases hs
      exact State.sorted_fresh
    · exact ht p s hs

theorem Sorted.mark {t : Table} (ht : t.Sorted) (q : Nat) (word : String)
    (category : Option Category) : (t.mark q word category).Sorted := by
  intro p s hs
  rw [Table.mark, Array.getElem?_modify] at hs
  split at hs
  · obtain ⟨s', hs', rfl⟩ := Option.map_eq_some_iff.mp hs
    exact (ht p s' hs').mark word category
  · exact ht p s hs

theorem Sorted.next?_eq_some_iff {t : Table} (ht : t.Sorted) {q : Nat} {s : State}
    (hs : t[q]? = some s) {c : Char} {r : Nat} : t.next? q c = some r ↔ (c, r) ∈ s.edges := by
  rw [next?, hs]
  exact (ht q s hs).target?_eq_some_iff

end Table

/-! ## Steps -/

/-- The automata on the way from the empty one to that of some words. -/
inductive Built (v : Vocabulary) : Automaton → Prop
  | empty : Built v (empty v)
  | count {a : Automaton} : Built v a → Built v { a with wordCount := a.wordCount + 1 }
  | grow {a : Automaton} {cs : List Char} {q : Nat} {c : Char} : Built v a →
      a.table.Leads cs q → a.table.next? q c = none → Built v (a.grow q c)
  | mark {a : Automaton} {w : String} {q : Nat} : Built v a →
      w ≠ "" → a.table.Leads w.toList q → Built v (a.mark q w)

namespace Built

variable {v : Vocabulary} {a : Automaton}

theorem shaped (ha : Built v a) : a.table.Shaped := by
  induction ha with
  | empty => exact Table.shaped_initial
  | count _ ih => exact ih
  | grow _ hq hc ih => exact ih.grow (ih.lt_size hq) hc
  | mark _ _ _ ih => exact ih.mark _ _ _

theorem sorted (ha : Built v a) : a.table.Sorted := by
  induction ha with
  | empty => exact Table.sorted_initial
  | count _ ih => exact ih
  | grow ha hq hc ih => exact ih.grow (ha.shaped.lt_size hq) hc
  | mark _ _ _ ih => exact ih.mark _ _ _

theorem spell (ha : Built v a) {q : Nat} {done : List Char} (hq : a.table.Leads done q)
    (cs : List Char) : Built v (a.spell q cs).1 := by
  induction cs generalizing a q done with
  | nil => exact ha
  | cons c cs ih =>
    rw [Automaton.spell]
    split
    · rename_i r hr
      exact ih ha (Table.leads_snoc_iff.mpr ⟨q, hq, hr⟩)
    · rename_i hc
      have hnew : (a.table.grow q c).Leads (done ++ [c]) a.table.size :=
        (Table.leads_grow_iff ha.shaped hq hc).mpr (.inr ⟨rfl, rfl⟩)
      exact ih (ha.grow hq hc) hnew

theorem insert (ha : Built v a) (word : String) : Built v (a.insert word) := by
  simp only [Automaton.insert]
  generalize normalize word = w
  split
  · exact ha.count
  · rename_i hw
    have hroot : a.table.Leads [] 0 := Table.leads_nil_iff.mpr rfl
    have hspelled := spelled_spell ha.count.shaped hroot w.toList
    exact (ha.count.spell hroot w.toList).mark hw hspelled.leads

theorem foldl_insert (ha : Built v a) (words : List String) :
    Built v (words.foldl Automaton.insert a) := by
  induction words generalizing a with
  | nil => exact ha
  | cons word words ih =>
    rw [List.foldl_cons]
    exact ih (ha.insert word)

end Built

theorem built_ofWords (v : Vocabulary) (words : List String) : Built v (ofWords v words) :=
  Built.empty.foldl_insert words

end Automaton
end Castellano
