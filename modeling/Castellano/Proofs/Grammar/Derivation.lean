import Castellano.Grammar.Tree
import Castellano.Token
import Mathlib.Data.List.Basic

/-!
# Castellano.Proofs.Grammar.Derivation

Derivations in the grammar of sentences.

`Tree.Derives t n us`: the tree `t` has the symbol `n` at its root, the grammar allows it, and its
leaves from left to right are the words `us`, each under the preterminal of its category. A list
of words is derivable from a nonterminal if some tree derives it.

`derivable_phrase_iff` reads the table of the grammar from the side of the words: what a phrase
derives is what the symbols of one of its alternatives derive one after the other. Nodes that have
children may hold words as far as the grammar is concerned; `Tree.plain` says that none does.
-/

namespace Castellano

/-- The leaf that a word makes in a tree: its preterminal and the word. -/
def Token.leaf (t : Token) : NonTerminal × Option String :=
  (NonTerminal.preterminal t.category, some t.word)

theorem preterminal_inj {c d : Category} :
    NonTerminal.preterminal c = NonTerminal.preterminal d ↔ c = d := by
  cases c <;> cases d <;> simp [NonTerminal.preterminal]

theorem Grammar.eq_preterminal {n : NonTerminal} {c : Category} (h : n.category? = some c) :
    n = .preterminal c := by
  cases n <;> cases h <;> rfl

theorem Token.leaf_eq_iff (t : Token) (c : Category) (v : Option String) :
    t.leaf = (NonTerminal.preterminal c, v) ↔ t.category = c ∧ v = some t.word := by
  simp [Token.leaf, preterminal_inj, eq_comm]

namespace Tree

/-! ## Leaves -/

mutual

/-- Symbols and words of the nodes without children, from left to right. -/
def leaves : Tree → List (NonTerminal × Option String)
  | node s v [] => [(s, v)]
  | node _ _ (t :: ts) => leaves t ++ leavesAll ts

/-- The leaves of a list of trees from left to right. -/
def leavesAll : List Tree → List (NonTerminal × Option String)
  | [] => []
  | t :: ts => leaves t ++ leavesAll ts

end

mutual

/-- No node that has children holds a word. -/
def plain : Tree → Bool
  | node _ _ [] => true
  | node _ v (t :: ts) => v.isNone && (plain t && plainAll ts)

/-- Every tree of a list is plain. -/
def plainAll : List Tree → Bool
  | [] => true
  | t :: ts => plain t && plainAll ts

end

theorem leaves_node_cons (s : NonTerminal) (v : Option String) (t : Tree) (ts : List Tree) :
    (node s v (t :: ts)).leaves = leavesAll (t :: ts) := by
  simp [leaves, leavesAll]

theorem conforms_node_cons (s : NonTerminal) (v : Option String) (t : Tree) (ts : List Tree) :
    (node s v (t :: ts)).conforms =
      (Grammar.derives s (((t :: ts).map symbol).map Symbol.nonterminal) &&
        conformAll (t :: ts)) := by
  simp [conforms, conformAll]

mutual

/-- In a plain tree the words are those of the leaves. -/
theorem words_of_plain (t : Tree) (h : t.plain = true) :
    t.words = t.leaves.filterMap Prod.snd := by
  match t with
  | node s v [] => cases v <;> simp [words, wordsAll, leaves]
  | node s v (u :: us) =>
    simp only [plain, Bool.and_eq_true, Option.isNone_iff_eq_none] at h
    obtain ⟨rfl, hu, hus⟩ := h
    rw [leaves, List.filterMap_append, ← words_of_plain u hu, ← wordsAll_of_plain us hus]
    simp [words, wordsAll]

/-- In plain trees the words are those of the leaves. -/
theorem wordsAll_of_plain (ts : List Tree) (h : plainAll ts = true) :
    wordsAll ts = (leavesAll ts).filterMap Prod.snd := by
  match ts with
  | [] => simp [wordsAll, leavesAll]
  | u :: us =>
    simp only [plainAll, Bool.and_eq_true] at h
    rw [wordsAll, leavesAll, List.filterMap_append, words_of_plain u h.1, wordsAll_of_plain us h.2]

end

/-! ## Derivations -/

/-- The tree is a derivation of the words from the nonterminal. -/
structure Derives (t : Tree) (n : NonTerminal) (us : List Token) : Prop where
  symbol_eq : t.symbol = n
  conforms_eq : t.conforms = true
  leaves_eq : t.leaves = us.map Token.leaf

/-- The trees are derivations from the nonterminals, and together they derive the words. -/
structure DerivesAll (ts : List Tree) (ns : List NonTerminal) (us : List Token) : Prop where
  symbols_eq : ts.map symbol = ns
  conforms_eq : conformAll ts = true
  leaves_eq : leavesAll ts = us.map Token.leaf

theorem derivesAll_nil : DerivesAll [] [] [] := ⟨rfl, by simp [conformAll], by simp [leavesAll]⟩

theorem DerivesAll.cons {t : Tree} {ts : List Tree} {n : NonTerminal} {ns : List NonTerminal}
    {us vs : List Token} (hs : DerivesAll ts ns vs) (h : t.Derives n us) :
    DerivesAll (t :: ts) (n :: ns) (us ++ vs) := by
  refine ⟨by rw [List.map_cons, h.symbol_eq, hs.symbols_eq], ?_, ?_⟩
  · rw [conformAll, h.conforms_eq, hs.conforms_eq]; rfl
  · rw [leavesAll, h.leaves_eq, hs.leaves_eq, List.map_append]

theorem DerivesAll.uncons {t : Tree} {ts : List Tree} {ns : List NonTerminal} {us : List Token}
    (h : DerivesAll (t :: ts) ns us) :
    ∃ n ns' vs ws, ns = n :: ns' ∧ us = vs ++ ws ∧ t.Derives n vs ∧ DerivesAll ts ns' ws := by
  obtain ⟨hsym, hconf, hleaves⟩ := h
  rw [conformAll, Bool.and_eq_true] at hconf
  rw [leavesAll] at hleaves
  obtain ⟨vs, ws, hus, hvs, hws⟩ := List.map_eq_append_iff.mp hleaves.symm
  exact ⟨t.symbol, ts.map symbol, vs, ws, hsym.symm, hus, ⟨rfl, hconf.1, hvs.symm⟩,
    ⟨rfl, hconf.2, hws.symm⟩⟩

theorem derives_leaf (c : Category) (w : String) :
    (leaf (NonTerminal.preterminal c) w).Derives (NonTerminal.preterminal c) [⟨w, c⟩] := by
  refine ⟨rfl, ?_, by simp [leaf, leaves, Token.leaf]⟩
  simp [leaf, conforms, NonTerminal.category?_preterminal, Grammar.derives, Grammar.alternatives]

/-- The table from the side of the nonterminals: a row of nonterminals is an alternative exactly
if the table of phrases lists it. -/
theorem derives_nonterminals_iff (n : NonTerminal) (ns : List NonTerminal) :
    Grammar.derives n (ns.map Symbol.nonterminal) = true ↔ ns ∈ Grammar.phrases n := by
  have hinj : Function.Injective (List.map Symbol.nonterminal) :=
    List.map_injective_iff.mpr fun a b h => by cases h; rfl
  have hterm : ∀ c, ns.map Symbol.nonterminal ≠ [Symbol.terminal c] := by
    intro c h
    cases ns <;> simp at h
  rw [Grammar.derives, decide_eq_true_iff, Grammar.alternatives]
  cases hn : n.category? with
  | none => simp only [List.mem_map_of_injective hinj]
  | some c => cases n <;> simp_all [NonTerminal.category?, Grammar.phrases]

theorem derives_node_cons_iff (s n : NonTerminal) (v : Option String) (t : Tree) (ts : List Tree)
    (us : List Token) :
    (node s v (t :: ts)).Derives n us ↔
      s = n ∧ ∃ ns ∈ Grammar.phrases n, DerivesAll (t :: ts) ns us := by
  constructor
  · rintro ⟨hsym, hconf, hleaves⟩
    rw [conforms_node_cons, Bool.and_eq_true, derives_nonterminals_iff] at hconf
    rw [leaves_node_cons] at hleaves
    refine ⟨hsym, _, ?_, ⟨rfl, hconf.2, hleaves⟩⟩
    rw [← hsym]; exact hconf.1
  · rintro ⟨rfl, ns, hns, hsyms, hconf, hleaves⟩
    refine ⟨rfl, ?_, by rw [leaves_node_cons, hleaves]⟩
    rw [conforms_node_cons, Bool.and_eq_true, derives_nonterminals_iff, hsyms]
    exact ⟨hns, hconf⟩

/-- Under a preterminal there is one word. -/
theorem Derives.eq_leaf {t : Tree} {c : Category} {us : List Token}
    (h : t.Derives (.preterminal c) us) :
    ∃ w, us = [⟨w, c⟩] ∧ t = leaf (.preterminal c) w := by
  obtain ⟨s, v, ts⟩ := t
  cases ts with
  | nil =>
    obtain ⟨rfl, -, hleaves⟩ := h
    rw [leaves, eq_comm, List.map_eq_singleton_iff] at hleaves
    obtain ⟨⟨w, d⟩, rfl, hleaf⟩ := hleaves
    obtain ⟨rfl, rfl⟩ := (Token.leaf_eq_iff _ c v).mp hleaf
    exact ⟨w, rfl, rfl⟩
  | cons t ts =>
    obtain ⟨-, ns, hns, -⟩ := (derives_node_cons_iff _ _ _ _ _ _).mp h
    cases c <;> simp [NonTerminal.preterminal, Grammar.phrases] at hns

/-- Under a phrase there is one of its alternatives. -/
theorem Derives.eq_node {t : Tree} {n : NonTerminal} {us : List Token} (h : t.Derives n us)
    (hn : n.category? = none) :
    ∃ v ts ns, t = node n v ts ∧ ns ∈ Grammar.phrases n ∧ DerivesAll ts ns us := by
  obtain ⟨s, v, ts⟩ := t
  cases ts with
  | nil =>
    obtain ⟨rfl, hconf, -⟩ := h
    simp only [symbol] at hn
    simp [conforms, hn] at hconf
  | cons t ts =>
    obtain ⟨rfl, ns, hns, hall⟩ := (derives_node_cons_iff _ _ _ _ _ _).mp h
    exact ⟨v, t :: ts, ns, rfl, hns, hall⟩

theorem DerivesAll.nil_inv {ts : List Tree} {us : List Token} (h : DerivesAll ts [] us) :
    ts = [] ∧ us = [] := by
  obtain ⟨hsyms, -, hleaves⟩ := h
  rw [List.map_eq_nil_iff] at hsyms
  subst hsyms
  rw [leavesAll, eq_comm, List.map_eq_nil_iff] at hleaves
  exact ⟨rfl, hleaves⟩

theorem DerivesAll.unword {ts : List Tree} {n : NonTerminal} {c : Category}
    {ns : List NonTerminal} {us : List Token} (h : DerivesAll ts (n :: ns) us)
    (hn : n.category? = some c) :
    ∃ w ts' us', ts = leaf (.preterminal c) w :: ts' ∧ us = ⟨w, c⟩ :: us' ∧
      DerivesAll ts' ns us' := by
  obtain rfl := Grammar.eq_preterminal hn
  cases ts with
  | nil => cases h.symbols_eq
  | cons t ts =>
    obtain ⟨n, ns', vs, ws, hns, rfl, ht, hts⟩ := h.uncons
    cases hns
    obtain ⟨w, rfl, rfl⟩ := ht.eq_leaf
    exact ⟨w, ts, ws, rfl, rfl, hts⟩

/-- No alternative is empty, so a node above the derivations of one is a derivation. -/
theorem derives_branch {n : NonTerminal} {ts : List Tree} {ns : List NonTerminal}
    {us : List Token} (hns : ns ∈ Grammar.phrases n) (h : DerivesAll ts ns us) :
    (branch n ts).Derives n us := by
  cases ts with
  | nil =>
    have : ns = [] := h.symbols_eq.symm
    subst this
    cases n <;> simp [Grammar.phrases] at hns
  | cons t ts => exact (derives_node_cons_iff n n none t ts us).mpr ⟨rfl, ns, hns, h⟩

end Tree

namespace Grammar

/-! ## Derivable words -/

/-- Some tree derives the words from the nonterminal. -/
def Derivable (n : NonTerminal) (us : List Token) : Prop := ∃ t : Tree, t.Derives n us

/-- The words are derivable piece by piece from the nonterminals. -/
def DerivableAll : List NonTerminal → List Token → Prop
  | [], us => us = []
  | n :: ns, us => ∃ vs ws, us = vs ++ ws ∧ Derivable n vs ∧ DerivableAll ns ws

/-- The words are a sentence of the grammar. -/
def IsSentence (us : List Token) : Prop := Derivable start us

theorem derivableAll_iff (ns : List NonTerminal) (us : List Token) :
    DerivableAll ns us ↔ ∃ ts, Tree.DerivesAll ts ns us := by
  induction ns generalizing us with
  | nil =>
    constructor
    · rintro rfl; exact ⟨[], Tree.derivesAll_nil⟩
    · rintro ⟨ts, hsym, _, hleaves⟩
      rw [List.map_eq_nil_iff] at hsym
      subst hsym
      rw [Tree.leavesAll] at hleaves
      exact List.map_eq_nil_iff.mp hleaves.symm
  | cons n ns ih =>
    constructor
    · rintro ⟨vs, ws, rfl, ⟨t, ht⟩, hws⟩
      obtain ⟨ts, hts⟩ := (ih ws).mp hws
      exact ⟨t :: ts, hts.cons ht⟩
    · rintro ⟨ts, h⟩
      cases ts with
      | nil => cases h.symbols_eq
      | cons t ts =>
        obtain ⟨n', ns', vs, ws, hns, rfl, ht, hts⟩ := h.uncons
        cases hns
        exact ⟨vs, ws, rfl, ⟨t, ht⟩, (ih ws).mpr ⟨ts, hts⟩⟩

/-- A preterminal derives the single words of its category. -/
theorem derivable_preterminal_iff (c : Category) (us : List Token) :
    Derivable (NonTerminal.preterminal c) us ↔ ∃ w, us = [⟨w, c⟩] := by
  constructor
  · rintro ⟨t, h⟩
    obtain ⟨w, rfl, -⟩ := h.eq_leaf
    exact ⟨w, rfl⟩
  · rintro ⟨w, rfl⟩
    exact ⟨_, Tree.derives_leaf c w⟩

/-- A phrase derives what one of its alternatives derives. -/
theorem derivable_phrase_iff (n : NonTerminal) (h : n.category? = none) (us : List Token) :
    Derivable n us ↔ ∃ ns ∈ phrases n, DerivableAll ns us := by
  constructor
  · rintro ⟨t, hd⟩
    obtain ⟨v, ts, ns, -, hns, hall⟩ := hd.eq_node h
    exact ⟨ns, hns, (derivableAll_iff ns us).mpr ⟨ts, hall⟩⟩
  · rintro ⟨ns, hns, hall⟩
    obtain ⟨ts, hts⟩ := (derivableAll_iff ns us).mp hall
    exact ⟨_, Tree.derives_branch hns hts⟩

end Grammar
end Castellano
