import Castellano.Parse.Basic
import Castellano.Proofs.Grammar.Derivation

/-!
# Castellano.Proofs.Parse.Plain

Derivations in which only the leaves hold words, as the parser makes them (`PlainDerives`): how
they are put together from parts, and how they fall into parts. The words of a tree are those of
its parts, one after the other, so taking a tree apart takes its words apart with it.
-/

namespace Castellano

open Grammar Parse

namespace Tree

/-- The tree is a derivation of the words, and only its leaves hold words. -/
structure PlainDerives (t : Tree) (n : NonTerminal) (us : List Token) : Prop where
  derives : t.Derives n us
  plain_eq : t.plain = true

/-- The trees are derivations of the words one after the other, and only leaves hold words. -/
structure PlainDerivesAll (ts : List Tree) (ns : List NonTerminal) (us : List Token) : Prop where
  derives : DerivesAll ts ns us
  plain_eq : plainAll ts = true

/-! ## Putting together -/

theorem plainDerivesAll_nil : PlainDerivesAll [] [] [] :=
  ⟨derivesAll_nil, by simp [plainAll]⟩

theorem PlainDerives.cons {t : Tree} {ts : List Tree} {n : NonTerminal} {ns : List NonTerminal}
    {us vs : List Token} (h : t.PlainDerives n us) (hs : PlainDerivesAll ts ns vs) :
    PlainDerivesAll (t :: ts) (n :: ns) (us ++ vs) :=
  ⟨hs.derives.cons h.derives, by rw [plainAll, h.plain_eq, hs.plain_eq]; rfl⟩

theorem plainDerives_leafOf (c : Category) (w : String) :
    (leafOf c w).PlainDerives (.preterminal c) [⟨w, c⟩] :=
  ⟨derives_leaf c w, by simp [leafOf, leaf, plain]⟩

theorem PlainDerivesAll.word {ts : List Tree} {n : NonTerminal} {ns : List NonTerminal}
    {us : List Token} (h : PlainDerivesAll ts ns us) {c : Category} (hn : n.category? = some c)
    (w : String) : PlainDerivesAll (leafOf c w :: ts) (n :: ns) (⟨w, c⟩ :: us) := by
  rw [eq_preterminal hn]
  exact (plainDerives_leafOf c w).cons h

theorem PlainDerivesAll.branch {n : NonTerminal} {ts : List Tree} {ns : List NonTerminal}
    {us : List Token} (h : PlainDerivesAll ts ns us) (hns : ns ∈ phrases n) :
    (branch n ts).PlainDerives n us := by
  refine ⟨derives_branch hns h.derives, ?_⟩
  cases ts with
  | nil => simp [Tree.branch, plain]
  | cons t ts => simpa [Tree.branch, plain, plainAll] using h.plain_eq

/-! ## Taking apart -/

theorem PlainDerives.eq_branch {t : Tree} {n : NonTerminal} {us : List Token}
    (h : t.PlainDerives n us) (hn : n.category? = none) :
    ∃ ts ns, t = branch n ts ∧ ns ∈ phrases n ∧ PlainDerivesAll ts ns us := by
  obtain ⟨v, ts, ns, rfl, hns, hall⟩ := h.derives.eq_node hn
  have hplain := h.plain_eq
  cases ts with
  | nil =>
    have hnil : ns = [] := hall.symbols_eq.symm
    subst hnil
    cases n <;> simp [phrases] at hns
  | cons t ts =>
    simp only [plain, Bool.and_eq_true, Option.isNone_iff_eq_none] at hplain
    obtain ⟨rfl, ht, hts⟩ := hplain
    exact ⟨t :: ts, ns, rfl, hns, hall, by rw [plainAll, ht, hts]; rfl⟩

theorem PlainDerivesAll.nil_inv {ts : List Tree} {us : List Token}
    (h : PlainDerivesAll ts [] us) : ts = [] ∧ us = [] := h.derives.nil_inv

theorem PlainDerivesAll.uncons {ts : List Tree} {n : NonTerminal} {ns : List NonTerminal}
    {us : List Token} (h : PlainDerivesAll ts (n :: ns) us) :
    ∃ t ts' vs ws, ts = t :: ts' ∧ us = vs ++ ws ∧ t.PlainDerives n vs ∧
      PlainDerivesAll ts' ns ws := by
  have hplain := h.plain_eq
  cases ts with
  | nil => cases h.derives.symbols_eq
  | cons t ts =>
    obtain ⟨n', ns', vs, ws, hns, rfl, ht, hts⟩ := h.derives.uncons
    cases hns
    rw [plainAll, Bool.and_eq_true] at hplain
    exact ⟨t, ts, vs, ws, rfl, rfl, ⟨ht, hplain.1⟩, hts, hplain.2⟩

theorem PlainDerivesAll.single_inv {ts : List Tree} {n : NonTerminal} {us : List Token}
    (h : PlainDerivesAll ts [n] us) : ∃ t, ts = [t] ∧ t.PlainDerives n us := by
  obtain ⟨t, ts, vs, ws, rfl, rfl, ht, hts⟩ := h.uncons
  obtain ⟨rfl, rfl⟩ := hts.nil_inv
  exact ⟨t, rfl, by rw [List.append_nil]; exact ht⟩

theorem PlainDerivesAll.unword {ts : List Tree} {n : NonTerminal} {ns : List NonTerminal}
    {us : List Token} (h : PlainDerivesAll ts (n :: ns) us) {c : Category}
    (hn : n.category? = some c) :
    ∃ w ts' vs, ts = leafOf c w :: ts' ∧ us = ⟨w, c⟩ :: vs ∧ PlainDerivesAll ts' ns vs := by
  have hplain := h.plain_eq
  obtain ⟨w, ts, vs, rfl, rfl, hts⟩ := h.derives.unword hn
  rw [plainAll, Bool.and_eq_true] at hplain
  exact ⟨w, ts, vs, rfl, rfl, hts, hplain.2⟩

end Tree
end Castellano
