import Castellano.Agreement
import Castellano.Proofs.Grammar.Derivation

/-!
# Castellano.Proofs.Agreement.Pairs

Agreement read off the words of a sentence. An article belongs to the first noun behind it
(`articlePairs`), so the mismatches in the tree of a sentence are those of a scan of its words from
left to right (`scans_sentence`).

The tree is taken apart by the symbols of the grammar. What stands under a symbol other than a
determiner is `Paired`: each article has its noun there, so the scans of neighbours do not mix.
-/

namespace Castellano

open Grammar

/-! ## Articles and their nouns -/

def firstNoun? (ts : List Token) : Option Token := ts.find? fun t => decide (t.category = .noun)

/-- A word in front of others with its noun, if it is an article and there is a noun. -/
def articlePair? (t : Token) (ts : List Token) : Option (Token × Token) :=
  if t.category = .article then (firstNoun? ts).map fun n => (t, n) else none

/-- Every article with the first noun behind it. -/
def articlePairs : List Token → List (Token × Token)
  | [] => []
  | t :: ts => (articlePair? t ts).toList ++ articlePairs ts

/-- Every article has a noun behind it. -/
def Paired : List Token → Prop
  | [] => True
  | t :: ts => (t.category = .article → (firstNoun? ts).isSome = true) ∧ Paired ts

theorem firstNoun?_append {us : List Token} (h : (firstNoun? us).isSome = true)
    (vs : List Token) : firstNoun? (us ++ vs) = firstNoun? us := by
  obtain ⟨n, hn⟩ := Option.isSome_iff_exists.mp h
  simp only [firstNoun?] at hn ⊢
  rw [List.find?_append, hn, Option.some_or]

theorem Paired.append {us vs : List Token} (hus : Paired us) (hvs : Paired vs) :
    Paired (us ++ vs) := by
  induction us with
  | nil => exact hvs
  | cons u us ih =>
    rw [List.cons_append, Paired]
    refine ⟨fun hu => ?_, ih hus.2⟩
    have hnoun := hus.1 hu
    rw [firstNoun?_append hnoun]
    exact hnoun

theorem articlePairs_append {us : List Token} (hus : Paired us) (vs : List Token) :
    articlePairs (us ++ vs) = articlePairs us ++ articlePairs vs := by
  induction us with
  | nil => rfl
  | cons u us ih =>
    have hpair : articlePair? u (us ++ vs) = articlePair? u us := by
      by_cases hu : u.category = .article
      · rw [articlePair?, articlePair?, firstNoun?_append (hus.1 hu)]
      · rw [articlePair?, articlePair?, if_neg hu, if_neg hu]
    rw [List.cons_append, articlePairs, articlePairs, hpair, ih hus.2, List.append_assoc]

/-! ## Trees -/

namespace Vocabulary

/-- The mismatches of articles and their nouns. -/
def scan (v : Vocabulary) (ts : List Token) : List Mismatch :=
  (articlePairs ts).filterMap fun p => v.mismatch? p.1.word p.2.word

theorem scan_append (v : Vocabulary) {us : List Token} (hus : Paired us) (vs : List Token) :
    v.scan (us ++ vs) = v.scan us ++ v.scan vs := by
  rw [scan, articlePairs_append hus, List.filterMap_append, scan, scan]

/-- Under the symbol, articles have their nouns and the scan of the words finds the mismatches. -/
def Scans (v : Vocabulary) (n : NonTerminal) : Prop :=
  ∀ (t : Tree) (us : List Token), t.Derives n us → Paired us ∧ v.mismatches t = v.scan us

theorem scan_of_derivesAll {v : Vocabulary} {ts : List Tree} {ns : List NonTerminal}
    {us : List Token} (h : Tree.DerivesAll ts ns us) (hns : ∀ n ∈ ns, v.Scans n) :
    Paired us ∧ v.mismatchesAll ts = v.scan us := by
  induction ts generalizing ns us with
  | nil =>
    obtain ⟨-, -, hleaves⟩ := h
    rw [Tree.leavesAll, eq_comm, List.map_eq_nil_iff] at hleaves
    rw [hleaves]
    exact ⟨trivial, by simp [mismatchesAll, scan, articlePairs]⟩
  | cons t ts ih =>
    obtain ⟨n, ns', vs, ws, rfl, rfl, ht, hts⟩ := h.uncons
    obtain ⟨hvs, hscan⟩ := hns n List.mem_cons_self t vs ht
    obtain ⟨hws, hscans⟩ := ih hts fun m hm => hns m (List.mem_cons_of_mem n hm)
    exact ⟨hvs.append hws, by rw [mismatchesAll, hscan, hscans, v.scan_append hvs]⟩

theorem mismatches_leaf (v : Vocabulary) (c : Category) (w : String) :
    v.mismatches (Tree.leaf (.preterminal c) w) = [] := by
  cases c <;> simp [Tree.leaf, NonTerminal.preterminal, mismatches, mismatchesAll, nodeMismatch?,
    Tree.symbol]

theorem scans_preterminal (v : Vocabulary) {c : Category} (hc : c ≠ .article) :
    v.Scans (.preterminal c) := by
  intro t us h
  obtain ⟨w, rfl, rfl⟩ := h.eq_leaf
  refine ⟨⟨fun h => absurd h hc, trivial⟩, ?_⟩
  rw [mismatches_leaf]
  simp [scan, articlePairs, articlePair?, hc]

theorem mismatches_nounPhrase {v : Vocabulary} {x : Option String} {ts : List Tree}
    {us : List Token} {d n : String}
    (hnode : v.nodeMismatch? (.node .nounPhrase x ts) = v.mismatch? d n)
    (hts : v.mismatchesAll ts = [])
    (hpairs : articlePairs us = [(⟨d, .article⟩, ⟨n, .noun⟩)]) :
    v.mismatches (.node .nounPhrase x ts) = v.scan us := by
  rw [mismatches, hnode, hts, scan, hpairs]
  cases hm : v.mismatch? d n <;> simp [hm]

theorem scans_nounPhrase (v : Vocabulary) : v.Scans .nounPhrase := by
  intro t us h
  obtain ⟨x, ts, ns, rfl, hns, hts⟩ := h.eq_node rfl
  simp only [phrases, List.mem_cons, List.not_mem_nil, or_false] at hns
  rcases hns with rfl | rfl | rfl
  · obtain ⟨d, ts, us, rfl, rfl, h₁⟩ := hts.unword rfl
    obtain ⟨n, ts, us, rfl, rfl, h₂⟩ := h₁.unword rfl
    obtain ⟨rfl, rfl⟩ := h₂.nil_inv
    refine ⟨by simp [Paired, firstNoun?], mismatches_nounPhrase rfl ?_ rfl⟩
    simp [mismatchesAll, mismatches_leaf]
  · obtain ⟨d, ts, us, rfl, rfl, h₁⟩ := hts.unword rfl
    obtain ⟨n, ts, us, rfl, rfl, h₂⟩ := h₁.unword rfl
    obtain ⟨a, ts, us, rfl, rfl, h₃⟩ := h₂.unword rfl
    obtain ⟨rfl, rfl⟩ := h₃.nil_inv
    refine ⟨by simp [Paired, firstNoun?], mismatches_nounPhrase rfl ?_ rfl⟩
    simp [mismatchesAll, mismatches_leaf]
  · obtain ⟨d, ts, us, rfl, rfl, h₁⟩ := hts.unword rfl
    obtain ⟨a, ts, us, rfl, rfl, h₂⟩ := h₁.unword rfl
    obtain ⟨n, ts, us, rfl, rfl, h₃⟩ := h₂.unword rfl
    obtain ⟨rfl, rfl⟩ := h₃.nil_inv
    refine ⟨by simp [Paired, firstNoun?], mismatches_nounPhrase rfl ?_ rfl⟩
    simp [mismatchesAll, mismatches_leaf]

/-- A phrase that is no noun phrase has the mismatches of its parts. -/
theorem scans_phrase {v : Vocabulary} {n : NonTerminal} (hn : n.category? = none)
    (hne : n ≠ .nounPhrase) (h : ∀ ns ∈ phrases n, ∀ m ∈ ns, v.Scans m) : v.Scans n := by
  intro t us ht
  obtain ⟨x, ts, ns, rfl, hns, hts⟩ := ht.eq_node hn
  obtain ⟨hpaired, hscan⟩ := scan_of_derivesAll hts (h ns hns)
  have hnone : v.nodeMismatch? (.node n x ts) = none := if_neg hne
  refine ⟨hpaired, ?_⟩
  rw [mismatches, hnone, hscan]
  rfl

theorem scans_verbPhrase (v : Vocabulary) : v.Scans .verbPhrase := by
  have hparts : ∀ ns ∈ phrases .verbPhrase, ∀ m ∈ ns, m ∈ [.verb, .nounPhrase, .adjective] := by
    decide
  refine scans_phrase rfl (by decide) fun ns hns m hm => ?_
  have hm := hparts ns hns m hm
  simp only [List.mem_cons, List.not_mem_nil, or_false] at hm
  rcases hm with rfl | rfl | rfl
  · exact v.scans_preterminal (c := .verb) (by decide)
  · exact v.scans_nounPhrase
  · exact v.scans_preterminal (c := .adjective) (by decide)

theorem scans_sentence (v : Vocabulary) : v.Scans .sentence := by
  have hparts : ∀ ns ∈ phrases .sentence, ∀ m ∈ ns,
      m ∈ [.nounPhrase, .verbPhrase, .preposition, .conjunction, .adjective] := by
    decide
  refine scans_phrase rfl (by decide) fun ns hns m hm => ?_
  have hm := hparts ns hns m hm
  simp only [List.mem_cons, List.not_mem_nil, or_false] at hm
  rcases hm with rfl | rfl | rfl | rfl | rfl
  · exact v.scans_nounPhrase
  · exact v.scans_verbPhrase
  · exact v.scans_preterminal (c := .preposition) (by decide)
  · exact v.scans_preterminal (c := .conjunction) (by decide)
  · exact v.scans_preterminal (c := .adjective) (by decide)

/-! ## Agreement throughout -/

/-- Every article has a noun behind it and agrees with the first one. -/
def AgreesThroughout (v : Vocabulary) (ts : List Token) : Prop :=
  ∀ before article after, ts = before ++ article :: after → article.category = .article →
    ∃ noun, firstNoun? after = some noun ∧ v.agrees article.word noun.word = true

theorem agreesThroughout_nil (v : Vocabulary) : v.AgreesThroughout [] := by
  intro before article after h
  simp at h

theorem agreesThroughout_cons_iff (v : Vocabulary) (t : Token) (ts : List Token) :
    v.AgreesThroughout (t :: ts) ↔
      (t.category = .article →
        ∃ noun, firstNoun? ts = some noun ∧ v.agrees t.word noun.word = true) ∧
      v.AgreesThroughout ts := by
  constructor
  · intro h
    refine ⟨h [] t ts rfl, fun before article after hts => ?_⟩
    exact h (t :: before) article after (by rw [hts, List.cons_append])
  · rintro ⟨hfirst, hrest⟩ before article after hts
    cases before with
    | nil =>
      obtain ⟨rfl, rfl⟩ := List.cons.inj hts
      exact hfirst
    | cons u before =>
      obtain ⟨-, rfl⟩ := List.cons.inj hts
      exact hrest before article after rfl

theorem scan_eq_nil_iff (v : Vocabulary) {ts : List Token} (h : Paired ts) :
    v.scan ts = [] ↔ v.AgreesThroughout ts := by
  induction ts with
  | nil => exact ⟨fun _ => v.agreesThroughout_nil, fun _ => rfl⟩
  | cons t ts ih =>
    rw [agreesThroughout_cons_iff, ← ih h.2, scan, articlePairs, List.filterMap_append,
      List.append_eq_nil_iff, ← scan]
    refine and_congr_left fun _ => ?_
    rw [articlePair?]
    by_cases ht : t.category = .article
    · obtain ⟨n, hn⟩ := Option.isSome_iff_exists.mp (h.1 ht)
      simp [ht, hn, mismatch?]
    · simp [ht]

end Vocabulary
end Castellano
