import Castellano.Proofs.Parse.Longest

/-!
# Castellano.Proofs.Parse.Unique

Phrases have one tree each. Some tree of the words exists (`exists_plainDerives_nounPhrase`,
`exists_plainDerives_verbPhrase`), and any such tree is the one that the parser reads:
`PlainDerives.nounPhrase_read` says this of a noun phrase in front of other words, and
`PlainDerives.verbPhrase_read` of a verb phrase at the end. Since a reader gives one tree, two trees
of the same words are equal.
-/

namespace Castellano

open Grammar Parse

namespace Tree

/-! ## Existence -/

theorem exists_plainDerives_nounPhrase {us : List Token} (h : NounPhrase us) :
    ∃ t : Tree, t.PlainDerives .nounPhrase us := by
  cases h with
  | bare d n =>
    have hparts := (plainDerivesAll_nil.word (n := .noun) rfl n).word (n := .determiner) rfl d
    exact ⟨_, hparts.branch (by simp [phrases])⟩
  | after d n a =>
    have hparts := ((plainDerivesAll_nil.word (n := .adjective) rfl a).word (n := .noun) rfl n).word
      (n := .determiner) rfl d
    exact ⟨_, hparts.branch (by simp [phrases])⟩
  | before d a n =>
    have hparts := ((plainDerivesAll_nil.word (n := .noun) rfl n).word (n := .adjective) rfl a).word
      (n := .determiner) rfl d
    exact ⟨_, hparts.branch (by simp [phrases])⟩

theorem exists_plainDerives_verbPhrase {us : List Token} (h : VerbPhrase us) :
    ∃ t : Tree, t.PlainDerives .verbPhrase us := by
  cases h with
  | verb v hc =>
    cases hc with
    | nothing =>
      have hparts := plainDerivesAll_nil.word (n := .verb) rfl v
      exact ⟨_, hparts.branch (by simp [phrases])⟩
    | object hnp =>
      obtain ⟨object, ho⟩ := exists_plainDerives_nounPhrase hnp
      have hparts := (ho.cons plainDerivesAll_nil).word (n := .verb) rfl v
      rw [List.append_nil] at hparts
      exact ⟨_, hparts.branch (by simp [phrases])⟩
    | adjective a =>
      have hparts := (plainDerivesAll_nil.word (n := .adjective) rfl a).word (n := .verb) rfl v
      exact ⟨_, hparts.branch (by simp [phrases])⟩

/-! ## Reading -/

theorem PlainDerives.nounPhrase {t : Tree} {us : List Token}
    (h : t.PlainDerives .nounPhrase us) : NounPhrase us :=
  (derivable_nounPhrase_iff us).mp ⟨t, h.derives⟩

theorem PlainDerives.verbPhrase {t : Tree} {us : List Token}
    (h : t.PlainDerives .verbPhrase us) : VerbPhrase us :=
  (derivable_verbPhrase_iff us).mp ⟨t, h.derives⟩

/-- The only tree of a noun phrase is the one that is read, whatever comes behind its words; but a
bare noun must not be followed by an adjective, which would be read along with it. -/
theorem PlainDerives.nounPhrase_read {t : Tree} {us : List Token}
    (h : t.PlainDerives .nounPhrase us) {rest : List Token}
    (hrest : us.length = 2 → ahead rest ≠ some .adjective) :
    Parse.nounPhrase (us ++ rest) = .ok (t, rest) := by
  obtain ⟨ts, ns, rfl, hns, hts⟩ := h.eq_branch rfl
  simp only [phrases, List.mem_cons, List.not_mem_nil, or_false] at hns
  rcases hns with rfl | rfl | rfl
  · obtain ⟨d, ts, us, rfl, rfl, h₁⟩ := hts.unword rfl
    obtain ⟨n, ts, us, rfl, rfl, h₂⟩ := h₁.unword rfl
    obtain ⟨rfl, rfl⟩ := h₂.nil_inv
    simp [Parse.nounPhrase, nounPhraseParts, word, adjective?_of_ahead_ne (hrest rfl)]
  · obtain ⟨d, ts, us, rfl, rfl, h₁⟩ := hts.unword rfl
    obtain ⟨n, ts, us, rfl, rfl, h₂⟩ := h₁.unword rfl
    obtain ⟨a, ts, us, rfl, rfl, h₃⟩ := h₂.unword rfl
    obtain ⟨rfl, rfl⟩ := h₃.nil_inv
    simp [Parse.nounPhrase, nounPhraseParts, word, adjective?_cons]
  · obtain ⟨d, ts, us, rfl, rfl, h₁⟩ := hts.unword rfl
    obtain ⟨a, ts, us, rfl, rfl, h₂⟩ := h₁.unword rfl
    obtain ⟨n, ts, us, rfl, rfl, h₃⟩ := h₂.unword rfl
    obtain ⟨rfl, rfl⟩ := h₃.nil_inv
    simp [Parse.nounPhrase, nounPhraseParts, word]

/-- Where no adjective follows, words begin with one noun phrase, which has one tree. -/
theorem PlainDerives.nounPhrase_unique {t u : Tree} {us vs rest rest' : List Token}
    (ht : t.PlainDerives .nounPhrase us) (hu : u.PlainDerives .nounPhrase vs)
    (hrest : ahead rest ≠ some .adjective) (hrest' : ahead rest' ≠ some .adjective)
    (h : us ++ rest = vs ++ rest') : t = u ∧ us = vs ∧ rest = rest' := by
  have hread := ht.nounPhrase_read fun _ => hrest
  rw [h, hu.nounPhrase_read fun _ => hrest'] at hread
  cases hread
  exact ⟨rfl, List.append_cancel_right h, rfl⟩

/-- The only tree of a verb phrase is the one that is read where its words end. -/
theorem PlainDerives.verbPhrase_read {t : Tree} {us : List Token}
    (h : t.PlainDerives .verbPhrase us) : Parse.verbPhrase us = .ok (t, []) := by
  obtain ⟨ts, ns, rfl, hns, hts⟩ := h.eq_branch rfl
  simp only [phrases, List.mem_cons, List.not_mem_nil, or_false] at hns
  rcases hns with rfl | rfl | rfl
  · obtain ⟨v, ts, us, rfl, rfl, h₁⟩ := hts.unword rfl
    obtain ⟨rfl, rfl⟩ := h₁.nil_inv
    rfl
  · obtain ⟨v, ts, us, rfl, rfl, h₁⟩ := hts.unword rfl
    obtain ⟨object, rfl, ho⟩ := h₁.single_inv
    have hread : Parse.nounPhrase (us ++ []) = .ok (object, []) := ho.nounPhrase_read (by simp)
    rw [List.append_nil] at hread
    simp [Parse.verbPhrase, word_cons, complement, hread]
  · obtain ⟨v, ts, us, rfl, rfl, h₁⟩ := hts.unword rfl
    obtain ⟨a, ts, us, rfl, rfl, h₂⟩ := h₁.unword rfl
    obtain ⟨rfl, rfl⟩ := h₂.nil_inv
    rfl

theorem PlainDerives.verbPhrase_unique {t u : Tree} {us : List Token}
    (ht : t.PlainDerives .verbPhrase us) (hu : u.PlainDerives .verbPhrase us) : t = u := by
  have hread := ht.verbPhrase_read.symm.trans hu.verbPhrase_read
  cases hread
  rfl

end Tree

namespace Parse

/-- What is read as a noun phrase is read again behind the same words, if no other category than
before is ahead there: the reader looks no further than at the word behind the phrase. -/
theorem nounPhrase_congr {ts rest : List Token} {s : Tree} (h : nounPhrase ts = .ok (s, rest)) :
    ∃ us, us ++ rest = ts ∧ NounPhrase us ∧
      ∀ rest', ahead rest' = ahead rest → nounPhrase (us ++ rest') = .ok (s, rest') := by
  obtain ⟨us, rfl, hs, hplain⟩ := nounPhrase_covers h
  have hphrase : s.PlainDerives .nounPhrase us := ⟨hs, hplain⟩
  refine ⟨us, rfl, hphrase.nounPhrase, fun rest' hrest => hphrase.nounPhrase_read ?_⟩
  intro htwo
  rw [hrest]
  intro ha
  obtain ⟨a, rest, rfl, -⟩ := word_of_ahead ha
  cases hphrase.nounPhrase with
  | bare d n =>
    -- the adjective would have been taken as well
    obtain ⟨t, ht⟩ := nounPhrase_cons_adjective d n a rest
    simp only [List.cons_append, List.nil_append, ht, Except.ok.injEq, Prod.mk.injEq] at h
    exact absurd h.2.symm (List.cons_ne_self _ _)
  | after d n a => simp at htwo
  | before d a n => simp at htwo

end Parse
end Castellano
