import Castellano.Analysis
import Castellano.Proofs.Agreement.Pairs
import Castellano.Proofs.Parse.Longest

/-!
# Castellano.Proofs.Analysis.Validity

What it takes for a sentence to be valid: the grammar derives its words, and, if agreement counts,
every article agrees with its noun. The shortest sentences have three words.
-/

namespace Castellano

open Grammar

/-- Classified words are valid exactly if they are a sentence and, as far as it counts, agree. -/
theorem Analyzer.valid_analyzeTokens_iff (a : Analyzer) (ts : List Token) :
    (a.analyzeTokens ts).valid = true ↔
      IsSentence ts ∧ (a.checksAgreement = true → a.vocabulary.AgreesThroughout ts) := by
  rw [Report.valid, analyzeTokens, Bool.and_eq_true, List.isEmpty_iff]
  have houtcome := Parse.parse_outcome ts
  generalize parse ts = r at houtcome ⊢
  cases houtcome with
  | accepted t h =>
    obtain ⟨hpaired, hscan⟩ := a.vocabulary.scans_sentence t ts h
    have hsentence : IsSentence ts := ⟨t, h⟩
    have hmismatches : a.mismatches (.accepted t) =
        if a.checksAgreement then a.vocabulary.scan ts else [] := by
      simp only [mismatches, Parse.Result.accepted, hscan]
    rw [hmismatches, ← a.vocabulary.scan_eq_nil_iff hpaired]
    cases a.checksAgreement <;> simp [Parse.Result.accepted, hsentence]
  | unconsumed us rest hts hne h =>
    have hno := h.not_isSentence hts hne
    simp [Parse.Result.refused, hno]
  | noProduction first second h =>
    have hno := h ts (List.prefix_refl ts)
    simp [Parse.Result.refused, hno]

/-! ## Three words -/

theorem Grammar.NounPhrase.two_le_length {us : List Token} (h : NounPhrase us) :
    2 ≤ us.length := by
  cases h <;> simp

/-- A sentence of three words is an article, a noun and a verb. -/
theorem isSentence_three_iff (t u w : Token) :
    IsSentence [t, u, w] ↔ t.category = .article ∧ u.category = .noun ∧ w.category = .verb := by
  rw [isSentence_iff]
  constructor
  · intro h
    generalize hts : [t, u, w] = ts at h
    have hlength := congrArg List.length hts
    simp only [List.length_cons, List.length_nil] at hlength
    rcases h with h | h
    · cases h with
      | mk hus hvs _ =>
        cases hvs with
        | verb x _ =>
          cases hus with
          | bare d n =>
            simp only [List.cons_append, List.nil_append, List.cons.injEq] at hts
            obtain ⟨rfl, rfl, rfl, -⟩ := hts
            exact ⟨rfl, rfl, rfl⟩
          | after d n a => simp at hlength
          | before d a n => simp at hlength
    · -- two noun phrases and a conjunction are too much
      cases h with
      | mk c hus hvs _ =>
        have hfirst := hus.two_le_length
        have hsecond := hvs.two_le_length
        simp only [List.length_append, List.length_cons] at hlength
        omega
  · obtain ⟨d, _⟩ := t
    obtain ⟨n, _⟩ := u
    obtain ⟨x, _⟩ := w
    rintro ⟨rfl, rfl, rfl⟩
    exact .inl (.mk (.bare d n) (.verb x .nothing) .nothing)

end Castellano
