import Castellano.Proofs.Parse.Plain

/-!
# Castellano.Proofs.Parse.Soundness

Every tree that the parser gives is a derivation of the words it was given.

`Covers t n ts rest`: the tree `t` derives from `n` exactly the words that stand in `ts` in front
of `rest`, and no node above its leaves holds a word. A reader that succeeds on `ts` and leaves
`rest` gives such a tree (one lemma for each reader), and where a reader drops a failed attempt
the words of the attempt stay in `rest`. `parse_sound` puts the readers together.
-/

namespace Castellano
namespace Parse

open Castellano.Tree Grammar

/-- The tree derives the words of `ts` in front of `rest`, and only its leaves hold words. -/
def Covers (t : Tree) (n : NonTerminal) (ts rest : List Token) : Prop :=
  ∃ us, ts = us ++ rest ∧ t.Derives n us ∧ t.plain = true

/-- The trees derive the words of `ts` in front of `rest` one after the other, and only their
leaves hold words. -/
def CoversAll (parts : List Tree) (ns : List NonTerminal) (ts rest : List Token) : Prop :=
  ∃ us, ts = us ++ rest ∧ DerivesAll parts ns us ∧ plainAll parts = true

theorem coversAll_nil (ts : List Token) : CoversAll [] [] ts ts :=
  ⟨[], rfl, plainDerivesAll_nil.derives, plainDerivesAll_nil.plain_eq⟩

theorem Covers.cons {t : Tree} {parts : List Tree} {n : NonTerminal} {ns : List NonTerminal}
    {ts mid rest : List Token} (h : Covers t n ts mid) (hs : CoversAll parts ns mid rest) :
    CoversAll (t :: parts) (n :: ns) ts rest := by
  obtain ⟨us, rfl, hus, hplain⟩ := h
  obtain ⟨vs, rfl, hvs, hplains⟩ := hs
  have hall := PlainDerives.cons ⟨hus, hplain⟩ ⟨hvs, hplains⟩
  exact ⟨us ++ vs, (List.append_assoc us vs rest).symm, hall.derives, hall.plain_eq⟩

theorem Covers.single {t : Tree} {n : NonTerminal} {ts rest : List Token}
    (h : Covers t n ts rest) : CoversAll [t] [n] ts rest := h.cons (coversAll_nil rest)

theorem CoversAll.branch {n : NonTerminal} {parts : List Tree} {ns : List NonTerminal}
    {ts rest : List Token} (h : CoversAll parts ns ts rest) (hns : ns ∈ phrases n) :
    Covers (Tree.branch n parts) n ts rest := by
  obtain ⟨us, rfl, hus, hplains⟩ := h
  have hbranch := PlainDerivesAll.branch ⟨hus, hplains⟩ hns
  exact ⟨us, rfl, hbranch.derives, hbranch.plain_eq⟩

/-! ## Readers -/

theorem word_ok {c : Category} {ts rest : List Token} {t : Tree} (h : word c ts = .ok (t, rest)) :
    ∃ w, ts = ⟨w, c⟩ :: rest ∧ t = leafOf c w := by
  cases ts with
  | nil => cases h
  | cons u us =>
    simp only [word] at h
    split at h
    · rename_i hc
      cases h
      exact ⟨u.word, by rw [← hc], rfl⟩
    · cases h

theorem word_covers {c : Category} {ts rest : List Token} {t : Tree}
    (h : word c ts = .ok (t, rest)) : Covers t (.preterminal c) ts rest := by
  obtain ⟨w, rfl, rfl⟩ := word_ok h
  have hleaf := plainDerives_leafOf c w
  exact ⟨[⟨w, c⟩], rfl, hleaf.derives, hleaf.plain_eq⟩

theorem adjective?_covers (ts : List Token) :
    CoversAll (adjective? ts).1 [] ts (adjective? ts).2 ∨
      CoversAll (adjective? ts).1 [.adjective] ts (adjective? ts).2 := by
  simp only [adjective?]
  split
  · rename_i h
    exact .inr (word_covers h).single
  · exact .inl (coversAll_nil ts)

theorem nounPhraseParts_covers {ts rest : List Token} {parts : List Tree}
    (h : nounPhraseParts ts = .ok (parts, rest)) :
    ∃ ns ∈ phrases .nounPhrase, CoversAll parts ns ts rest := by
  simp only [nounPhraseParts] at h
  split at h
  · cases h
  · rename_i determiner ts₁ hd
    split at h
    · rename_i adjective ts₂ ha
      split at h
      · cases h
      · rename_i noun ts₃ hn
        cases h
        exact ⟨[.determiner, .adjective, .noun], by simp [phrases],
          (word_covers hd).cons ((word_covers ha).cons (word_covers hn).single)⟩
    · split at h
      · cases h
      · rename_i noun ts₂ hn
        cases h
        rcases adjective?_covers ts₂ with ha | ha
        · exact ⟨[.determiner, .noun], by simp [phrases],
            (word_covers hd).cons ((word_covers hn).cons ha)⟩
        · exact ⟨[.determiner, .noun, .adjective], by simp [phrases],
            (word_covers hd).cons ((word_covers hn).cons ha)⟩

theorem nounPhrase_covers {ts rest : List Token} {t : Tree} (h : nounPhrase ts = .ok (t, rest)) :
    Covers t .nounPhrase ts rest := by
  simp only [nounPhrase] at h
  split at h
  · cases h
  · rename_i parts rest' hp
    cases h
    obtain ⟨ns, hns, hparts⟩ := nounPhraseParts_covers hp
    exact hparts.branch hns

theorem complement_covers (ts : List Token) :
    ∃ ns, .verb :: ns ∈ phrases .verbPhrase ∧
      CoversAll (complement ts).1 ns ts (complement ts).2 := by
  simp only [complement]
  split
  · rename_i h
    exact ⟨[.nounPhrase], by simp [phrases], (nounPhrase_covers h).single⟩
  · rcases adjective?_covers ts with ha | ha
    · exact ⟨[], by simp [phrases], ha⟩
    · exact ⟨[.adjective], by simp [phrases], ha⟩

theorem verbPhrase_covers {ts rest : List Token} {t : Tree} (h : verbPhrase ts = .ok (t, rest)) :
    Covers t .verbPhrase ts rest := by
  simp only [verbPhrase] at h
  split at h
  · cases h
  · rename_i verb ts₁ hv
    cases h
    obtain ⟨ns, hns, hparts⟩ := complement_covers ts₁
    exact ((word_covers hv).cons hparts).branch hns

theorem prepositional_covers {ts rest : List Token} {parts : List Tree}
    (h : prepositional ts = .ok (parts, rest)) :
    CoversAll parts [.preposition, .nounPhrase] ts rest := by
  simp only [prepositional] at h
  split at h
  · cases h
  · rename_i preposition ts₁ hp
    split at h
    · cases h
    · rename_i object ts₂ ho
      cases h
      exact (word_covers hp).cons (nounPhrase_covers ho).single

theorem tail_covers (ts : List Token) :
    ∃ ns, .nounPhrase :: .verbPhrase :: ns ∈ phrases .sentence ∧
      CoversAll (tail ts).1 ns ts (tail ts).2 := by
  simp only [tail]
  split
  · rename_i h
    exact ⟨[.preposition, .nounPhrase], by simp [phrases], prepositional_covers h⟩
  · rcases adjective?_covers ts with ha | ha
    · exact ⟨[], by simp [phrases], ha⟩
    · exact ⟨[.adjective], by simp [phrases], ha⟩

theorem simpleSentence_covers {ts rest : List Token} {t : Tree}
    (h : simpleSentence ts = .ok (t, rest)) : Covers t .sentence ts rest := by
  simp only [simpleSentence] at h
  split at h
  · cases h
  · rename_i subject ts₁ hs
    split at h
    · cases h
    · rename_i predicate ts₂ hp
      cases h
      obtain ⟨ns, hns, hparts⟩ := tail_covers ts₂
      exact ((nounPhrase_covers hs).cons ((verbPhrase_covers hp).cons hparts)).branch hns

theorem coordinatedSentence_covers {ts rest : List Token} {t : Tree}
    (h : coordinatedSentence ts = .ok (t, rest)) : Covers t .sentence ts rest := by
  simp only [coordinatedSentence] at h
  split at h
  · cases h
  · rename_i first ts₁ hf
    split at h
    · cases h
    · rename_i conjunction ts₂ hc
      split at h
      · cases h
      · rename_i second ts₃ hs
        split at h
        · cases h
        · rename_i predicate ts₄ hp
          cases h
          have hparts := (nounPhrase_covers hf).cons ((word_covers hc).cons
            ((nounPhrase_covers hs).cons (verbPhrase_covers hp).single))
          exact hparts.branch (by simp [phrases, NonTerminal.preterminal])

theorem sentence_covers {ts rest : List Token} {t : Tree} (h : sentence ts = .ok (t, rest)) :
    Covers t .sentence ts rest := by
  simp only [sentence] at h
  split at h
  · rename_i result hs
    cases h
    exact simpleSentence_covers hs
  · split at h
    · rename_i result hc
      cases h
      exact coordinatedSentence_covers hc
    · cases h

theorem sentence_of_tree {ts : List Token} {t : Tree} (h : (parse ts).tree? = some t) :
    sentence ts = .ok (t, []) := by
  simp only [parse] at h
  split at h
  · cases h
  · rename_i tree hs
    cases h
    exact hs
  · cases h

end Parse

/-- The tree of a sentence is allowed by the grammar, only its leaves hold words, and its leaves
are the words of the sentence in order. -/
theorem parse_sound (ts : List Token) (t : Tree) (h : (parse ts).tree? = some t) :
    t.symbol = .sentence ∧ t.conforms = true ∧ t.plain = true ∧
      t.leaves = ts.map Token.leaf ∧ t.words = ts.map Token.word := by
  obtain ⟨us, hts, hus, hplain⟩ := Parse.sentence_covers (Parse.sentence_of_tree h)
  rw [List.append_nil] at hts
  subst hts
  refine ⟨hus.symbol_eq, hus.conforms_eq, hplain, hus.leaves_eq, ?_⟩
  rw [Tree.words_of_plain t hplain, hus.leaves_eq]
  simp [Token.leaf, Function.comp_def]

/-- The case of two subjects, where the attempt to read a sentence with one has failed before. -/
theorem parse_sound_coordinated :
    let ts : List Token := [⟨"el", .article⟩, ⟨"sol", .noun⟩, ⟨"o", .conjunction⟩,
      ⟨"la", .article⟩, ⟨"gran", .adjective⟩, ⟨"luna", .noun⟩, ⟨"sale", .verb⟩]
    ∃ t, (parse ts).tree? = some t ∧ t.symbol = .sentence ∧ t.conforms = true ∧
      t.plain = true ∧ t.leaves = ts.map Token.leaf ∧ t.words = ts.map Token.word := by
  intro ts
  exact ⟨_, rfl, parse_sound ts _ rfl⟩

end Castellano
