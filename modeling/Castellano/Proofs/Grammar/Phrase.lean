import Castellano.Proofs.Grammar.Derivation

/-!
# Castellano.Proofs.Grammar.Phrase

The phrases of the grammar written out as words.

The grammar has no recursion, so the derivable lists of words have finitely many forms: a noun
phrase has three, a verb phrase is a verb with one of five complements, and a sentence is either
`Simple` (a subject, a predicate and an `Adjunct`) or `Coordinated` (two subjects and a predicate).
`isSentence_iff` and its companions say that these forms are what the table derives.
-/

namespace Castellano
namespace Grammar

/-- The category of the first word. -/
def ahead (us : List Token) : Option Category := us.head?.map Token.category

@[simp] theorem ahead_nil : ahead [] = none := rfl

@[simp] theorem ahead_cons (u : Token) (us : List Token) : ahead (u :: us) = some u.category := rfl

/-! ## Forms -/

/-- A determiner and a noun, with at most one adjective. -/
inductive NounPhrase : List Token → Prop where
  | bare (d n : String) : NounPhrase [⟨d, .article⟩, ⟨n, .noun⟩]
  | after (d n a : String) : NounPhrase [⟨d, .article⟩, ⟨n, .noun⟩, ⟨a, .adjective⟩]
  | before (d a n : String) : NounPhrase [⟨d, .article⟩, ⟨a, .adjective⟩, ⟨n, .noun⟩]

/-- What follows a verb in its phrase. -/
inductive Complement : List Token → Prop where
  | nothing : Complement []
  | object {us : List Token} : NounPhrase us → Complement us
  | adjective (a : String) : Complement [⟨a, .adjective⟩]

/-- A verb with a complement. -/
inductive VerbPhrase : List Token → Prop where
  | verb (v : String) {us : List Token} : Complement us → VerbPhrase (⟨v, .verb⟩ :: us)

/-- What follows subject and predicate. -/
inductive Adjunct : List Token → Prop where
  | nothing : Adjunct []
  | prepositional (p : String) {us : List Token} :
      NounPhrase us → Adjunct (⟨p, .preposition⟩ :: us)
  | adjective (a : String) : Adjunct [⟨a, .adjective⟩]

/-- A sentence with one subject. -/
inductive Simple : List Token → Prop where
  | mk {us vs ws : List Token} :
      NounPhrase us → VerbPhrase vs → Adjunct ws → Simple (us ++ (vs ++ ws))

/-- A sentence with two subjects. -/
inductive Coordinated : List Token → Prop where
  | mk {us vs ws : List Token} (c : String) :
      NounPhrase us → NounPhrase vs → VerbPhrase ws →
      Coordinated (us ++ ⟨c, .conjunction⟩ :: (vs ++ ws))

theorem VerbPhrase.ahead {us : List Token} (h : VerbPhrase us) (vs : List Token) :
    Grammar.ahead (us ++ vs) = some .verb := by
  cases h; rfl

theorem VerbPhrase.ahead_ne {us : List Token} (h : VerbPhrase us) (vs : List Token) :
    Grammar.ahead (us ++ vs) ≠ some .adjective := by
  rw [h.ahead]; simp

theorem NounPhrase.length_pos {us : List Token} (h : NounPhrase us) : 0 < us.length := by
  cases h <;> simp

theorem NounPhrase.no_preposition {us : List Token} (h : NounPhrase us) :
    ∀ u ∈ us, u.category ≠ .preposition := by
  cases h <;> simp

theorem VerbPhrase.no_preposition {us : List Token} (h : VerbPhrase us) :
    ∀ u ∈ us, u.category ≠ .preposition := by
  cases h with
  | verb v hc =>
    cases hc with
    | nothing => simp
    | object hnp => simpa using hnp.no_preposition
    | adjective a => simp

/-! ## The forms are what the table derives -/

theorem derivableAll_singleton_iff (n : NonTerminal) (us : List Token) :
    DerivableAll [n] us ↔ Derivable n us := by
  constructor
  · rintro ⟨vs, ws, rfl, hvs, rfl⟩
    rw [List.append_nil]; exact hvs
  · intro h
    exact ⟨us, [], (List.append_nil us).symm, h, rfl⟩

theorem DerivableAll.word {n : NonTerminal} {c : Category} {ns : List NonTerminal}
    {us : List Token} (hn : n.category? = some c) (w : String) (h : DerivableAll ns us) :
    DerivableAll (n :: ns) (⟨w, c⟩ :: us) := by
  rw [eq_preterminal hn]
  exact ⟨[⟨w, c⟩], us, rfl, (derivable_preterminal_iff c _).mpr ⟨w, rfl⟩, h⟩

theorem DerivableAll.unword {n : NonTerminal} {c : Category} {ns : List NonTerminal}
    {us : List Token} (hn : n.category? = some c) (h : DerivableAll (n :: ns) us) :
    ∃ w vs, us = ⟨w, c⟩ :: vs ∧ DerivableAll ns vs := by
  rw [eq_preterminal hn] at h
  obtain ⟨vs, ws, rfl, hvs, hws⟩ := h
  obtain ⟨w, rfl⟩ := (derivable_preterminal_iff c vs).mp hvs
  exact ⟨w, ws, rfl, hws⟩

theorem derivable_nounPhrase_iff (us : List Token) :
    Derivable .nounPhrase us ↔ NounPhrase us := by
  rw [derivable_phrase_iff .nounPhrase rfl]
  constructor
  · rintro ⟨ns, hns, h⟩
    simp only [phrases, List.mem_cons, List.not_mem_nil, or_false] at hns
    rcases hns with rfl | rfl | rfl
    · obtain ⟨d, us, rfl, h₁⟩ := h.unword rfl
      obtain ⟨n, us, rfl, rfl⟩ := h₁.unword rfl
      exact .bare d n
    · obtain ⟨d, us, rfl, h₁⟩ := h.unword rfl
      obtain ⟨n, us, rfl, h₂⟩ := h₁.unword rfl
      obtain ⟨a, us, rfl, rfl⟩ := h₂.unword rfl
      exact .after d n a
    · obtain ⟨d, us, rfl, h₁⟩ := h.unword rfl
      obtain ⟨a, us, rfl, h₂⟩ := h₁.unword rfl
      obtain ⟨n, us, rfl, rfl⟩ := h₂.unword rfl
      exact .before d a n
  · intro h
    cases h with
    | bare d n => exact ⟨[.determiner, .noun], by simp [phrases], .word rfl d (.word rfl n rfl)⟩
    | after d n a =>
      exact ⟨[.determiner, .noun, .adjective], by simp [phrases],
        .word rfl d (.word rfl n (.word rfl a rfl))⟩
    | before d a n =>
      exact ⟨[.determiner, .adjective, .noun], by simp [phrases],
        .word rfl d (.word rfl a (.word rfl n rfl))⟩

theorem derivable_verbPhrase_iff (us : List Token) :
    Derivable .verbPhrase us ↔ VerbPhrase us := by
  rw [derivable_phrase_iff .verbPhrase rfl]
  constructor
  · rintro ⟨ns, hns, h⟩
    simp only [phrases, List.mem_cons, List.not_mem_nil, or_false] at hns
    rcases hns with rfl | rfl | rfl
    · obtain ⟨v, us, rfl, rfl⟩ := h.unword rfl
      exact .verb v .nothing
    · obtain ⟨v, us, rfl, h₁⟩ := h.unword rfl
      rw [derivableAll_singleton_iff, derivable_nounPhrase_iff] at h₁
      exact .verb v (.object h₁)
    · obtain ⟨v, us, rfl, h₁⟩ := h.unword rfl
      obtain ⟨a, us, rfl, rfl⟩ := h₁.unword rfl
      exact .verb v (.adjective a)
  · rintro ⟨v, hus⟩
    cases hus with
    | nothing => exact ⟨[.verb], by simp [phrases], .word rfl v rfl⟩
    | object hnp =>
      refine ⟨[.verb, .nounPhrase], by simp [phrases], .word rfl v ?_⟩
      rw [derivableAll_singleton_iff, derivable_nounPhrase_iff]; exact hnp
    | adjective a =>
      exact ⟨[.verb, .adjective], by simp [phrases], .word rfl v (.word rfl a rfl)⟩

/-- Three of the four alternatives of a sentence begin alike and differ in the adjunct only. -/
theorem simple_of_derivableAll {ns : List NonTerminal} {us : List Token}
    (hns : ∀ ws, DerivableAll ns ws → Adjunct ws)
    (h : DerivableAll (.nounPhrase :: .verbPhrase :: ns) us) : Simple us := by
  obtain ⟨us, _, rfl, hus, vs, ws, rfl, hvs, hws⟩ := h
  rw [derivable_nounPhrase_iff] at hus
  rw [derivable_verbPhrase_iff] at hvs
  exact .mk hus hvs (hns ws hws)

theorem isSentence_iff (us : List Token) : IsSentence us ↔ Simple us ∨ Coordinated us := by
  rw [IsSentence, derivable_phrase_iff start rfl]
  constructor
  · rintro ⟨ns, hns, h⟩
    simp only [start, phrases, List.mem_cons, List.not_mem_nil, or_false] at hns
    rcases hns with rfl | rfl | rfl | rfl
    · refine .inl (simple_of_derivableAll ?_ h)
      rintro ws rfl
      exact .nothing
    · refine .inl (simple_of_derivableAll (fun ws hws => ?_) h)
      obtain ⟨p, us, rfl, hus⟩ := hws.unword rfl
      rw [derivableAll_singleton_iff, derivable_nounPhrase_iff] at hus
      exact .prepositional p hus
    · obtain ⟨us, _, rfl, hus, h₁⟩ := h
      obtain ⟨c, _, rfl, vs, ws, rfl, hvs, hws⟩ := h₁.unword rfl
      rw [derivable_nounPhrase_iff] at hus hvs
      rw [derivableAll_singleton_iff, derivable_verbPhrase_iff] at hws
      exact .inr (.mk c hus hvs hws)
    · refine .inl (simple_of_derivableAll (fun ws hws => ?_) h)
      obtain ⟨a, us, rfl, rfl⟩ := hws.unword rfl
      exact .adjective a
  · rintro (⟨hus, hvs, hws⟩ | ⟨c, hus, hvs, hws⟩)
    · have hus := (derivable_nounPhrase_iff _).mpr hus
      have hvs := (derivable_verbPhrase_iff _).mpr hvs
      cases hws with
      | nothing =>
        exact ⟨[.nounPhrase, .verbPhrase], by simp [start, phrases],
          ⟨_, _, rfl, hus, _, _, rfl, hvs, rfl⟩⟩
      | prepositional p hnp =>
        have hnp := (derivable_nounPhrase_iff _).mpr hnp
        exact ⟨[.nounPhrase, .verbPhrase, .preposition, .nounPhrase], by simp [start, phrases],
          ⟨_, _, rfl, hus, _, _, rfl, hvs,
            .word rfl p ((derivableAll_singleton_iff _ _).mpr hnp)⟩⟩
      | adjective a =>
        exact ⟨[.nounPhrase, .verbPhrase, .adjective], by simp [start, phrases],
          ⟨_, _, rfl, hus, _, _, rfl, hvs, .word rfl a rfl⟩⟩
    · have hus := (derivable_nounPhrase_iff _).mpr hus
      have hvs := (derivable_nounPhrase_iff _).mpr hvs
      have hws := (derivable_verbPhrase_iff _).mpr hws
      exact ⟨[.nounPhrase, .conjunction, .nounPhrase, .verbPhrase], by simp [start, phrases],
        ⟨_, _, rfl, hus,
          .word rfl c ⟨_, _, rfl, hvs, (derivableAll_singleton_iff _ _).mpr hws⟩⟩⟩

end Grammar
end Castellano
