import Castellano.Proofs.Grammar.Phrase
import Castellano.Proofs.Parse.Soundness

/-!
# Castellano.Proofs.Parse.Longest

The parser takes the longest sentence that its words begin with.

`Takes P ts rest`: what stands in `ts` in front of `rest` is of the form `P`, and nothing longer at
the beginning of `ts` is. `Refuses P ts`: nothing at the beginning of `ts` is of the form `P`. Each
reader of a phrase takes or refuses the form of that phrase. For noun phrases and complements this
is a matter of the next words. A sentence is more than its greedy parts, since a shorter predicate
could leave room for a longer adjunct; but what a shorter predicate leaves begins with an article
or an adjective, and no adjunct that begins so is longer than the rest of the greedy predicate
(`adjunct_length_le`).

The main results are `parse_valid_iff` and `parse_maximal`.
-/

namespace Castellano
namespace Parse

open Grammar

/-- The words of `ts` in front of `rest` are the longest of the form `P`. -/
def Takes (P : List Token → Prop) (ts rest : List Token) : Prop :=
  ∃ us, us ++ rest = ts ∧ P us ∧ ∀ vs, vs <+: ts → P vs → vs.length ≤ us.length

/-- No words at the beginning of `ts` are of the form `P`. -/
def Refuses (P : List Token → Prop) (ts : List Token) : Prop := ∀ us, us <+: ts → ¬ P us

/-! ## Words -/

theorem word_cons (c : Category) (w : String) (ts : List Token) :
    word c (⟨w, c⟩ :: ts) = .ok (leafOf c w, ts) := by
  simp [word]

theorem word_of_ahead {c : Category} {ts : List Token} (h : ahead ts = some c) :
    ∃ w rest, ts = ⟨w, c⟩ :: rest ∧ word c ts = .ok (leafOf c w, rest) := by
  cases ts with
  | nil => cases h
  | cons t ts =>
    obtain ⟨w, d⟩ := t
    obtain rfl : d = c := Option.some.inj h
    exact ⟨w, ts, rfl, word_cons d w ts⟩

theorem adjective?_of_ahead_ne {ts : List Token} (h : ahead ts ≠ some .adjective) :
    adjective? ts = ([], ts) := by
  simp only [adjective?]
  split
  · rename_i hw
    obtain ⟨w, rfl, -⟩ := word_ok hw
    exact absurd rfl h
  · rfl

theorem adjective?_cons (a : String) (ts : List Token) :
    adjective? (⟨a, .adjective⟩ :: ts) = ([leafOf .adjective a], ts) := by
  simp [adjective?, word_cons]

/-! ## Noun phrases -/

/-- A noun phrase that no adjective follows is read as it stands. -/
theorem nounPhrase_append {us ts : List Token} (h : NounPhrase us)
    (ht : ahead ts ≠ some .adjective) : ∃ t, nounPhrase (us ++ ts) = .ok (t, ts) := by
  cases h with
  | bare d n => simp [nounPhrase, nounPhraseParts, word, adjective?_of_ahead_ne ht]
  | after d n a => simp [nounPhrase, nounPhraseParts, word, adjective?_cons]
  | before d a n => simp [nounPhrase, nounPhraseParts, word]

theorem nounPhrase_cons_adjective (d n a : String) (ts : List Token) :
    ∃ t, nounPhrase (⟨d, .article⟩ :: ⟨n, .noun⟩ :: ⟨a, .adjective⟩ :: ts) = .ok (t, ts) := by
  simp [nounPhrase, nounPhraseParts, word, adjective?_cons]

theorem nounPhrase_takes {ts rest : List Token} {t : Tree} (h : nounPhrase ts = .ok (t, rest)) :
    Takes NounPhrase ts rest := by
  obtain ⟨us, rfl, hus, -⟩ := nounPhrase_covers h
  have hus := (derivable_nounPhrase_iff us).mp ⟨t, hus⟩
  refine ⟨us, rfl, hus, ?_⟩
  rintro vs ⟨ws, hws⟩ hvs
  cases hus with
  | after d n a => cases hvs <;> simp
  | before d a n => cases hvs <;> simp
  | bare d n =>
    cases hvs with
    | bare d' n' => exact Nat.le_refl 2
    | after d' n' a' =>
      -- the reader would have taken the adjective as well
      simp only [List.cons_append, List.nil_append, List.cons.injEq] at hws h
      obtain ⟨-, -, rfl⟩ := hws
      obtain ⟨t', ht'⟩ := nounPhrase_cons_adjective d n a' ws
      rw [ht'] at h
      simp at h
    | before d' a' n' => simp at hws

theorem nounPhrase_refuses {ts : List Token} {f : Fault} (h : nounPhrase ts = .error f) :
    Refuses NounPhrase ts := by
  rintro us ⟨rest, rfl⟩ hus
  by_cases ha : ahead rest = some .adjective
  · obtain ⟨a, rest, rfl, -⟩ := word_of_ahead ha
    cases hus <;> simp [nounPhrase, nounPhraseParts, word, adjective?_cons] at h
  · obtain ⟨t, ht⟩ := nounPhrase_append hus ha
    rw [ht] at h; cases h

/-! ## Verb phrases -/

/-- What `adjective?` takes after another reader has been refused. -/
theorem adjective?_takes {P Q : List Token → Prop} {ts : List Token} (hP : Refuses P ts)
    (hnil : Q []) (hone : ∀ a, Q [⟨a, .adjective⟩])
    (hQ : ∀ us, Q us → us = [] ∨ P us ∨ ∃ a, us = [⟨a, .adjective⟩]) :
    Takes Q ts (adjective? ts).2 := by
  by_cases ha : ahead ts = some .adjective
  · obtain ⟨a, rest, rfl, -⟩ := word_of_ahead ha
    rw [adjective?_cons]
    refine ⟨[⟨a, .adjective⟩], rfl, hone a, ?_⟩
    intro vs hvs hq
    rcases hQ vs hq with rfl | hp | ⟨b, rfl⟩
    · exact Nat.zero_le _
    · exact absurd hp (hP vs hvs)
    · exact Nat.le_refl 1
  · rw [adjective?_of_ahead_ne ha]
    refine ⟨[], rfl, hnil, ?_⟩
    intro vs hvs hq
    rcases hQ vs hq with rfl | hp | ⟨b, rfl⟩
    · exact Nat.le_refl 0
    · exact absurd hp (hP vs hvs)
    · obtain ⟨rest, rfl⟩ := hvs
      exact absurd rfl ha

theorem complement_takes (ts : List Token) : Takes Complement ts (complement ts).2 := by
  simp only [complement]
  split
  · rename_i object rest h
    obtain ⟨us, rfl, hus, hlong⟩ := nounPhrase_takes h
    refine ⟨us, rfl, .object hus, ?_⟩
    intro vs hvs hc
    cases hc with
    | nothing => exact Nat.zero_le _
    | object hnp => exact hlong vs hvs hnp
    | adjective a => exact hus.length_pos
  · rename_i f h
    refine adjective?_takes (nounPhrase_refuses h) .nothing .adjective ?_
    intro us hus
    cases hus with
    | nothing => exact .inl rfl
    | object hnp => exact .inr (.inl hnp)
    | adjective a => exact .inr (.inr ⟨a, rfl⟩)

theorem verbPhrase_takes {ts rest : List Token} {t : Tree} (h : verbPhrase ts = .ok (t, rest)) :
    Takes VerbPhrase ts rest := by
  simp only [verbPhrase] at h
  split at h
  · cases h
  · rename_i verb ts₁ hv
    cases h
    obtain ⟨v, rfl, -⟩ := word_ok hv
    obtain ⟨us, hus, hc, hlong⟩ := complement_takes ts₁
    refine ⟨⟨v, .verb⟩ :: us, by rw [List.cons_append, hus], .verb v hc, ?_⟩
    rintro vs hvs ⟨v', hc'⟩
    have hbegin := (List.cons_prefix_cons.mp hvs).2
    simpa using hlong _ hbegin hc'

theorem verbPhrase_of_ahead {ts : List Token} (h : ahead ts = some .verb) :
    ∃ t rest, verbPhrase ts = .ok (t, rest) := by
  obtain ⟨w, rest, rfl, hw⟩ := word_of_ahead h
  simp [verbPhrase, hw]

/-! ## Adjuncts -/

theorem prepositional_takes {ts rest : List Token} {parts : List Tree}
    (h : prepositional ts = .ok (parts, rest)) :
    ∃ p ts', ts = ⟨p, .preposition⟩ :: ts' ∧ Takes NounPhrase ts' rest := by
  simp only [prepositional] at h
  split at h
  · cases h
  · rename_i preposition ts₁ hp
    split at h
    · cases h
    · rename_i object ts₂ ho
      cases h
      obtain ⟨p, rfl, -⟩ := word_ok hp
      exact ⟨p, ts₁, rfl, nounPhrase_takes ho⟩

theorem prepositional_refuses {ts : List Token} {f : Fault} (h : prepositional ts = .error f) :
    Refuses (fun us => ∃ p vs, us = ⟨p, .preposition⟩ :: vs ∧ NounPhrase vs) ts := by
  rintro _ ⟨rest, rfl⟩ ⟨p, vs, rfl, hvs⟩
  simp only [prepositional, List.cons_append, word_cons] at h
  split at h
  · rename_i f' hf
    exact nounPhrase_refuses hf vs ⟨rest, rfl⟩ hvs
  · cases h

theorem tail_takes (ts : List Token) : Takes Adjunct ts (tail ts).2 := by
  simp only [tail]
  split
  · rename_i parts rest h
    obtain ⟨p, ts', rfl, us, rfl, hus, hlong⟩ := prepositional_takes h
    refine ⟨⟨p, .preposition⟩ :: us, rfl, .prepositional p hus, ?_⟩
    intro vs hvs ha
    cases ha with
    | nothing => exact Nat.zero_le _
    | prepositional p' hnp =>
      have hbegin := (List.cons_prefix_cons.mp hvs).2
      simpa using hlong _ hbegin hnp
    | adjective a => simp
  · rename_i f h
    refine adjective?_takes (prepositional_refuses h) .nothing .adjective ?_
    intro us hus
    cases hus with
    | nothing => exact .inl rfl
    | prepositional p hnp => exact .inr (.inl ⟨p, _, rfl, hnp⟩)
    | adjective a => exact .inr (.inr ⟨a, rfl⟩)

/-- Where a verb phrase has a longer one, the difference leaves no room for a long adjunct. -/
theorem adjunct_length_le {us vs ws rest : List Token} (hvs : VerbPhrase (us ++ vs))
    (hne : vs ≠ []) (hws : Adjunct ws) (hbegin : ws <+: vs ++ rest) :
    ws.length ≤ vs.length := by
  cases hws with
  | nothing => exact Nat.zero_le _
  | adjective a => exact List.length_pos_iff.mpr hne
  | prepositional p hnp =>
    cases vs with
    | nil => exact absurd rfl hne
    | cons v vs =>
      obtain ⟨rfl, -⟩ := List.cons_prefix_cons.mp hbegin
      exact absurd rfl (hvs.no_preposition ⟨p, .preposition⟩ (by simp))

/-! ## Sentences -/

/-- A noun phrase that no adjective follows is the only one that the words begin with. -/
theorem nounPhrase_unique {us us' ts ts' : List Token} (hus : NounPhrase us)
    (hus' : NounPhrase us') (hts : ahead ts ≠ some .adjective) (hts' : ahead ts' ≠ some .adjective)
    (h : us ++ ts = us' ++ ts') : us = us' ∧ ts = ts' := by
  obtain ⟨t, ht⟩ := nounPhrase_append hus hts
  obtain ⟨t', ht'⟩ := nounPhrase_append hus' hts'
  rw [h, ht'] at ht
  cases ht
  exact ⟨List.append_cancel_right h, rfl⟩

theorem simpleSentence_refuses {ts : List Token} {f : Fault}
    (h : simpleSentence ts = .error f) : Refuses Simple ts := by
  rintro us ⟨rest, rfl⟩ hus
  cases hus with
  | @mk us vs ws hnp hvp hadj =>
    obtain ⟨s, hs⟩ := nounPhrase_append hnp (hvp.ahead_ne (ws ++ rest))
    obtain ⟨p, rest', hp⟩ := verbPhrase_of_ahead (hvp.ahead (ws ++ rest))
    rw [List.append_assoc, List.append_assoc, simpleSentence, hs] at h
    simp [hp] at h

theorem simpleSentence_takes {ts rest : List Token} {t : Tree}
    (h : simpleSentence ts = .ok (t, rest)) : Takes Simple ts rest := by
  simp only [simpleSentence] at h
  split at h
  · cases h
  · rename_i subject ts₁ hs
    split at h
    · cases h
    · rename_i predicate ts₂ hp
      cases h
      obtain ⟨us, rfl, hus, -⟩ := nounPhrase_takes hs
      obtain ⟨vs, rfl, hvs, hvlong⟩ := verbPhrase_takes hp
      obtain ⟨ws, hws, hadj, hwlong⟩ := tail_takes ts₂
      refine ⟨us ++ (vs ++ ws), ?_, .mk hus hvs hadj, ?_⟩
      · rw [List.append_assoc, List.append_assoc, hws]
      rintro _ ⟨rest, hrest⟩ hsimple
      cases hsimple with
      | @mk us' vs' ws' hus' hvs' hadj' =>
        rw [List.append_assoc, List.append_assoc] at hrest
        obtain ⟨rfl, h₁⟩ := nounPhrase_unique hus' hus (hvs'.ahead_ne _) (hvs.ahead_ne _) hrest
        -- the predicate is at most as long as the greedy one, which is it with `xs` behind it
        have hle := hvlong vs' ⟨ws' ++ rest, h₁⟩ hvs'
        obtain ⟨xs, rfl⟩ := List.prefix_of_prefix_length_le ⟨_, h₁⟩ ⟨ts₂, rfl⟩ hle
        rw [List.append_assoc, List.append_cancel_left_eq] at h₁
        by_cases hxs : xs = []
        · subst hxs
          have := hwlong ws' ⟨rest, h₁⟩ hadj'
          simp only [List.length_append, List.length_nil]; omega
        · have := adjunct_length_le hvs hxs hadj' ⟨rest, h₁⟩
          simp only [List.length_append]; omega

theorem ahead_conjunction_ne (c : String) (ts : List Token) :
    ahead (⟨c, .conjunction⟩ :: ts) ≠ some .adjective := by
  simp

theorem coordinatedSentence_refuses {ts : List Token} {f : Fault}
    (h : coordinatedSentence ts = .error f) : Refuses Coordinated ts := by
  rintro us ⟨rest, rfl⟩ hus
  cases hus with
  | @mk us vs ws c hus hvs hws =>
    obtain ⟨s, hs⟩ := nounPhrase_append hus (ahead_conjunction_ne c (vs ++ (ws ++ rest)))
    obtain ⟨s', hs'⟩ := nounPhrase_append hvs (hws.ahead_ne rest)
    obtain ⟨p, rest', hp⟩ := verbPhrase_of_ahead (hws.ahead rest)
    rw [List.append_assoc, List.cons_append, List.append_assoc, coordinatedSentence, hs] at h
    simp [word_cons, hs', hp] at h

theorem coordinatedSentence_takes {ts rest : List Token} {t : Tree}
    (h : coordinatedSentence ts = .ok (t, rest)) : Takes Coordinated ts rest := by
  simp only [coordinatedSentence] at h
  split at h
  · cases h
  · rename_i first ts₁ hf
    split at h
    · cases h
    · rename_i conjunction ts₂ hc
      split at h
      · cases h
      · rename_i second ts₃ hs
        split at h
        · cases h
        · rename_i predicate ts₄ hp
          cases h
          obtain ⟨us, rfl, hus, -⟩ := nounPhrase_takes hf
          obtain ⟨c, rfl, -⟩ := word_ok hc
          obtain ⟨vs, rfl, hvs, -⟩ := nounPhrase_takes hs
          obtain ⟨ws, rfl, hws, hwlong⟩ := verbPhrase_takes hp
          refine ⟨us ++ ⟨c, .conjunction⟩ :: (vs ++ ws), by simp, .mk c hus hvs hws, ?_⟩
          rintro _ ⟨rest, hrest⟩ hcoord
          cases hcoord with
          | @mk us' vs' ws' c' hus' hvs' hws' =>
            rw [List.append_assoc, List.cons_append, List.append_assoc] at hrest
            obtain ⟨rfl, h₁⟩ := nounPhrase_unique hus' hus (ahead_conjunction_ne _ _)
              (ahead_conjunction_ne _ _) hrest
            obtain ⟨-, h₂⟩ := List.cons.inj h₁
            obtain ⟨rfl, h₃⟩ := nounPhrase_unique hvs' hvs (hws'.ahead_ne _) (hws.ahead_ne _) h₂
            have := hwlong ws' ⟨rest, h₃⟩ hws'
            simp only [List.length_append, List.length_cons]; omega

/-- Behind its first subject a simple sentence has a verb, a coordinated one a conjunction. -/
theorem not_coordinated_of_simple {us vs ts : List Token} (hus : Simple us) (hvs : Coordinated vs)
    (hust : us <+: ts) (hvst : vs <+: ts) : False := by
  obtain ⟨rest, rfl⟩ := hust
  obtain ⟨rest', h⟩ := hvst
  cases hus with
  | @mk us vs ws hnp hvp hadj =>
    cases hvs with
    | @mk us' vs' ws' c hnp' hnp'' hvp' =>
      simp only [List.append_assoc, List.cons_append] at h
      obtain ⟨-, h⟩ := nounPhrase_unique hnp' hnp (ahead_conjunction_ne _ _) (hvp.ahead_ne _) h
      have hahead := hvp.ahead (ws ++ rest)
      rw [← h] at hahead
      cases hahead

/-! ## The whole input -/

theorem sentence_takes {ts rest : List Token} {t : Tree} (h : sentence ts = .ok (t, rest)) :
    Takes IsSentence ts rest := by
  simp only [sentence] at h
  split at h
  · rename_i result hs
    cases h
    obtain ⟨us, rfl, hus, hlong⟩ := simpleSentence_takes hs
    refine ⟨us, rfl, (isSentence_iff us).mpr (.inl hus), ?_⟩
    intro vs hvs hsent
    rcases (isSentence_iff vs).mp hsent with hsimple | hcoord
    · exact hlong vs hvs hsimple
    · exact (not_coordinated_of_simple hus hcoord ⟨rest, rfl⟩ hvs).elim
  · rename_i first hs
    split at h
    · rename_i result hc
      cases h
      obtain ⟨us, rfl, hus, hlong⟩ := coordinatedSentence_takes hc
      refine ⟨us, rfl, (isSentence_iff us).mpr (.inr hus), ?_⟩
      intro vs hvs hsent
      rcases (isSentence_iff vs).mp hsent with hsimple | hcoord
      · exact absurd hsimple (simpleSentence_refuses hs vs hvs)
      · exact hlong vs hvs hcoord
    · cases h

theorem sentence_refuses {ts : List Token} {f : Fault} (h : sentence ts = .error f) :
    Refuses IsSentence ts ∧ ∃ first second, f = .noProduction first second := by
  simp only [sentence] at h
  split at h
  · cases h
  · rename_i first hs
    split at h
    · cases h
    · rename_i second hc
      cases h
      refine ⟨?_, first, second, rfl⟩
      intro us hus hsent
      rcases (isSentence_iff us).mp hsent with hsimple | hcoord
      · exact simpleSentence_refuses hs us hus hsimple
      · exact coordinatedSentence_refuses hc us hus hcoord

/-- The words `us` are the longest sentence that `ts` begins with. -/
structure LongestSentence (ts us : List Token) : Prop where
  isPrefix : us <+: ts
  isSentence : IsSentence us
  length_le : ∀ vs, vs <+: ts → IsSentence vs → vs.length ≤ us.length

/-- The answers that the parser may give, and what each says about its input. -/
inductive Outcome (ts : List Token) : Result → Prop where
  | accepted (t : Tree) : t.Derives .sentence ts → Outcome ts (.accepted t)
  | unconsumed (us rest : List Token) : us ++ rest = ts → rest ≠ [] → LongestSentence ts us →
      Outcome ts (.refused (.unconsumed (rest.map Token.word)))
  | noProduction (first second : Fault) : Refuses IsSentence ts →
      Outcome ts (.refused (.noProduction first second))

theorem parse_outcome (ts : List Token) : Outcome ts (parse ts) := by
  rw [parse]
  split
  · rename_i f h
    obtain ⟨hrefuses, first, second, rfl⟩ := sentence_refuses h
    exact .noProduction first second hrefuses
  · rename_i t h
    obtain ⟨us, hts, hus, -⟩ := sentence_covers h
    rw [List.append_nil] at hts
    subst hts
    exact .accepted t hus
  · rename_i t rest hne h
    obtain ⟨us, hts, hus, hlong⟩ := sentence_takes h
    exact .unconsumed us rest hts hne ⟨⟨rest, hts⟩, hus, hlong⟩

theorem LongestSentence.not_isSentence {ts us rest : List Token} (h : LongestSentence ts us)
    (hts : us ++ rest = ts) (hne : rest ≠ []) : ¬ IsSentence ts := by
  intro hsent
  have hle := h.length_le ts (List.prefix_refl ts) hsent
  have hpos := List.length_pos_iff.mpr hne
  rw [← hts, List.length_append] at hle
  omega

end Parse

open Grammar Parse

/-- The parser accepts exactly the sentences of the grammar. -/
theorem parse_valid_iff (ts : List Token) :
    (parse ts).valid = true ↔
      ∃ t : Tree, t.symbol = .sentence ∧ t.conforms = true ∧ t.leaves = ts.map Token.leaf := by
  have houtcome := parse_outcome ts
  generalize parse ts = r at houtcome ⊢
  have hsent : IsSentence ts ↔
      ∃ t : Tree, t.symbol = .sentence ∧ t.conforms = true ∧ t.leaves = ts.map Token.leaf :=
    ⟨fun ⟨t, h⟩ => ⟨t, h.symbol_eq, h.conforms_eq, h.leaves_eq⟩,
      fun ⟨t, hsym, hconf, hleaves⟩ => ⟨t, hsym, hconf, hleaves⟩⟩
  rw [← hsent]
  cases houtcome with
  | accepted t h => exact ⟨fun _ => ⟨t, h⟩, fun _ => rfl⟩
  | unconsumed us rest hts hne h =>
    constructor
    · intro hvalid; cases hvalid
    · intro hs; exact absurd hs (h.not_isSentence hts hne)
  | noProduction first second h =>
    constructor
    · intro hvalid; cases hvalid
    · intro hs; exact absurd hs (h ts (List.prefix_refl ts))

/-- The parser takes as many words as it can. Words are left over exactly if a sentence ends
before them but none ends with the input, and what is left over comes behind the longest sentence;
there is no production exactly if the input does not even begin with a sentence. A tree and a
cause of refusal exclude each other, and there is one cause at most. -/
theorem parse_maximal (ts : List Token) :
    ((∃ words, .unconsumed words ∈ (parse ts).faults) ↔
      (∃ us, us <+: ts ∧ us ≠ ts ∧ IsSentence us) ∧ ¬ IsSentence ts) ∧
    (∀ words, .unconsumed words ∈ (parse ts).faults → words ≠ [] ∧
      ∃ us rest, us ++ rest = ts ∧ LongestSentence ts us ∧ words = rest.map Token.word) ∧
    ((∃ first second, .noProduction first second ∈ (parse ts).faults) ↔
      ∀ us, us <+: ts → ¬ IsSentence us) ∧
    (parse ts).valid = (parse ts).tree?.isSome ∧
    (parse ts).valid = (parse ts).faults.isEmpty ∧
    ((parse ts).valid = false → ∃ fault, (parse ts).faults = [fault] ∧
      ((∃ words, fault = .unconsumed words) ∨
        ∃ first second, fault = .noProduction first second)) := by
  have houtcome := parse_outcome ts
  generalize parse ts = r at houtcome ⊢
  cases houtcome with
  | accepted t h =>
    have hs : IsSentence ts := ⟨t, h⟩
    have hp : ¬ ∀ us, us <+: ts → ¬ IsSentence us := fun hn => hn ts (List.prefix_refl ts) hs
    simp [Result.accepted, hs, hp]
  | unconsumed us rest hts hne h =>
    have hs := h.not_isSentence hts hne
    have hproper : us ≠ ts := fun heq => hs (heq ▸ h.isSentence)
    have hp : ¬ ∀ us, us <+: ts → ¬ IsSentence us :=
      fun hn => hn us h.isPrefix h.isSentence
    refine ⟨?_, ?_, ?_, rfl, rfl, ?_⟩
    · exact ⟨fun _ => ⟨⟨us, h.isPrefix, hproper, h.isSentence⟩, hs⟩,
        fun _ => ⟨_, List.mem_singleton.mpr rfl⟩⟩
    · intro words hwords
      cases List.mem_singleton.mp hwords
      exact ⟨by simpa using hne, us, rest, hts, h, rfl⟩
    · simp [Result.refused, hp]
    · exact fun _ => ⟨_, rfl, .inl ⟨_, rfl⟩⟩
  | noProduction first second h =>
    refine ⟨?_, ?_, ?_, rfl, rfl, ?_⟩
    · simp only [Result.refused, List.mem_singleton, reduceCtorEq, exists_false, false_iff]
      rintro ⟨⟨us, hus, -, hsent⟩, -⟩
      exact h us hus hsent
    · simp [Result.refused]
    · exact ⟨fun _ => h, fun _ => ⟨first, second, List.mem_singleton.mpr rfl⟩⟩
    · exact fun _ => ⟨_, rfl, .inr ⟨first, second, rfl⟩⟩

end Castellano
