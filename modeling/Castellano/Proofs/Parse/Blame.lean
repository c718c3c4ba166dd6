import Castellano.Proofs.Parse.Unique

/-!
# Castellano.Proofs.Parse.Blame

The word that the parser blames when the input does not begin with a sentence.

Words are `Viable` if some sentence begins with them. The parser reads on as long as its words are
viable, so what it blames in the end stands directly behind the longest viable beginning of the
input (`noProduction_blames`), and a word of the category that it asks for would be viable there.

`Stops bad good us rest c`: of the words `us ++ rest` the ones in `us` can be read, and a word of
category `c` is missing behind them. A reader has come to its verdict when it has seen the first
word of `rest`, so the verdict is the same whatever comes behind that word. Together with the
completeness of the readers (`sentence_refuses`) this speaks of all continuations of a beginning,
not only of the input at hand. Each way in which a reader fails (`ClauseFails`,
`CoordinationFails`) has one lemma that says where it stops.
-/

namespace Castellano

open Grammar

/-- Some sentence begins with the words. -/
def Grammar.Viable (us : List Token) : Prop := ∃ vs, IsSentence (us ++ vs)

namespace Parse

/-! ## Missing words -/

/-- The fault that a word of the category is missing in front of the words. -/
def Fault.missing (c : Category) : List Token → Fault
  | [] => .unexpectedEnd c
  | t :: _ => .unexpectedToken c t.category t.word

/-- The fault of a word, also where it is given as the reason why there is no noun phrase. -/
def Fault.unwrapped : Fault → Fault
  | .nounPhrase cause => cause
  | fault => fault

theorem Fault.unwrapped_missing (c : Category) (ts : List Token) :
    (missing c ts).unwrapped = missing c ts := by
  cases ts <;> rfl

theorem word_error {c : Category} {ts : List Token} {f : Fault} (h : word c ts = .error f) :
    f = .missing c ts ∧ ahead ts ≠ some c := by
  cases ts with
  | nil =>
    cases h
    exact ⟨rfl, by simp⟩
  | cons t ts =>
    simp only [word] at h
    split at h
    · cases h
    · rename_i hc
      cases h
      exact ⟨rfl, by simpa using hc⟩

theorem word_of_ahead_ne {c : Category} {ts : List Token} (h : ahead ts ≠ some c) :
    word c ts = .error (.missing c ts) := by
  cases ts with
  | nil => rfl
  | cons t ts =>
    have hc : t.category ≠ c := by simpa using h
    rw [word, if_neg hc]
    rfl

theorem verbPhrase_error {ts : List Token} {f : Fault} (h : verbPhrase ts = .error f) :
    f = .missing .verb ts ∧ ahead ts ≠ some .verb := by
  simp only [verbPhrase] at h
  split at h
  · rename_i hv
    cases h
    exact word_error hv
  · cases h

theorem verbPhrase_of_ahead_ne {ts : List Token} (h : ahead ts ≠ some .verb) :
    verbPhrase ts = .error (.missing .verb ts) := by
  simp only [verbPhrase, word_of_ahead_ne h]

/-! ## Where a reader stops -/

/-- Behind `us` a word of category `c` is missing: with what is ahead in `rest`, the words are
`bad` whatever follows, and with a word of category `c` instead, they can become `good`. -/
structure Stops (bad good : List Token → Prop) (us rest : List Token) (c : Category) : Prop where
  stuck : ∀ rest', ahead rest' = ahead rest → bad (us ++ rest')
  goesOn : ∀ w, ∃ vs, good (us ++ ⟨w, c⟩ :: vs)

/-- What is missing in a part is missing in the whole, if the part comes behind `pre`. -/
theorem Stops.behind {bad bad' good good' : List Token → Prop} {us rest : List Token}
    {c : Category} (h : Stops bad good us rest c) (pre : List Token)
    (hbad : ∀ ts, bad ts → bad' (pre ++ ts))
    (hgood : ∀ ts, good ts → ∃ more, good' (pre ++ (ts ++ more))) :
    Stops bad' good' (pre ++ us) rest c := by
  constructor
  · intro rest' hrest
    rw [List.append_assoc]
    exact hbad _ (h.stuck rest' hrest)
  · intro w
    obtain ⟨vs, hvs⟩ := h.goesOn w
    obtain ⟨more, hmore⟩ := hgood _ hvs
    rw [List.append_assoc, List.cons_append] at hmore
    exact ⟨vs ++ more, by rw [List.append_assoc]; exact hmore⟩

theorem nounPhrase_stops {ts : List Token} {f : Fault} (h : nounPhrase ts = .error f) :
    ∃ us rest c, us ++ rest = ts ∧ f.unwrapped = .missing c rest ∧
      Stops (fun ts => ∃ f, nounPhrase ts = .error f) NounPhrase us rest c := by
  simp only [nounPhrase] at h
  split at h
  · rename_i cause hparts
    cases h
    simp only [nounPhraseParts] at hparts
    split at hparts
    · -- there is no determiner
      rename_i hd
      cases hparts
      obtain ⟨rfl, hne⟩ := word_error hd
      refine ⟨[], ts, .article, rfl, rfl, fun rest' hrest => ?_, fun w => ?_⟩
      · rw [← hrest] at hne
        simp [nounPhrase, nounPhraseParts, word_of_ahead_ne hne]
      · exact ⟨[⟨"", .noun⟩], .bare w ""⟩
    · rename_i determiner ts₁ hd
      obtain ⟨d, rfl, -⟩ := word_ok hd
      split at hparts
      · -- there is no noun behind determiner and adjective
        rename_i adjective ts₂ ha
        obtain ⟨a, rfl, -⟩ := word_ok ha
        split at hparts
        · rename_i hn
          cases hparts
          obtain ⟨rfl, hne⟩ := word_error hn
          refine ⟨[⟨d, .article⟩, ⟨a, .adjective⟩], ts₂, .noun, rfl, rfl, fun rest' hrest => ?_,
            fun w => ⟨[], .before d a w⟩⟩
          rw [← hrest] at hne
          simp [nounPhrase, nounPhraseParts, word_cons, word_of_ahead_ne hne]
        · cases hparts
      · -- there is neither an adjective nor a noun behind the determiner
        rename_i ha
        split at hparts
        · rename_i hn
          cases hparts
          obtain ⟨rfl, hne⟩ := word_error hn
          obtain ⟨-, hne'⟩ := word_error ha
          refine ⟨[⟨d, .article⟩], ts₁, .noun, rfl, rfl, fun rest' hrest => ?_,
            fun w => ⟨[], .bare d w⟩⟩
          rw [← hrest] at hne hne'
          simp [nounPhrase, nounPhraseParts, word_cons, word_of_ahead_ne hne,
            word_of_ahead_ne hne']
        · cases hparts
  · cases h

/-! ## Clauses -/

/-- A noun phrase and a verb phrase cannot be read one after the other. -/
inductive ClauseFails (ts : List Token) : Fault → Prop where
  | subject {f : Fault} : nounPhrase ts = .error f → ClauseFails ts f
  | predicate {s : Tree} {rest : List Token} {f : Fault} :
      nounPhrase ts = .ok (s, rest) → verbPhrase rest = .error f → ClauseFails ts f

inductive Clause : List Token → Prop where
  | mk {us vs : List Token} : NounPhrase us → VerbPhrase vs → Clause (us ++ vs)

theorem simpleSentence_error_iff {ts : List Token} {f : Fault} :
    simpleSentence ts = .error f ↔ ClauseFails ts f := by
  constructor
  · intro h
    simp only [simpleSentence] at h
    split at h
    · rename_i hs
      cases h
      exact .subject hs
    · rename_i hs
      split at h
      · rename_i hp
        cases h
        exact .predicate hs hp
      · cases h
  · intro h
    cases h with
    | subject hs => simp only [simpleSentence, hs]
    | predicate hs hp => simp only [simpleSentence, hs, hp]

theorem ClauseFails.stops {ts : List Token} {f : Fault} (h : ClauseFails ts f) :
    ∃ us rest c, us ++ rest = ts ∧ f.unwrapped = .missing c rest ∧
      Stops (fun ts => ∃ f, ClauseFails ts f) Clause us rest c := by
  cases h with
  | subject hs =>
    obtain ⟨us, rest, c, hts, hf, hstops⟩ := nounPhrase_stops hs
    refine ⟨us, rest, c, hts, hf, hstops.behind [] ?_ ?_⟩
    · rintro ts ⟨f, hf⟩
      exact ⟨f, .subject hf⟩
    · intro ts hts
      have hclause : Clause (ts ++ [⟨"", .verb⟩]) := .mk hts (.verb "" .nothing)
      exact ⟨_, hclause⟩
  | @predicate s rest f hs hp =>
    obtain ⟨us, rfl, hus, hcongr⟩ := nounPhrase_congr hs
    obtain ⟨rfl, hne⟩ := verbPhrase_error hp
    refine ⟨us, rest, .verb, rfl, Fault.unwrapped_missing .verb rest, fun rest' hrest => ?_,
      fun w => ⟨[], .mk hus (.verb w .nothing)⟩⟩
    exact ⟨_, .predicate (hcongr rest' hrest) (verbPhrase_of_ahead_ne (hrest ▸ hne))⟩

/-! ## Sentences -/

/-- Two noun phrases with a conjunction between them and a verb phrase cannot be read. -/
inductive CoordinationFails (ts : List Token) : Fault → Prop where
  | first {f : Fault} : nounPhrase ts = .error f → CoordinationFails ts f
  | conjunction {s : Tree} {rest : List Token} {f : Fault} :
      nounPhrase ts = .ok (s, rest) → word .conjunction rest = .error f → CoordinationFails ts f
  | clause {s x : Tree} {rest rest' : List Token} {f : Fault} :
      nounPhrase ts = .ok (s, rest) → word .conjunction rest = .ok (x, rest') →
      ClauseFails rest' f → CoordinationFails ts f

theorem coordinatedSentence_error_iff {ts : List Token} {f : Fault} :
    coordinatedSentence ts = .error f ↔ CoordinationFails ts f := by
  constructor
  · intro h
    simp only [coordinatedSentence] at h
    split at h
    · rename_i hs
      cases h
      exact .first hs
    · rename_i hs
      split at h
      · rename_i hc
        cases h
        exact .conjunction hs hc
      · rename_i hc
        split at h
        · rename_i hs'
          cases h
          exact .clause hs hc (.subject hs')
        · rename_i hs'
          split at h
          · rename_i hp
            cases h
            exact .clause hs hc (.predicate hs' hp)
          · cases h
  · intro h
    cases h with
    | first hs => simp only [coordinatedSentence, hs]
    | conjunction hs hc => simp only [coordinatedSentence, hs, hc]
    | clause hs hc hrest =>
      cases hrest with
      | subject hs' => simp only [coordinatedSentence, hs, hc, hs']
      | predicate hs' hp => simp only [coordinatedSentence, hs, hc, hs', hp]

theorem sentence_error_iff {ts : List Token} {f : Fault} :
    sentence ts = .error f ↔ ∃ first second, f = .noProduction first second ∧
      ClauseFails ts first ∧ CoordinationFails ts second := by
  simp only [← simpleSentence_error_iff, ← coordinatedSentence_error_iff, sentence]
  cases hs : simpleSentence ts with
  | ok result => simp
  | error first =>
    cases hc : coordinatedSentence ts with
    | ok result => simp
    | error second => simp [eq_comm]

def SentenceFails (ts : List Token) : Prop := ∃ f, sentence ts = .error f

theorem sentenceFails_iff {ts : List Token} :
    SentenceFails ts ↔ (∃ f, ClauseFails ts f) ∧ ∃ f, CoordinationFails ts f := by
  simp only [SentenceFails, sentence_error_iff]
  constructor
  · rintro ⟨_, first, second, -, hfirst, hsecond⟩
    exact ⟨⟨first, hfirst⟩, second, hsecond⟩
  · rintro ⟨⟨first, hfirst⟩, second, hsecond⟩
    exact ⟨_, first, second, rfl, hfirst, hsecond⟩

theorem Clause.isSentence {us : List Token} (h : Clause us) : IsSentence us := by
  obtain ⟨hus, hvs⟩ := h
  have hsimple := Simple.mk hus hvs .nothing
  rw [List.append_nil] at hsimple
  exact (isSentence_iff _).mpr (.inl hsimple)

theorem Clause.isSentence_coordinated {us vs : List Token} (hvs : Clause vs)
    (hus : NounPhrase us) (c : String) : IsSentence (us ++ ⟨c, .conjunction⟩ :: vs) := by
  obtain ⟨hvs, hws⟩ := hvs
  exact (isSentence_iff _).mpr (.inr (.mk c hus hvs hws))

/-- Where the attempt at two subjects stops, no other attempt gets any further. -/
theorem CoordinationFails.stops {ts : List Token} {first second : Fault}
    (h : CoordinationFails ts second) (hfirst : ClauseFails ts first) :
    ∃ us rest c, us ++ rest = ts ∧ second.unwrapped = .missing c rest ∧
      Stops SentenceFails IsSentence us rest c := by
  cases h with
  | first hs =>
    obtain ⟨us, rest, c, hts, hf, hstops⟩ := nounPhrase_stops hs
    refine ⟨us, rest, c, hts, hf, hstops.behind [] ?_ ?_⟩
    · rintro ts ⟨f, hf⟩
      exact sentenceFails_iff.mpr ⟨⟨f, .subject hf⟩, f, .first hf⟩
    · intro ts hts
      exact ⟨[⟨"", .verb⟩], (Clause.mk hts (.verb "" .nothing)).isSentence⟩
  | @conjunction s rest f hs hc =>
    obtain ⟨us, rfl, hus, hcongr⟩ := nounPhrase_congr hs
    obtain ⟨rfl, hne⟩ := word_error hc
    have hverb : ahead rest ≠ some .verb := by
      cases hfirst with
      | subject hs' => rw [hs] at hs'; cases hs'
      | predicate hs' hp =>
        rw [hs] at hs'
        cases hs'
        exact (verbPhrase_error hp).2
    refine ⟨us, rest, .conjunction, rfl, Fault.unwrapped_missing .conjunction rest,
      fun rest' hrest => ?_, fun w => ?_⟩
    · have hs' := hcongr rest' hrest
      rw [← hrest] at hne hverb
      exact sentenceFails_iff.mpr ⟨⟨_, .predicate hs' (verbPhrase_of_ahead_ne hverb)⟩,
        _, .conjunction hs' (word_of_ahead_ne hne)⟩
    · have hclause : Clause ([⟨"", .article⟩, ⟨"", .noun⟩] ++ [⟨"", .verb⟩]) :=
        .mk (.bare "" "") (.verb "" .nothing)
      exact ⟨_, hclause.isSentence_coordinated hus w⟩
  | @clause s x rest rest' f hs hc hrest =>
    obtain ⟨us, rfl, hus, hcongr⟩ := nounPhrase_congr hs
    obtain ⟨w, rfl, -⟩ := word_ok hc
    obtain ⟨vs, rest, c, rfl, hf, hstops⟩ := hrest.stops
    refine ⟨us ++ ⟨w, .conjunction⟩ :: vs, rest, c, by simp, hf, ?_⟩
    have hbehind : Stops SentenceFails IsSentence (us ++ [⟨w, .conjunction⟩] ++ vs) rest c := by
      refine hstops.behind (us ++ [⟨w, .conjunction⟩]) ?_ ?_
      · rintro ts ⟨f, hf⟩
        have hs' := hcongr (⟨w, .conjunction⟩ :: ts) rfl
        rw [List.append_assoc]
        exact sentenceFails_iff.mpr
          ⟨⟨_, .predicate hs' (verbPhrase_of_ahead_ne (by simp))⟩, f,
            .clause hs' (word_cons .conjunction w ts) hf⟩
      · intro ts hts
        refine ⟨[], ?_⟩
        rw [List.append_nil, List.append_assoc]
        exact hts.isSentence_coordinated hus w
    rwa [List.append_assoc] at hbehind

/-! ## Blame -/

/-- The first `i` words are the longest viable beginning of the words. -/
structure LongestViable (ts : List Token) (i : Nat) : Prop where
  le_length : i ≤ ts.length
  viable : Viable (ts.take i)
  length_le : ∀ us, us <+: ts → Viable us → us.length ≤ i

/-- The fault is that of position `i`: it tells what stands there, a word or the end, and the words
before it with any word of the category that it asks for are viable. -/
inductive Blames (ts : List Token) (i : Nat) : Fault → Prop where
  | atEnd (c : Category) : i = ts.length → (∀ w, Viable (ts.take i ++ [⟨w, c⟩])) →
      Blames ts i (.unexpectedEnd c)
  | atWord (c : Category) (t : Token) : ts[i]? = some t →
      (∀ w, Viable (ts.take i ++ [⟨w, c⟩])) →
      Blames ts i (.unexpectedToken c t.category t.word)

theorem viable_snoc {us vs : List Token} {t : Token} (h : IsSentence (us ++ t :: vs)) :
    Viable (us ++ [t]) := ⟨vs, by rw [List.append_assoc]; exact h⟩

theorem blames_missing {us rest : List Token} {c : Category}
    (h : ∀ w, Viable (us ++ [⟨w, c⟩])) :
    Blames (us ++ rest) us.length (.missing c rest) := by
  have htake : (us ++ rest).take us.length = us := List.take_left
  cases rest with
  | nil => exact .atEnd c (by simp) (by rw [htake]; exact h)
  | cons t rest => exact .atWord c t (by simp) (by rw [htake]; exact h)

theorem Stops.longestViable {us rest : List Token} {c : Category}
    (h : Stops SentenceFails IsSentence us rest c) : LongestViable (us ++ rest) us.length := by
  refine ⟨by simp, ?_, ?_⟩
  · obtain ⟨vs, hvs⟩ := h.goesOn ""
    rw [List.take_left]
    exact ⟨_, hvs⟩
  · rintro vs hvs ⟨ws, hws⟩
    by_contra hlt
    -- the viable words contain the one at which the parser stops
    obtain ⟨xs, rfl⟩ := List.prefix_of_prefix_length_le (List.prefix_append us rest) hvs (by omega)
    cases xs with
    | nil => simp at hlt
    | cons x xs =>
      have hahead : ahead (x :: (xs ++ ws)) = ahead rest := by
        obtain ⟨ys, hys⟩ := (List.prefix_append_right_inj us).mp hvs
        rw [← hys]; rfl
      obtain ⟨f, hf⟩ := h.stuck _ hahead
      rw [List.append_assoc] at hws
      exact (sentence_refuses hf).1 _ (List.prefix_refl _) hws

theorem sentence_of_noProduction {ts : List Token} {first second : Fault}
    (h : .noProduction first second ∈ (parse ts).faults) :
    sentence ts = .error (.noProduction first second) := by
  simp only [parse] at h
  split at h
  · rename_i f hf
    rw [List.mem_singleton.mp h]
    exact hf
  · cases h
  · cases List.mem_singleton.mp h

end Parse

open Parse

/-- Where there is no production, the second fault is that of the position behind the longest
viable beginning of the input, and the first is that of a position no further on; either asks for
a word that would have been viable. They are the same if there is no noun phrase to begin with. -/
theorem noProduction_blames (ts : List Token) (first second : Fault)
    (h : .noProduction first second ∈ (parse ts).faults) :
    ∃ i, LongestViable ts i ∧ Blames ts i second.unwrapped ∧
      (∃ j ≤ i, Blames ts j first.unwrapped) ∧
      ∀ f, nounPhrase ts = .error f → first = second := by
  obtain ⟨_, _, heq, hfirst, hsecond⟩ := sentence_error_iff.mp (sentence_of_noProduction h)
  cases heq
  obtain ⟨us, rest, c, rfl, hmissing, hstops⟩ := hsecond.stops hfirst
  obtain ⟨us', rest', c', hts, hmissing', hstops'⟩ := hfirst.stops
  have hlongest := hstops.longestViable
  refine ⟨us.length, hlongest, ?_, ⟨us'.length, ?_, ?_⟩, fun f hf => ?_⟩
  · rw [hmissing]
    refine blames_missing fun w => ?_
    obtain ⟨vs, hvs⟩ := hstops.goesOn w
    exact viable_snoc hvs
  · obtain ⟨vs, hvs⟩ := hstops'.goesOn ""
    exact hlongest.length_le us' ⟨rest', hts⟩ ⟨_, hvs.isSentence⟩
  · rw [hmissing', ← hts]
    refine blames_missing fun w => ?_
    obtain ⟨vs, hvs⟩ := hstops'.goesOn w
    exact viable_snoc hvs.isSentence
  · have hfirst := simpleSentence_error_iff.mpr hfirst
    have hsecond := coordinatedSentence_error_iff.mpr hsecond
    simp only [simpleSentence, coordinatedSentence, hf] at hfirst hsecond
    exact Except.error.inj (hfirst.symm.trans hsecond)

/-- Both attempts begin with the first noun phrase. The one behind the conjunction gets furthest:
it lacks its noun. -/
theorem noProduction_blames_sale :
    let ts : List Token := [⟨"el", .article⟩, ⟨"sol", .noun⟩, ⟨"y", .conjunction⟩,
      ⟨"la", .article⟩, ⟨"gran", .adjective⟩, ⟨"sale", .verb⟩]
    let first : Fault := .unexpectedToken .verb .conjunction "y"
    let second : Fault := .nounPhrase (.unexpectedToken .noun .verb "sale")
    .noProduction first second ∈ (parse ts).faults ∧
      ∃ i, LongestViable ts i ∧ Blames ts i second.unwrapped ∧
        (∃ j ≤ i, Blames ts j first.unwrapped) ∧
        ∀ f, nounPhrase ts = .error f → first = second := by
  intro ts first second
  have h : .noProduction first second ∈ (parse ts).faults := by decide
  exact ⟨h, noProduction_blames ts first second h⟩

end Castellano
