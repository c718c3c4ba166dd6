import Castellano.Proofs.Parse.Unique
import Mathlib.Data.Set.Card

/-!
# Castellano.Proofs.Parse.Ambiguity

How many trees a sentence has, and which of them the parser gives.

A sentence with one subject falls into a subject, a predicate and an adjunct. Where its subject
ends is settled, since a verb follows; where its predicate ends is not quite. The words behind the
verb belong to the predicate or to the adjunct, and the only word that may belong to either is an
adjective at the very end (`adjunct_split`). So two trees of one sentence are `Rivals`: one takes
that adjective into its predicate, and the other leaves it behind (`eq_or_rivals`). The parser,
being greedy, takes it, and the grammar lists the alternative without an adjunct first, so the
parser breaks the tie as the grammar does (`parse_breaks_tie`).
-/

namespace Castellano

open Grammar Parse

/-- The symbols that the root of the tree expands to. -/
def Tree.expansion (t : Tree) : List NonTerminal := t.children.map Tree.symbol

/-- The place of the root's expansion among the alternatives that the grammar lists for it. -/
def Tree.rank (t : Tree) : Nat :=
  (alternatives t.symbol).idxOf (t.expansion.map Symbol.nonterminal)

namespace Grammar

/-- The trees that the grammar allows for the words as a sentence, with words at leaves only. -/
def sentenceTrees (ts : List Token) : Set Tree :=
  {t | t.symbol = .sentence ∧ t.conforms = true ∧ t.plain = true ∧ t.leaves = ts.map Token.leaf}

theorem mem_sentenceTrees_iff {t : Tree} {ts : List Token} :
    t ∈ sentenceTrees ts ↔ t.PlainDerives .sentence ts := by
  constructor
  · rintro ⟨hsymbol, hconforms, hplain, hleaves⟩
    exact ⟨⟨hsymbol, hconforms, hleaves⟩, hplain⟩
  · rintro ⟨⟨hsymbol, hconforms, hleaves⟩, hplain⟩
    exact ⟨hsymbol, hconforms, hplain, hleaves⟩

def nounPhraseCategories : List (List Category) :=
  [[.article, .noun], [.article, .noun, .adjective], [.article, .adjective, .noun]]

/-- The categories of the words of predicates that have an adjective at their end and could be
without it. -/
def loosePredicateCategories : List (List Category) :=
  [[.verb, .adjective], [.verb, .article, .noun, .adjective]]

/-- By their categories the words are a noun phrase and a predicate with a loose adjective. -/
def Ambiguous (ts : List Token) : Prop :=
  ∃ subject ∈ nounPhraseCategories, ∃ predicate ∈ loosePredicateCategories,
    ts.map Token.category = subject ++ predicate

/-! ## Trees of sentences -/

/-- The trees of what follows subject and predicate. -/
inductive AdjunctParts : List Tree → List Token → Prop where
  | nothing : AdjunctParts [] []
  | prepositional (p : String) {object : Tree} {us : List Token} :
      object.PlainDerives .nounPhrase us →
      AdjunctParts [leafOf .preposition p, object] (⟨p, .preposition⟩ :: us)
  | adjective (a : String) : AdjunctParts [leafOf .adjective a] [⟨a, .adjective⟩]

/-- The trees of what follows the first noun phrase of a sentence: a predicate with an adjunct, or
a second subject with the predicate. -/
inductive RemainderParts : List Tree → List Token → Prop where
  | simple {predicate : Tree} {parts : List Tree} {vs ws : List Token} :
      predicate.PlainDerives .verbPhrase vs → AdjunctParts parts ws →
      RemainderParts (predicate :: parts) (vs ++ ws)
  | coordinated {second predicate : Tree} {vs ws : List Token} (c : String) :
      second.PlainDerives .nounPhrase vs → predicate.PlainDerives .verbPhrase ws →
      RemainderParts [leafOf .conjunction c, second, predicate]
        (⟨c, .conjunction⟩ :: (vs ++ ws))

inductive SentenceTree : Tree → List Token → Prop where
  | mk {subject : Tree} {parts : List Tree} {us rest : List Token} :
      subject.PlainDerives .nounPhrase us → RemainderParts parts rest →
      SentenceTree (.branch .sentence (subject :: parts)) (us ++ rest)

theorem AdjunctParts.adjunct {parts : List Tree} {ws : List Token} (h : AdjunctParts parts ws) :
    Adjunct ws := by
  cases h with
  | nothing => exact .nothing
  | prepositional p ho => exact .prepositional p ho.nounPhrase
  | adjective a => exact .adjective a

theorem AdjunctParts.tail_read {parts : List Tree} {ws : List Token}
    (h : AdjunctParts parts ws) : tail ws = (parts, []) := by
  cases h with
  | nothing => rfl
  | @prepositional p object us ho =>
    have hread : nounPhrase (us ++ []) = .ok (object, []) := ho.nounPhrase_read (by simp)
    rw [List.append_nil] at hread
    simp [tail, Parse.prepositional, word_cons, hread]
  | adjective a => rfl

theorem AdjunctParts.unique {parts parts' : List Tree} {ws : List Token}
    (h : AdjunctParts parts ws) (h' : AdjunctParts parts' ws) : parts = parts' :=
  congrArg Prod.fst (h.tail_read.symm.trans h'.tail_read)

theorem sentenceTree_of_plainDerives {t : Tree} {ts : List Token}
    (h : t.PlainDerives .sentence ts) : SentenceTree t ts := by
  obtain ⟨parts, ns, rfl, hns, hparts⟩ := h.eq_branch rfl
  simp only [phrases, List.mem_cons, List.not_mem_nil, or_false] at hns
  rcases hns with rfl | rfl | rfl | rfl
  · obtain ⟨subject, parts, us, rest, rfl, rfl, hs, h₁⟩ := hparts.uncons
    obtain ⟨predicate, parts, vs, ws, rfl, rfl, hp, h₂⟩ := h₁.uncons
    obtain ⟨rfl, rfl⟩ := h₂.nil_inv
    exact .mk hs (.simple hp .nothing)
  · obtain ⟨subject, parts, us, rest, rfl, rfl, hs, h₁⟩ := hparts.uncons
    obtain ⟨predicate, parts, vs, ws, rfl, rfl, hp, h₂⟩ := h₁.uncons
    obtain ⟨p, parts, ws, rfl, rfl, h₃⟩ := h₂.unword rfl
    obtain ⟨object, rfl, ho⟩ := h₃.single_inv
    exact .mk hs (.simple hp (.prepositional p ho))
  · obtain ⟨first, parts, us, rest, rfl, rfl, hf, h₁⟩ := hparts.uncons
    obtain ⟨c, parts, rest, rfl, rfl, h₂⟩ := h₁.unword rfl
    obtain ⟨second, parts, vs, ws, rfl, rfl, hs, h₃⟩ := h₂.uncons
    obtain ⟨predicate, rfl, hp⟩ := h₃.single_inv
    exact .mk hf (.coordinated c hs hp)
  · obtain ⟨subject, parts, us, rest, rfl, rfl, hs, h₁⟩ := hparts.uncons
    obtain ⟨predicate, parts, vs, ws, rfl, rfl, hp, h₂⟩ := h₁.uncons
    obtain ⟨a, parts, ws, rfl, rfl, h₃⟩ := h₂.unword rfl
    obtain ⟨rfl, rfl⟩ := h₃.nil_inv
    exact .mk hs (.simple hp (.adjective a))

/-- Behind the first noun phrase there is a verb or a conjunction, so nothing is read along with
the phrase. -/
theorem RemainderParts.ahead_ne {parts : List Tree} {rest : List Token}
    (h : RemainderParts parts rest) : ahead rest ≠ some .adjective := by
  cases h with
  | simple hp _ => exact hp.verbPhrase.ahead_ne _
  | coordinated c _ _ => exact ahead_conjunction_ne c _

/-! ## Where the predicate ends -/

/-- Words behind a verb phrase that belong to a longer one, and with more words to an adjunct, are
an adjective at the very end or none at all. -/
theorem adjunct_split {vs xs ws : List Token} (hvs : VerbPhrase (vs ++ xs))
    (h : Adjunct (xs ++ ws)) : xs = [] ∨ ∃ a, xs = [⟨a, .adjective⟩] ∧ ws = [] := by
  cases xs with
  | nil => exact .inl rfl
  | cons x xs =>
    rw [List.cons_append] at h
    generalize hts : x :: (xs ++ ws) = ts at h
    cases h with
    | nothing => cases hts
    | prepositional p hnp =>
      obtain ⟨rfl, -⟩ := List.cons.inj hts
      exact absurd rfl (hvs.no_preposition ⟨p, .preposition⟩ (by simp))
    | adjective a =>
      simp only [List.cons.injEq, List.append_eq_nil_iff] at hts
      obtain ⟨rfl, rfl, rfl⟩ := hts
      exact .inr ⟨a, rfl, rfl⟩

/-- Two ways to take apart words that end with an adjective: it belongs to the predicate, or it
stands behind a predicate that could take it. -/
inductive RivalParts : List Tree → List Tree → List Token → Prop where
  | mk {long short : Tree} {vs : List Token} (a : String) :
      long.PlainDerives .verbPhrase (vs ++ [⟨a, .adjective⟩]) →
      short.PlainDerives .verbPhrase vs →
      RivalParts [long] [short, leafOf .adjective a] (vs ++ [⟨a, .adjective⟩])

theorem eq_or_rivalParts_of_split {long short : Tree} {parts parts' : List Tree}
    {vs xs ws : List Token} (hlong : long.PlainDerives .verbPhrase (vs ++ xs))
    (hparts : AdjunctParts parts ws) (hshort : short.PlainDerives .verbPhrase vs)
    (hparts' : AdjunctParts parts' (xs ++ ws)) :
    long :: parts = short :: parts' ∨
      RivalParts (long :: parts) (short :: parts') (vs ++ (xs ++ ws)) := by
  rcases adjunct_split hlong.verbPhrase hparts'.adjunct with rfl | ⟨a, rfl, rfl⟩
  · left
    rw [List.append_nil] at hlong
    rw [List.nil_append] at hparts'
    rw [hlong.verbPhrase_unique hshort, hparts.unique hparts']
  · right
    rw [hparts.unique .nothing, hparts'.unique (.adjective a)]
    exact .mk a hlong hshort

theorem eq_or_rivalParts {parts parts' : List Tree} {rest : List Token}
    (h : RemainderParts parts rest) (h' : RemainderParts parts' rest) :
    parts = parts' ∨ RivalParts parts parts' rest ∨ RivalParts parts' parts rest := by
  cases h with
  | @simple p parts vs ws hp hparts =>
    have hverb := hp.verbPhrase.ahead ws
    generalize hrest : vs ++ ws = rest at h' hverb
    cases h' with
    | simple hp' hparts' =>
      -- one of the predicates is the longer one
      rcases List.append_eq_append_iff.mp hrest with ⟨xs, rfl, rfl⟩ | ⟨xs, rfl, rfl⟩
      · rw [List.append_assoc]
        exact (eq_or_rivalParts_of_split hp' hparts' hp hparts).imp Eq.symm .inr
      · exact (eq_or_rivalParts_of_split hp hparts hp' hparts').imp_right .inl
    | coordinated c _ _ => cases hverb
  | @coordinated s p vs ws c hs hp =>
    -- a conjunction is no verb, so both are coordinated
    generalize hrest : ⟨c, .conjunction⟩ :: (vs ++ ws) = rest at h'
    cases h' with
    | @simple p' parts' vs' ws' hp' _ =>
      have hverb := hp'.verbPhrase.ahead ws'
      rw [← hrest] at hverb
      cases hverb
    | @coordinated s' p' vs' ws' c' hs' hp' =>
      left
      obtain ⟨hc, hrest⟩ := List.cons.inj hrest
      have hahead := hp.verbPhrase.ahead_ne []
      have hahead' := hp'.verbPhrase.ahead_ne []
      rw [List.append_nil] at hahead hahead'
      obtain ⟨rfl, -, rfl⟩ := hs.nounPhrase_unique hs' hahead hahead' hrest
      rw [hp.verbPhrase_unique hp']
      cases hc
      rfl

/-- Two trees of one sentence that ends with an adjective: they have the same subject, and what
follows it is taken apart in the two ways. -/
inductive Rivals : Tree → Tree → List Token → Prop where
  | mk {subject : Tree} {parts parts' : List Tree} {us rest : List Token} :
      subject.PlainDerives .nounPhrase us → RivalParts parts parts' rest →
      Rivals (.branch .sentence (subject :: parts)) (.branch .sentence (subject :: parts'))
        (us ++ rest)

theorem eq_or_rivals {t u : Tree} {ts : List Token} (ht : t ∈ sentenceTrees ts)
    (hu : u ∈ sentenceTrees ts) : t = u ∨ Rivals t u ts ∨ Rivals u t ts := by
  have ht := sentenceTree_of_plainDerives (mem_sentenceTrees_iff.mp ht)
  have hu := sentenceTree_of_plainDerives (mem_sentenceTrees_iff.mp hu)
  cases ht with
  | @mk s parts us rest hs hparts =>
    generalize hts : us ++ rest = ts at hu
    cases hu with
    | mk hs' hparts' =>
      obtain ⟨rfl, rfl, rfl⟩ := hs.nounPhrase_unique hs' hparts.ahead_ne hparts'.ahead_ne hts
      rcases eq_or_rivalParts hparts hparts' with rfl | hrivals | hrivals
      · exact .inl rfl
      · exact .inr (.inl (.mk hs hrivals))
      · exact .inr (.inr (.mk hs hrivals))

namespace Rivals

variable {t u : Tree} {ts : List Token}

theorem symbol_eq (h : Rivals t u ts) : t.symbol = .sentence ∧ u.symbol = .sentence := by
  cases h with
  | mk hs hparts => exact ⟨rfl, rfl⟩

theorem expansion_eq (h : Rivals t u ts) :
    t.expansion = [.nounPhrase, .verbPhrase] ∧
      u.expansion = [.nounPhrase, .verbPhrase, .adjective] := by
  cases h with
  | mk hs hparts =>
    cases hparts with
    | mk a hlong hshort =>
      simp only [Tree.expansion, Tree.branch, Tree.children, List.map_cons, List.map_nil,
        hs.derives.symbol_eq, hlong.derives.symbol_eq, hshort.derives.symbol_eq]
      exact ⟨trivial, rfl⟩

/-- The grammar lists the expansion with the adjective in the predicate first. -/
theorem rank_lt (h : Rivals t u ts) : t.rank < u.rank := by
  rw [Tree.rank, Tree.rank, h.symbol_eq.1, h.symbol_eq.2, h.expansion_eq.1, h.expansion_eq.2]
  decide

theorem ne (h : Rivals t u ts) : t ≠ u := by
  rintro rfl
  exact Nat.lt_irrefl _ h.rank_lt

theorem mem (h : Rivals t u ts) : t ∈ sentenceTrees ts ∧ u ∈ sentenceTrees ts := by
  rw [mem_sentenceTrees_iff, mem_sentenceTrees_iff]
  cases h with
  | mk hs hparts =>
    cases hparts with
    | mk a hlong hshort =>
      have hin := hs.cons (hlong.cons Tree.plainDerivesAll_nil)
      have hout := hs.cons (hshort.cons (Tree.plainDerivesAll_nil.word (n := .adjective) rfl a))
      rw [List.append_nil] at hin
      exact ⟨hin.branch (by simp [phrases]), hout.branch (by simp [phrases])⟩

/-- The greedy readers put the adjective into the predicate. -/
theorem parse_eq (h : Rivals t u ts) : parse ts = .accepted t := by
  cases h with
  | @mk subject parts parts' us rest hs hparts =>
    cases hparts with
    | @mk long short vs a hlong hshort =>
      have hsubject : nounPhrase (us ++ (vs ++ [⟨a, .adjective⟩])) =
          .ok (subject, vs ++ [⟨a, .adjective⟩]) :=
        hs.nounPhrase_read fun _ => hshort.verbPhrase.ahead_ne [⟨a, .adjective⟩]
      have htail : tail [] = ([], []) := rfl
      simp [parse, sentence, simpleSentence, hsubject, hlong.verbPhrase_read, htail]

end Rivals

/-! ## Words with two trees -/

theorem NounPhrase.categories_mem {us : List Token} (h : NounPhrase us) :
    us.map Token.category ∈ nounPhraseCategories := by
  cases h <;> simp [nounPhraseCategories]

theorem nounPhrase_of_categories {us : List Token}
    (h : us.map Token.category ∈ nounPhraseCategories) : NounPhrase us := by
  simp only [nounPhraseCategories, List.mem_cons, List.not_mem_nil, or_false,
    List.map_eq_cons_iff, List.map_eq_nil_iff] at h
  rcases h with ⟨⟨d, _⟩, _, rfl, rfl, ⟨n, _⟩, _, rfl, rfl, rfl⟩ |
    ⟨⟨d, _⟩, _, rfl, rfl, ⟨n, _⟩, _, rfl, rfl, ⟨a, _⟩, _, rfl, rfl, rfl⟩ |
    ⟨⟨d, _⟩, _, rfl, rfl, ⟨a, _⟩, _, rfl, rfl, ⟨n, _⟩, _, rfl, rfl, rfl⟩
  · exact .bare d n
  · exact .after d n a
  · exact .before d a n

theorem categories_of_extended {vs : List Token} {a : String} (h : VerbPhrase vs)
    (hlong : VerbPhrase (vs ++ [⟨a, .adjective⟩])) :
    (vs ++ [(⟨a, .adjective⟩ : Token)]).map Token.category ∈ loosePredicateCategories := by
  cases h with
  | verb v hc =>
    rw [List.cons_append] at hlong
    cases hlong with
    | verb _ hlong =>
      cases hc with
      | nothing => simp [loosePredicateCategories]
      | object hnp =>
        cases hnp with
        | bare d n => simp [loosePredicateCategories]
        | after d n b =>
          cases hlong with
          | object hlong => cases hlong
        | before d b n =>
          cases hlong with
          | object hlong => cases hlong
      | adjective b =>
        cases hlong with
        | object hlong => cases hlong

theorem exists_extended_of_categories {ws : List Token}
    (h : ws.map Token.category ∈ loosePredicateCategories) :
    ∃ vs a, ws = vs ++ [⟨a, .adjective⟩] ∧ VerbPhrase vs ∧
      VerbPhrase (vs ++ [⟨a, .adjective⟩]) := by
  simp only [loosePredicateCategories, List.mem_cons, List.not_mem_nil, or_false,
    List.map_eq_cons_iff, List.map_eq_nil_iff] at h
  rcases h with ⟨⟨v, _⟩, _, rfl, rfl, ⟨a, _⟩, _, rfl, rfl, rfl⟩ |
    ⟨⟨v, _⟩, _, rfl, rfl, ⟨d, _⟩, _, rfl, rfl, ⟨n, _⟩, _, rfl, rfl, ⟨a, _⟩, _, rfl, rfl, rfl⟩
  · exact ⟨[⟨v, .verb⟩], a, rfl, .verb v .nothing, .verb v (.adjective a)⟩
  · exact ⟨[⟨v, .verb⟩, ⟨d, .article⟩, ⟨n, .noun⟩], a, rfl, .verb v (.object (.bare d n)),
      .verb v (.object (.after d n a))⟩

theorem ambiguous_iff_rivals (ts : List Token) : Ambiguous ts ↔ ∃ t u, Rivals t u ts := by
  constructor
  · rintro ⟨subject, hsubject, predicate, hpredicate, hts⟩
    obtain ⟨us, ws, rfl, rfl, rfl⟩ := List.map_eq_append_iff.mp hts
    obtain ⟨s, hs⟩ := Tree.exists_plainDerives_nounPhrase (nounPhrase_of_categories hsubject)
    obtain ⟨vs, a, rfl, hvs, hlong⟩ := exists_extended_of_categories hpredicate
    obtain ⟨long, hlong⟩ := Tree.exists_plainDerives_verbPhrase hlong
    obtain ⟨short, hshort⟩ := Tree.exists_plainDerives_verbPhrase hvs
    exact ⟨_, _, .mk hs (.mk a hlong hshort)⟩
  · rintro ⟨t, u, h⟩
    cases h with
    | @mk subject parts parts' us rest hs hparts =>
      cases hparts with
      | mk a hlong hshort =>
        exact ⟨_, hs.nounPhrase.categories_mem, _,
          categories_of_extended hshort.verbPhrase hlong.verbPhrase, List.map_append⟩

/-! ## Counting -/

theorem Rivals.eq_left {t u t' u' : Tree} {ts : List Token} (h : Rivals t u ts)
    (h' : Rivals t' u' ts) : t = t' := by
  have hparse := h.parse_eq
  rw [h'.parse_eq] at hparse
  cases hparse
  rfl

theorem Rivals.sentenceTrees_eq {t u : Tree} {ts : List Token} (h : Rivals t u ts) :
    sentenceTrees ts = {t, u} := by
  obtain ⟨ht, hu⟩ := h.mem
  ext w
  rw [Set.mem_insert_iff, Set.mem_singleton_iff]
  constructor
  · intro hw
    rcases eq_or_rivals hu hw with hwu | h' | h'
    · exact .inr hwu.symm
    · exact absurd (h.eq_left h') h.ne
    · exact .inl (h.eq_left h').symm
  · rintro (rfl | rfl)
    · exact ht
    · exact hu

/-- A sentence has one tree at most, or it has a pair of rivals and no other tree. -/
theorem subsingleton_or_rivals (ts : List Token) :
    (sentenceTrees ts).Subsingleton ∨ ∃ t u, Rivals t u ts := by
  by_cases h : (sentenceTrees ts).Subsingleton
  · exact .inl h
  · right
    obtain ⟨t, ht, u, hu, hne⟩ := Set.not_subsingleton_iff.mp h
    rcases eq_or_rivals ht hu with heq | hrivals | hrivals
    · exact absurd heq hne
    · exact ⟨t, u, hrivals⟩
    · exact ⟨u, t, hrivals⟩

theorem Rivals.encard_eq {t u : Tree} {ts : List Token} (h : Rivals t u ts) :
    (sentenceTrees ts).encard = 2 := by
  rw [h.sentenceTrees_eq, Set.encard_pair h.ne]

theorem encard_sentenceTrees_le (ts : List Token) : (sentenceTrees ts).encard ≤ 2 := by
  rcases subsingleton_or_rivals ts with h | ⟨t, u, h⟩
  · exact (Set.encard_le_one_iff_subsingleton.mpr h).trans one_le_two
  · exact h.encard_eq.le

theorem encard_sentenceTrees_eq_two_iff (ts : List Token) :
    (sentenceTrees ts).encard = 2 ↔ Ambiguous ts := by
  rw [ambiguous_iff_rivals]
  constructor
  · intro htwo
    rcases subsingleton_or_rivals ts with h | h
    · have hle := Set.encard_le_one_iff_subsingleton.mpr h
      rw [htwo] at hle
      exact absurd hle (by decide)
    · exact h
  · rintro ⟨t, u, h⟩
    exact h.encard_eq

end Grammar

theorem Parse.exists_tree_of_isSentence {ts : List Token} (h : IsSentence ts) :
    ∃ t ∈ sentenceTrees ts, (parse ts).tree? = some t := by
  have houtcome := parse_outcome ts
  generalize hparse : parse ts = r at houtcome
  cases houtcome with
  | accepted t ht =>
    have htree := sentence_of_tree (congrArg Result.tree? hparse)
    obtain ⟨us, hts, hus, hplain⟩ := sentence_covers htree
    rw [List.append_nil] at hts
    exact ⟨t, mem_sentenceTrees_iff.mpr ⟨ht, hplain⟩, rfl⟩
  | unconsumed us rest hts hne hlongest => exact absurd h (hlongest.not_isSentence hts hne)
  | noProduction first second hrefuses => exact absurd h (hrefuses ts (List.prefix_refl ts))

/-- A sentence has at most two trees. It has two exactly if it ends with an adjective that the
predicate may take or leave, and the parser gives the tree whose root expands by the alternative
that the grammar lists first: the one with the adjective in the predicate. -/
theorem parse_breaks_tie (ts : List Token) :
    (sentenceTrees ts).encard ≤ 2 ∧
    ((sentenceTrees ts).encard = 2 ↔ Ambiguous ts) ∧
    ((sentenceTrees ts).Nonempty →
      ∃ t ∈ sentenceTrees ts, (parse ts).tree? = some t ∧
        ∀ u ∈ sentenceTrees ts, u ≠ t → t.rank < u.rank ∧
          t.expansion = [.nounPhrase, .verbPhrase] ∧
          u.expansion = [.nounPhrase, .verbPhrase, .adjective]) := by
  refine ⟨encard_sentenceTrees_le ts, encard_sentenceTrees_eq_two_iff ts, ?_⟩
  rintro ⟨s, hs⟩
  obtain ⟨t, ht, hparse⟩ := exists_tree_of_isSentence ⟨s, (mem_sentenceTrees_iff.mp hs).derives⟩
  refine ⟨t, ht, hparse, fun u hu hne => ?_⟩
  rcases eq_or_rivals ht hu with heq | hrivals | hrivals
  · exact absurd heq.symm hne
  · exact ⟨hrivals.rank_lt, hrivals.expansion_eq⟩
  · -- the parser would have given the other tree
    rw [hrivals.parse_eq] at hparse
    exact absurd (Option.some.inj hparse) hne

end Castellano
