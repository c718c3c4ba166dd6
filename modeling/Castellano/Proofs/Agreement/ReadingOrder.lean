import Castellano.Analysis
import Castellano.Proofs.Agreement.Pairs
import Castellano.Proofs.Grammar.Phrase
import Castellano.Proofs.Parse.Longest

/-!
# Castellano.Proofs.Agreement.ReadingOrder

The mismatches of a sentence in the order in which it is read. Going through the articles from left
to right, each is paired with the first noun behind it (`placedPairs`). In a sentence articles and
nouns take turns, whatever phrases they stand in (`IsSentence.alternates`), so that every article
has a noun and every noun belongs to one article (`Alternates.articles_eq`, `Alternates.nouns_eq`).

Words may be repeated, and so the words are told apart by their positions: a list of words is looked
at together with the position of each, as `List.zipIdx` gives it.
-/

namespace Castellano

open Grammar

/-! ## Words and their positions -/

def isOf (c : Category) (t : Token × Nat) : Bool := decide (t.1.category = c)

/-- Every article with the first noun behind it. -/
def placedPairs : List (Token × Nat) → List ((Token × Nat) × (Token × Nat))
  | [] => []
  | t :: ts =>
    if isOf .article t then ((ts.find? (isOf .noun)).map fun n => (t, n)).toList ++ placedPairs ts
    else placedPairs ts

theorem map_placedPairs (ps : List (Token × Nat)) :
    (placedPairs ps).map (fun p => (p.1.1, p.2.1)) = articlePairs (ps.map Prod.fst) := by
  induction ps with
  | nil => rfl
  | cons t ps ih =>
    have hnoun : firstNoun? (ps.map Prod.fst) = (ps.find? (isOf .noun)).map Prod.fst := by
      rw [firstNoun?, List.find?_map]
      rfl
    rw [placedPairs, List.map_cons, articlePairs, articlePair?, hnoun, ← ih]
    by_cases ht : t.1.category = .article
    · cases hn : ps.find? (isOf .noun) <;> simp [isOf, ht]
    · simp [isOf, ht]

/-! ## Articles and nouns take turns -/

/-- Articles and nouns take turns, beginning with an article and ending with a noun. The flag tells
whether an article from before is still without its noun. -/
inductive Alternates : Bool → List Token → Prop where
  | nil : Alternates false []
  | article (d : String) {ts : List Token} :
      Alternates true ts → Alternates false (⟨d, .article⟩ :: ts)
  | noun (n : String) {ts : List Token} :
      Alternates false ts → Alternates true (⟨n, .noun⟩ :: ts)
  | other (w : String) {c : Category} {waiting : Bool} {ts : List Token} :
      c ≠ .article → c ≠ .noun → Alternates waiting ts → Alternates waiting (⟨w, c⟩ :: ts)

namespace Alternates

variable {waiting : Bool} {ts us : List Token}

theorem append (hts : Alternates waiting ts) (hus : Alternates false us) :
    Alternates waiting (ts ++ us) := by
  induction hts with
  | nil => exact hus
  | article d _ ih => exact .article d ih
  | noun n _ ih => exact .noun n ih
  | other w harticle hnoun _ ih => exact .other w harticle hnoun ih

theorem exists_noun (h : Alternates waiting ts) (hwaiting : waiting = true) (i : Nat) :
    ∃ n, (ts.zipIdx i).find? (isOf .noun) = some n := by
  induction h generalizing i with
  | nil => cases hwaiting
  | article d _ _ => cases hwaiting
  | noun n _ _ => exact ⟨(⟨n, .noun⟩, i), by simp [List.zipIdx_cons, isOf]⟩
  | other w _ hnoun _ ih =>
    obtain ⟨n, hn⟩ := ih hwaiting (i + 1)
    exact ⟨n, by simp [List.zipIdx_cons, isOf, hnoun, hn]⟩

/-- The articles that have nouns are all the articles. -/
theorem articles_eq (h : Alternates waiting ts) (i : Nat) :
    (placedPairs (ts.zipIdx i)).map Prod.fst = (ts.zipIdx i).filter (isOf .article) := by
  induction h generalizing i with
  | nil => rfl
  | article d hrest ih =>
    obtain ⟨n, hn⟩ := hrest.exists_noun rfl (i + 1)
    simp [List.zipIdx_cons, placedPairs, isOf, hn, ih (i + 1)]
  | noun n _ ih => simp [List.zipIdx_cons, placedPairs, isOf, ih (i + 1)]
  | other w harticle _ _ ih => simp [List.zipIdx_cons, placedPairs, isOf, harticle, ih (i + 1)]

/-- The nouns that articles have, with that of an article from before, are all the nouns. -/
theorem nouns_eq (h : Alternates waiting ts) (i : Nat) :
    (if waiting then ((ts.zipIdx i).find? (isOf .noun)).toList else []) ++
      (placedPairs (ts.zipIdx i)).map Prod.snd = (ts.zipIdx i).filter (isOf .noun) := by
  induction h generalizing i with
  | nil => rfl
  | article d hrest ih =>
    obtain ⟨n, hn⟩ := hrest.exists_noun rfl (i + 1)
    have hih := ih (i + 1)
    simp only [hn] at hih
    simpa [List.zipIdx_cons, placedPairs, isOf, hn] using hih
  | noun n _ ih => simpa [List.zipIdx_cons, placedPairs, isOf] using ih (i + 1)
  | other w harticle hnoun _ ih =>
    simpa [List.zipIdx_cons, placedPairs, isOf, harticle, hnoun] using ih (i + 1)

end Alternates

/-! ## Sentences -/

namespace Grammar

variable {us : List Token}

theorem NounPhrase.alternates (h : NounPhrase us) : Alternates false us := by
  cases h with
  | bare d n => exact .article d (.noun n .nil)
  | after d n a => exact .article d (.noun n (.other a (by decide) (by decide) .nil))
  | before d a n => exact .article d (.other a (by decide) (by decide) (.noun n .nil))

theorem VerbPhrase.alternates (h : VerbPhrase us) : Alternates false us := by
  cases h with
  | verb v hcomplement =>
    refine .other v (by decide) (by decide) ?_
    cases hcomplement with
    | nothing => exact .nil
    | object hobject => exact hobject.alternates
    | adjective a => exact .other a (by decide) (by decide) .nil

theorem Adjunct.alternates (h : Adjunct us) : Alternates false us := by
  cases h with
  | nothing => exact .nil
  | prepositional p hobject => exact .other p (by decide) (by decide) hobject.alternates
  | adjective a => exact .other a (by decide) (by decide) .nil

theorem IsSentence.alternates (h : IsSentence us) : Alternates false us := by
  rcases (isSentence_iff us).mp h with h | h
  · cases h with
    | mk hsubject hpredicate hadjunct =>
      exact hsubject.alternates.append (hpredicate.alternates.append hadjunct.alternates)
  · cases h with
    | mk c hfirst hsecond hpredicate =>
      have hrest := hsecond.alternates.append hpredicate.alternates
      exact hfirst.alternates.append (.other c (by decide) (by decide) hrest)

end Grammar

/-! ## Mismatches -/

namespace Vocabulary

theorem scan_eq_map_filter (v : Vocabulary) (ps : List (Token × Nat)) :
    v.scan (ps.map Prod.fst) =
      ((placedPairs ps).filter fun p => !v.agrees p.1.1.word p.2.1.word).map fun p =>
        ⟨normalize p.1.1.word, normalize p.2.1.word, v.determinerGender p.1.1.word,
          v.nounGender p.2.1.word⟩ := by
  rw [scan, ← map_placedPairs, List.filterMap_map]
  induction placedPairs ps with
  | nil => rfl
  | cons p pairs ih =>
    rw [List.filterMap_cons, List.filter_cons, ih]
    cases hagrees : v.agrees p.1.1.word p.2.1.word <;> simp [mismatch?, hagrees]

/-- Only a determiner with a gender of its own can fail to agree, with a noun of another one. -/
theorem genders_of_not_agrees {v : Vocabulary} {determiner noun : String}
    (h : v.agrees determiner noun = false) :
    v.determinerGender determiner ≠ .neutral ∧
      v.determinerGender determiner ≠ v.nounGender noun := by
  have hadmits : ¬(v.determinerGender determiner = .neutral ∨
      v.nounGender noun = v.determinerGender determiner) := by
    rw [← Gender.admits_iff, ← agrees, h]
    exact Bool.false_ne_true
  rw [not_or] at hadmits
  exact ⟨hadmits.1, Ne.symm hadmits.2⟩

end Vocabulary

/-- The mismatches in the tree of a sentence are those that reading its words finds: each article,
from left to right, goes with the first noun behind it, and the pairs that do not agree are recorded
in their normal forms with their genders, a determiner of a gender of its own with a noun of another
one. The articles of the pairs are all the articles, and the nouns are all the nouns, once each and
in order. What is reported are these mismatches if agreement counts and there is a tree, and
otherwise none. -/
theorem mismatches_of_parse (ts : List Token) :
    (∀ (v : Vocabulary) (tree : Tree), (parse ts).tree? = some tree →
      let placed := ts.zipIdx
      let pairs := placedPairs placed
      pairs.map Prod.fst = placed.filter (isOf .article) ∧
      pairs.map Prod.snd = placed.filter (isOf .noun) ∧
      v.mismatches tree =
        ((pairs.filter fun p => !v.agrees p.1.1.word p.2.1.word).map fun p =>
          ⟨normalize p.1.1.word, normalize p.2.1.word, v.determinerGender p.1.1.word,
            v.nounGender p.2.1.word⟩) ∧
      ∀ m ∈ v.mismatches tree,
        m.determinerGender ≠ .neutral ∧ m.determinerGender ≠ m.nounGender) ∧
    ∀ a : Analyzer,
      (∀ tree, (parse ts).tree? = some tree → a.checksAgreement = true →
        (a.analyzeTokens ts).mismatches = a.vocabulary.mismatches tree) ∧
      (a.checksAgreement = false ∨ (parse ts).tree? = none →
        (a.analyzeTokens ts).mismatches = []) := by
  constructor
  · intro v tree htree placed pairs
    obtain ⟨us, hts, hus, -⟩ := Parse.sentence_covers (Parse.sentence_of_tree htree)
    rw [List.append_nil] at hts
    subst hts
    have halternates := IsSentence.alternates ⟨tree, hus⟩
    have hscan : v.mismatches tree = v.scan (placed.map Prod.fst) := by
      rw [List.zipIdx_map_fst]
      exact (v.scans_sentence tree ts hus).2
    have hmismatches := hscan.trans (v.scan_eq_map_filter placed)
    refine ⟨halternates.articles_eq 0, halternates.nouns_eq 0, hmismatches, ?_⟩
    intro m hm
    rw [hmismatches] at hm
    obtain ⟨p, hp, rfl⟩ := List.mem_map.mp hm
    have hagrees := (List.mem_filter.mp hp).2
    rw [Bool.not_eq_true'] at hagrees
    exact Vocabulary.genders_of_not_agrees hagrees
  · intro a
    simp only [Analyzer.analyzeTokens, Analyzer.mismatches]
    constructor
    · intro tree htree hchecks
      rw [htree, hchecks]
      rfl
    · rintro (hchecks | hnone)
      · rw [hchecks]
        cases (parse ts).tree? <;> rfl
      · rw [hnone]

/-- Of two articles that are the same word, the second one does not agree with its noun, which an
adjective keeps apart from it. -/
theorem mismatches_of_parse_gran_luna :
    let v := (Draft.empty.load "el|art|m\nsol|n|m\nluna|n|f").1.build
    let ts : List Token := [⟨"el", .article⟩, ⟨"sol", .noun⟩, ⟨"mira", .verb⟩, ⟨"el", .article⟩,
      ⟨"gran", .adjective⟩, ⟨"luna", .noun⟩]
    ∃ tree, (parse ts).tree? = some tree ∧
      v.mismatches tree = [⟨"EL", "LUNA", .masculine, .feminine⟩] := by
  intro v ts
  have hlist := (mismatches_of_parse ts).1 v _ rfl
  exact ⟨_, rfl, hlist.2.2.1.trans (by decide +kernel)⟩

end Castellano
