import Castellano.Proofs.Agreement.Compatible
import Castellano.Proofs.Analysis.Validity
import Castellano.Proofs.Composition.Run

/-!
# Castellano.Proofs.Composition.Sentences

Composing word by word against analyzing sentence by sentence. A composition that is never refused
a word and never started again goes from one complete sentence to the next one in three words
(`Block`), and such three words are just those that an analysis finds valid (`block_iff`). So the
two ways to judge words come to the same (`composes_iff_blocks_valid`).

The words of a composition are kept in their normal form, those of an analysis are as they came;
for the agreement it makes no difference.
-/

namespace Castellano

namespace Composition

variable {v : Vocabulary}

/-! ## Words that take a sentence on -/

/-- The word is accepted and does not start the sentence again. -/
def Onward (r : Reply) : Prop := r.accepted = true ∧ r.isRestart = false

/-- All words are taken on, one after the other. -/
def AllOnward (v : Vocabulary) (c : Composition) (ts : List Token) : Prop :=
  ∀ e ∈ history v c (ts.map Act.ofToken), ∃ r, e.reply? = some r ∧ Onward r

def runWords (v : Vocabulary) (c : Composition) (ts : List Token) : Composition :=
  run v c (ts.map Act.ofToken)

theorem allOnward_cons_iff (c : Composition) (t : Token) (ts : List Token) :
    AllOnward v c (t :: ts) ↔
      Onward (c.push v t.word t.category).2 ∧
        AllOnward v (c.push v t.word t.category).1 ts := by
  simp [AllOnward, history, perform, Act.ofToken]

theorem runWords_nil (c : Composition) : runWords v c [] = c := rfl

theorem runWords_cons (c : Composition) (t : Token) (ts : List Token) :
    runWords v c (t :: ts) = runWords v (c.push v t.word t.category).1 ts := rfl

namespace Taken

variable {w : String} {p p' : Progress} {k : Category} {r : Reply}

/-- A word is taken on if its category comes next. -/
theorem cases_of_onward (h : Taken v w p k p' r) (hr : Onward r) :
    (p.stage = .initial ∧ k = .article ∧
        p' = { p.setArticle v w with stage := .articleSeen }) ∨
      (p.stage = .articleSeen ∧ k = .noun ∧ (∀ a, p.article? = some a → v.agrees a w = true) ∧
        p' = { p with stage := .nounSeen, noun? := some w }) ∨
      (p.stage = .nounSeen ∧ k = .verb ∧ p' = { p with stage := .final, verb? := some w }) := by
  cases h with
  | opened hstage => exact .inl ⟨hstage, rfl, rfl⟩
  | continued hstage hagrees => exact .inr (.inl ⟨hstage, rfl, hagrees, rfl⟩)
  | completed hstage => exact .inr (.inr ⟨hstage, rfl, rfl⟩)
  | restarted _ => cases hr.2
  | disagreement _ _ _ => cases hr.1
  | outOfOrder _ _ => cases hr.1

theorem article_of_onward (h : Taken v w p k p' r) (hr : Onward r) (hp : p = .empty) :
    k = .article ∧ p' = .ofArticle v w := by
  subst hp
  rcases h.cases_of_onward hr with ⟨-, hk, hp'⟩ | ⟨hstage, -⟩ | ⟨hstage, -⟩
  · exact ⟨hk, hp'⟩
  · cases hstage
  · cases hstage

theorem noun_of_onward (h : Taken v w p k p' r) (hr : Onward r) {a : String}
    (hp : p = .ofArticle v a) : k = .noun ∧ v.agrees a w = true ∧ p' = .ofPhrase v a w := by
  subst hp
  rcases h.cases_of_onward hr with ⟨hstage, -⟩ | ⟨-, hk, hagrees, hp'⟩ | ⟨hstage, -⟩
  · cases hstage
  · exact ⟨hk, hagrees a rfl, hp'⟩
  · cases hstage

theorem verb_of_onward (h : Taken v w p k p' r) (hr : Onward r) {a n : String}
    (hp : p = .ofPhrase v a n) : k = .verb ∧ p' = .ofSentence v a n w := by
  subst hp
  rcases h.cases_of_onward hr with ⟨hstage, -⟩ | ⟨hstage, -⟩ | ⟨-, hk, hp'⟩
  · cases hstage
  · cases hstage
  · exact ⟨hk, hp'⟩

end Taken

/-! ## Blocks -/

/-- An article, a noun that agrees with it, and a verb. -/
inductive Block (v : Vocabulary) : List Token → Prop where
  | mk {a n : String} (w : String) : v.agrees a n = true →
      Block v [⟨a, .article⟩, ⟨n, .noun⟩, ⟨w, .verb⟩]

theorem agreesThroughout_three_iff (v : Vocabulary) (a n w : String) :
    v.AgreesThroughout [⟨a, .article⟩, ⟨n, .noun⟩, ⟨w, .verb⟩] ↔ v.agrees a n = true := by
  simp [Vocabulary.agreesThroughout_cons_iff, Vocabulary.agreesThroughout_nil, firstNoun?]

theorem block_iff (v : Vocabulary) (b : List Token) :
    Block v b ↔
      b.length = 3 ∧ ((Analyzer.ofVocabulary v).analyzeTokens b).valid = true := by
  rw [Analyzer.valid_analyzeTokens_iff]
  constructor
  · rintro ⟨w, hagrees⟩
    refine ⟨rfl, (isSentence_three_iff _ _ _).mpr ⟨rfl, rfl, rfl⟩, fun _ => ?_⟩
    exact (agreesThroughout_three_iff v _ _ w).mpr hagrees
  · rintro ⟨hlength, hsentence, hagrees⟩
    obtain ⟨⟨a, _⟩, ⟨n, _⟩, ⟨w, _⟩, rfl⟩ := List.length_eq_three.mp hlength
    obtain ⟨rfl, rfl, rfl⟩ := (isSentence_three_iff _ _ _).mp hsentence
    exact .mk w ((agreesThroughout_three_iff v a n w).mp (hagrees rfl))

theorem noun_of_allOnward {c : Composition} (hc : c.progress.opened = .empty) {t u : Token}
    {ts : List Token} (h : AllOnward v c (t :: u :: ts)) :
    t.category = .article ∧ u.category = .noun ∧ v.agrees t.word u.word = true ∧
      ∃ c' a n, c'.progress = .ofPhrase v a n ∧ AllOnward v c' ts ∧
        runWords v c (t :: u :: ts) = runWords v c' ts := by
  rw [allOnward_cons_iff] at h
  obtain ⟨ht, h⟩ := h
  obtain ⟨harticle, hp⟩ := (taken_push v c t.word t.category).article_of_onward ht hc
  rw [allOnward_cons_iff] at h
  obtain ⟨hu, h⟩ := h
  have hopened := congrArg Progress.opened hp
  obtain ⟨hnoun, hagrees, hp⟩ := (taken_push v _ u.word u.category).noun_of_onward hu hopened
  rw [v.agrees_normalize] at hagrees
  exact ⟨harticle, hnoun, hagrees, _, _, _, hp, h, rfl⟩

/-- From one place without a sentence to the next one, words that are all taken on form blocks. -/
theorem exists_blocks : ∀ (ts : List Token) {c : Composition}, c.progress.opened = .empty →
    AllOnward v c ts → (runWords v c ts).progress.opened = .empty →
    ∃ blocks : List (List Token), blocks.flatten = ts ∧ ∀ b ∈ blocks, Block v b
  | [], _, _, _, _ => ⟨[], rfl, by simp⟩
  | [t], c, hc, h, hend => by
    obtain ⟨ht, -⟩ := (allOnward_cons_iff c t []).mp h
    obtain ⟨-, hp⟩ := (taken_push v c t.word t.category).article_of_onward ht hc
    rw [runWords_cons, runWords_nil, hp] at hend
    cases hend
  | [t, u], c, hc, h, hend => by
    obtain ⟨-, -, -, c', a, n, hp, -, hrun⟩ := noun_of_allOnward hc h
    rw [hrun, runWords_nil, hp] at hend
    cases hend
  -- three words lead back to where no sentence stands, and the rest is shorter
  | t :: u :: w :: ts, c, hc, h, hend => by
    obtain ⟨ht, hu, hagrees, c', a, n, hp, h, hrun⟩ := noun_of_allOnward hc h
    rw [allOnward_cons_iff] at h
    obtain ⟨hw, h⟩ := h
    have hopened := congrArg Progress.opened hp
    obtain ⟨hverb, hp⟩ := (taken_push v c' w.word w.category).verb_of_onward hw hopened
    rw [hrun, runWords_cons] at hend
    obtain ⟨blocks, hflatten, hblocks⟩ := exists_blocks ts (by rw [hp]; rfl) h hend
    have hblock : Block v [t, u, w] := by
      obtain ⟨d, _⟩ := t
      obtain ⟨m, _⟩ := u
      obtain ⟨x, _⟩ := w
      obtain rfl := ht
      obtain rfl := hu
      obtain rfl := hverb
      exact .mk x hagrees
    refine ⟨[t, u, w] :: blocks, by rw [List.flatten_cons, hflatten]; rfl, ?_⟩
    intro b hb
    rcases List.mem_cons.mp hb with rfl | hb
    · exact hblock
    · exact hblocks b hb

theorem runWords_block {c : Composition} (hc : c.progress.opened = .empty) {b : List Token}
    (hb : Block v b) (ts : List Token) :
    ∃ c' : Composition, c'.progress.stage = .final ∧ c'.completed = c.completed + 1 ∧
      runWords v c (b ++ ts) = runWords v c' ts ∧
      (AllOnward v c (b ++ ts) ↔ AllOnward v c' ts) := by
  cases hb with
  | @mk a n w hagrees =>
    rw [← v.agrees_normalize] at hagrees
    simp only [List.cons_append, List.nil_append, allOnward_cons_iff, runWords_cons,
      push_article hc, push_noun hagrees, push_verb]
    refine ⟨_, rfl, rfl, rfl, ?_⟩
    simp [Onward, Reply.accepted, Reply.isRestart]

theorem runWords_flatten {c : Composition} (hc : c.progress.opened = .empty)
    {blocks : List (List Token)} (hblocks : ∀ b ∈ blocks, Block v b) :
    AllOnward v c blocks.flatten ∧
      (runWords v c blocks.flatten).completed = c.completed + blocks.length ∧
      (blocks ≠ [] → (runWords v c blocks.flatten).progress.stage = .final) := by
  induction blocks generalizing c with
  | nil => exact ⟨by simp [AllOnward, history], rfl, fun h => absurd rfl h⟩
  | cons b blocks ih =>
    have hrest : ∀ d ∈ blocks, Block v d := fun d hd => hblocks d (List.mem_cons_of_mem b hd)
    obtain ⟨c', hfinal, hcompleted, hrun, honward⟩ :=
      runWords_block hc (hblocks b List.mem_cons_self) blocks.flatten
    obtain ⟨hall, hcount, hstage⟩ := ih (Progress.opened_of_stage_eq hfinal) hrest
    rw [List.flatten_cons, honward, hrun, hcount, hcompleted, List.length_cons]
    refine ⟨hall, by omega, fun _ => ?_⟩
    by_cases hnil : blocks = []
    · rw [hnil]; exact hfinal
    · exact hstage hnil

theorem length_flatten {blocks : List (List Token)} (hblocks : ∀ b ∈ blocks, Block v b) :
    blocks.flatten.length = 3 * blocks.length := by
  induction blocks with
  | nil => rfl
  | cons b blocks ih =>
    have hb : b.length = 3 := ((block_iff v b).mp (hblocks b List.mem_cons_self)).1
    have hrest := ih fun d hd => hblocks d (List.mem_cons_of_mem b hd)
    rw [List.flatten_cons, List.length_append, hb, hrest, List.length_cons]
    omega

/-- The words are all taken on, and the last one completes a sentence. -/
def Composes (v : Vocabulary) (ts : List Token) : Prop :=
  AllOnward v start ts ∧ (runWords v start ts).progress.stage = .final

/-- Words compose sentences exactly if they are blocks of three that an analysis finds valid, and
then each block has been one sentence. -/
theorem composes_iff_blocks_valid (v : Vocabulary) (ts : List Token) (hts : ts ≠ []) :
    let a := Analyzer.ofVocabulary v
    (Composes a.vocabulary ts ↔ ∃ blocks : List (List Token), blocks.flatten = ts ∧
      ∀ b ∈ blocks, b.length = 3 ∧ (a.analyzeTokens b).valid = true) ∧
    (Composes a.vocabulary ts →
      (runWords a.vocabulary start ts).completed = ts.length / 3) := by
  intro a
  have hblocks : Composes v ts → ∃ blocks : List (List Token), blocks.flatten = ts ∧
      ∀ b ∈ blocks, Block v b := by
    rintro ⟨hall, hfinal⟩
    exact exists_blocks ts rfl hall (Progress.opened_of_stage_eq hfinal)
  refine ⟨⟨fun h => ?_, ?_⟩, fun h => ?_⟩
  · obtain ⟨blocks, hflatten, hvalid⟩ := hblocks h
    exact ⟨blocks, hflatten, fun b hb => (block_iff v b).mp (hvalid b hb)⟩
  · rintro ⟨blocks, rfl, hvalid⟩
    have hvalid : ∀ b ∈ blocks, Block v b := fun b hb => (block_iff v b).mpr (hvalid b hb)
    have hne : blocks ≠ [] := by
      rintro rfl
      exact hts rfl
    obtain ⟨hall, -, hfinal⟩ := runWords_flatten (c := start) rfl hvalid
    exact ⟨hall, hfinal hne⟩
  · obtain ⟨blocks, rfl, hvalid⟩ := hblocks h
    obtain ⟨-, hcount, -⟩ := runWords_flatten (c := start) rfl hvalid
    have hcount : (runWords v start blocks.flatten).completed = 0 + blocks.length := hcount
    show (runWords v start blocks.flatten).completed = _
    rw [hcount, length_flatten hvalid]
    omega

/-- Two sentences in a row, written with small letters and blanks. -/
theorem composes_two_sentences :
    let d := ((Draft.empty.add .article .masculine "El").add .noun .masculine "sol").add
      .noun .feminine "luna"
    let a := Analyzer.ofVocabulary d.build
    let b₁ : List Token := [⟨" el", .article⟩, ⟨"Sol", .noun⟩, ⟨"sale", .verb⟩]
    let b₂ : List Token := [⟨"una", .article⟩, ⟨"luna ", .noun⟩, ⟨"brilla", .verb⟩]
    b₁ ++ b₂ ≠ [] ∧ Composes a.vocabulary (b₁ ++ b₂) ∧
      (runWords a.vocabulary start (b₁ ++ b₂)).completed = 2 := by
  intro d a b₁ b₂
  have hne : b₁ ++ b₂ ≠ [] := by decide
  obtain ⟨hiff, hcount⟩ := composes_iff_blocks_valid d.build (b₁ ++ b₂) hne
  have hvalid : ∀ b ∈ [b₁, b₂], b.length = 3 ∧ (a.analyzeTokens b).valid = true := by
    decide +kernel
  have hcomposes := hiff.mpr ⟨[b₁, b₂], rfl, hvalid⟩
  have htwo : (b₁ ++ b₂).length / 3 = 2 := by decide
  exact ⟨hne, hcomposes, (hcount hcomposes).trans htwo⟩

end Composition
end Castellano
