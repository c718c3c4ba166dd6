import Castellano.Composition

/-!
# Castellano.Proofs.Composition.Step

What one word does to a composition.

`Taken v w p k p' r` lists it: a word `w` of category `k` that is offered where the sentence has
come as far as `p` takes it on to `p'`, with the reply `r`. There are four ways for a word to be
accepted and two for it to be refused, and a refusal leaves the sentence where it was. What holds
of whole runs is derived from this list and from the equations for words in order (`push_article`
and those behind it), and `push` is not opened again.

An offer depends on a composition through `Progress.opened` only, so it makes no difference
whether a complete sentence has been put away before (`push_congr`).
-/

namespace Castellano

/-- The automaton goes on with the category that it expects. -/
theorem Stage.success_step_iff (s : Stage) (k : Category) :
    (s.step k).success = true ↔ s.expected? = some k := by
  cases s <;> cases k <;> decide

namespace Progress

theorem opened_of_stage_ne {p : Progress} (h : p.stage ≠ .final) : p.opened = p := if_neg h

theorem opened_of_stage_eq {p : Progress} (h : p.stage = .final) : p.opened = .empty := if_pos h

theorem stage_opened_ne (p : Progress) : p.opened.stage ≠ .final := by
  rw [opened]
  split
  · exact nofun
  · assumption

/-- The sentence has just its article. -/
def ofArticle (v : Vocabulary) (a : String) : Progress :=
  ⟨.articleSeen, some a, some (v.determinerGender a), none, none⟩

/-- The sentence has its article and its noun. -/
def ofPhrase (v : Vocabulary) (a n : String) : Progress :=
  ⟨.nounSeen, some a, some (v.determinerGender a), some n, none⟩

def ofSentence (v : Vocabulary) (a n w : String) : Progress :=
  ⟨.final, some a, some (v.determinerGender a), some n, some w⟩

theorem opposed?_eq_none_iff {v : Vocabulary} {p : Progress} {word : String} {k : Category} :
    p.opposed? v word k = none ↔
      (k = .noun → p.stage = .articleSeen → ∀ a, p.article? = some a → v.agrees a word = true) := by
  simp [opposed?]

theorem opposed?_of_ne (v : Vocabulary) (p : Progress) (word : String) {k : Category}
    (hk : k ≠ .noun) : p.opposed? v word k = none := if_neg fun h => hk h.1

theorem opposed?_eq_some_iff {v : Vocabulary} {p : Progress} {word : String} {k : Category}
    {a : String} : p.opposed? v word k = some a ↔
      k = .noun ∧ p.stage = .articleSeen ∧ p.article? = some a ∧ v.agrees a word = false := by
  simp [opposed?, and_assoc]

theorem isMidSentence_iff {p : Progress} :
    p.isMidSentence = true ↔ p.stage = .articleSeen ∨ p.stage = .nounSeen := by
  simp [isMidSentence]

end Progress

theorem Reply.eq_completed {r : Reply} (h : r.isCompletion = true) : r = .completed := by
  cases r with
  | completed => rfl
  | _ => cases h

namespace Composition

variable {v : Vocabulary} {w : String} {p p' : Progress} {k : Category} {r : Reply}

/-! ## The cases -/

/-- What becomes of a sentence that stands at a progress, and of a normal word offered to it. -/
inductive Taken (v : Vocabulary) (w : String) : Progress → Category → Progress → Reply → Prop where
  | opened {p : Progress} : p.stage = .initial →
      Taken v w p .article { p.setArticle v w with stage := .articleSeen }
        (.opened (v.determinerGender w))
  | restarted {p : Progress} : p.stage = .articleSeen ∨ p.stage = .nounSeen →
      Taken v w p .article (.ofArticle v w) (.restarted (v.determinerGender w))
  | continued {p : Progress} : p.stage = .articleSeen →
      (∀ a, p.article? = some a → v.agrees a w = true) →
      Taken v w p .noun { p with stage := .nounSeen, noun? := some w } .continued
  | completed {p : Progress} : p.stage = .nounSeen →
      Taken v w p .verb { p with stage := .final, verb? := some w } .completed
  | disagreement {p : Progress} {a : String} : p.stage = .articleSeen → p.article? = some a →
      v.agrees a w = false → Taken v w p .noun p (.disagreement a w)
  | outOfOrder {p : Progress} {k : Category} : k ≠ .article → p.stage.expected? ≠ some k →
      Taken v w p k p (.outOfOrder p.stage k)

/-- The cases are all there are. -/
theorem taken_take (v : Vocabulary) (w : String) {p : Progress} (hp : p.stage ≠ .final)
    (k : Category) : Taken v w p k (take v p w k).1 (take v p w k).2 := by
  rw [take]
  cases hopposed : p.opposed? v w k with
  | some a =>
    obtain ⟨rfl, hstage, harticle, hagrees⟩ := Progress.opposed?_eq_some_iff.mp hopposed
    exact .disagreement hstage harticle hagrees
  | none =>
    have hagrees := Progress.opposed?_eq_none_iff.mp hopposed
    simp only
    split
    · rename_i hsuccess
      rw [Stage.success_step_iff] at hsuccess
      cases hstage : p.stage with
      | final => exact absurd hstage hp
      | initial =>
        rw [hstage] at hsuccess
        cases hsuccess
        exact .opened hstage
      | articleSeen =>
        rw [hstage] at hsuccess
        cases hsuccess
        exact .continued hstage (hagrees rfl hstage)
      | nounSeen =>
        rw [hstage] at hsuccess
        cases hsuccess
        exact .completed hstage
    · rename_i hfailure
      rw [Stage.success_step_iff] at hfailure
      split
      · rename_i hrestart
        obtain ⟨rfl, hmid⟩ := hrestart
        exact .restarted (Progress.isMidSentence_iff.mp hmid)
      · rename_i hstay
        refine .outOfOrder ?_ hfailure
        -- an article is out of order nowhere, since the sentence is not complete
        rintro rfl
        rw [Progress.isMidSentence_iff] at hstay
        cases hstage : p.stage with
        | initial => exact hfailure (by rw [hstage]; rfl)
        | articleSeen => exact hstay ⟨rfl, .inl hstage⟩
        | nounSeen => exact hstay ⟨rfl, .inr hstage⟩
        | final => exact hp hstage

theorem taken_push (v : Vocabulary) (c : Composition) (word : String) (k : Category) :
    Taken v (normalize word) c.progress.opened k (c.push v word k).1.progress
      (c.push v word k).2 :=
  taken_take v (normalize word) c.progress.stage_opened_ne k

theorem completed_push (v : Vocabulary) (c : Composition) (word : String) (k : Category) :
    (c.push v word k).1.completed =
      if (c.push v word k).2.isCompletion then c.completed + 1 else c.completed := rfl

/-! ## Words in order -/

theorem take_eq_place {word : String} (hopposed : p.opposed? v word k = none)
    (hexpected : p.stage.expected? = some k) :
    take v p word k = place v p word k (p.stage.step k).stage := by
  rw [take, hopposed]
  exact if_pos ((Stage.success_step_iff p.stage k).mpr hexpected)

theorem push_article {c : Composition} (hc : c.progress.opened = .empty) (word : String) :
    c.push v word .article =
      (⟨.ofArticle v (normalize word), c.completed⟩,
        .opened (v.determinerGender (normalize word))) := by
  rw [push, hc, take_eq_place (Progress.opposed?_of_ne v _ _ (by decide)) rfl]
  rfl

theorem push_noun {a word : String} (h : v.agrees a (normalize word) = true) (m : Nat) :
    push v ⟨.ofArticle v a, m⟩ word .noun = (⟨.ofPhrase v a (normalize word), m⟩, .continued) := by
  have hagrees : (Progress.ofArticle v a).opposed? v (normalize word) .noun = none := by
    rw [Progress.opposed?_eq_none_iff]
    rintro - - b hb
    cases hb
    exact h
  have hopened : (Progress.ofArticle v a).opened = .ofArticle v a := rfl
  rw [push, hopened, take_eq_place hagrees rfl]
  rfl

theorem push_verb (a n word : String) (m : Nat) :
    push v ⟨.ofPhrase v a n, m⟩ word .verb =
      (⟨.ofSentence v a n (normalize word), m + 1⟩, .completed) := by
  have hopened : (Progress.ofPhrase v a n).opened = .ofPhrase v a n := rfl
  rw [push, hopened, take_eq_place (Progress.opposed?_of_ne v _ _ (by decide)) rfl]
  rfl

/-! ## What an offer depends on -/

theorem push_congr {c c' : Composition} (hp : c.progress.opened = c'.progress.opened)
    (hc : c.completed = c'.completed) (word : String) (k : Category) :
    c.push v word k = c'.push v word k := by
  simp only [push, hp, hc]

namespace Taken

theorem eq_of_refused (h : Taken v w p k p' r) (hr : r.accepted = false) : p' = p := by
  cases h with
  | disagreement _ _ _ => rfl
  | outOfOrder _ _ => rfl
  | _ => cases hr

/-- Just the word that completes a sentence is accepted into a complete one. -/
theorem stage_eq_final_iff (h : Taken v w p k p' r) (hr : r.accepted = true) :
    p'.stage = .final ↔ r = .completed := by
  cases h with
  | disagreement _ _ _ => cases hr
  | outOfOrder _ _ => cases hr
  | _ => simp [Progress.ofArticle]

end Taken
end Composition
end Castellano
