import Castellano.Proofs.Composition.Step
import Castellano.Proofs.Text.Normal
import Castellano.Token

/-!
# Castellano.Proofs.Composition.Run

Runs of a composition: words are offered and sentences given up, in any order and as often as one
likes. `run` is what the composition becomes, `history` the record of the acts on the way, with
the replies.

What the start satisfies and every act preserves holds at the end of every run (`run_preserves`).
The invariant of compositions is `Progress.Sound`: the words are in normal form, the gender is that
of the article, and the noun agrees with the article.
-/

namespace Castellano
namespace Composition

/-- What can be done with a composition: a word is offered, or the sentence is given up. -/
inductive Act where
  | push (word : String) (category : Category)
  | reset

def Act.ofToken (t : Token) : Act := .push t.word t.category

/-- An act that has been carried out, with the reply to a word and what the composition became. -/
structure Event where
  act : Act
  reply? : Option Reply
  after : Composition

def Event.refused (e : Event) : Bool := e.reply?.any fun r => !r.accepted

/-- Carries out an act. -/
def perform (v : Vocabulary) (c : Composition) : Act → Event
  | .push word k => ⟨.push word k, some (c.push v word k).2, (c.push v word k).1⟩
  | .reset => ⟨.reset, none, c.reset⟩

/-- What acts make of a composition. -/
def run (v : Vocabulary) (c : Composition) : List Act → Composition
  | [] => c
  | a :: acts => run v (c.perform v a).after acts

/-- The record of acts that are carried out one after the other. -/
def history (v : Vocabulary) (c : Composition) : List Act → List Event
  | [] => []
  | a :: acts => c.perform v a :: history v (c.perform v a).after acts

variable {v : Vocabulary}

theorem act_perform (c : Composition) (a : Act) : (c.perform v a).act = a := by
  cases a <;> rfl

/-- A run ends with what the last act has made of the composition. -/
theorem run_eq_of_history_append {c : Composition} {acts : List Act} {es : List Event} {e : Event}
    (h : history v c acts = es ++ [e]) : run v c acts = e.after := by
  induction acts generalizing c es with
  | nil => simp [history] at h
  | cons a acts ih =>
    rw [history] at h
    rw [run]
    cases es with
    | nil =>
      obtain ⟨rfl, hnil⟩ := List.cons.inj h
      cases acts with
      | nil => rfl
      | cons b acts => cases hnil
    | cons x es => exact ih (List.cons.inj h).2

theorem exists_perform_of_mem_history {c : Composition} {acts : List Act} {e : Event}
    (h : e ∈ history v c acts) : ∃ d : Composition, d.perform v e.act = e := by
  induction acts generalizing c with
  | nil => cases h
  | cons a acts ih =>
    rcases List.mem_cons.mp h with rfl | h
    · exact ⟨c, by rw [act_perform]⟩
    · exact ih h

/-! ## Invariants -/

theorem run_preserves {P : Composition → Prop} (hact : ∀ c a, P c → P (c.perform v a).after)
    {c : Composition} (hc : P c) (acts : List Act) : P (run v c acts) := by
  induction acts generalizing c with
  | nil => exact hc
  | cons a acts ih => exact ih (hact c a hc)

end Composition

/-- The stage and the words of a progress go together. All words are normal, the gender is that of
the article, and the noun agrees with the article. -/
inductive Progress.Sound (v : Vocabulary) : Progress → Prop where
  | empty : Sound v .empty
  | article {a : String} : normalize a = a → Sound v (.ofArticle v a)
  | phrase {a n : String} : normalize a = a → normalize n = n → v.agrees a n = true →
      Sound v (.ofPhrase v a n)
  | sentence {a n w : String} : normalize a = a → normalize n = n → v.agrees a n = true →
      normalize w = w → Sound v (.ofSentence v a n w)

namespace Progress.Sound

variable {v : Vocabulary} {p : Progress} (h : p.Sound v)
include h

theorem opened : p.opened.Sound v := by
  rw [Progress.opened]
  split
  · exact .empty
  · exact h

theorem eq_empty (hstage : p.stage = .initial) : p = .empty := by
  cases h with
  | empty => rfl
  | _ => cases hstage

theorem exists_article (hstage : p.stage = .articleSeen) : ∃ a, p = .ofArticle v a := by
  cases h with
  | @article a _ => exact ⟨a, rfl⟩
  | _ => cases hstage

theorem exists_phrase (hstage : p.stage = .nounSeen) :
    ∃ a n, v.agrees a n = true ∧ p = .ofPhrase v a n := by
  cases h with
  | @phrase a n _ _ hagrees => exact ⟨a, n, hagrees, rfl⟩
  | _ => cases hstage

theorem exists_sentence (hstage : p.stage = .final) :
    ∃ a n w, v.agrees a n = true ∧ p = .ofSentence v a n w := by
  cases h with
  | @sentence a n w _ _ hagrees _ => exact ⟨a, n, w, hagrees, rfl⟩
  | _ => cases hstage

theorem normal {w : String} (hw : p.article? = some w ∨ p.noun? = some w ∨ p.verb? = some w) :
    normalize w = w := by
  cases h with
  | empty => rcases hw with hw | hw | hw <;> cases hw
  | article ha =>
    rcases hw with hw | hw | hw <;> cases hw
    exact ha
  | phrase ha hn _ =>
    rcases hw with hw | hw | hw <;> cases hw
    · exact ha
    · exact hn
  | sentence ha hn _ hx =>
    rcases hw with hw | hw | hw <;> cases hw
    · exact ha
    · exact hn
    · exact hx

theorem isSome_sentence?_iff : p.sentence?.isSome = true ↔ p.stage = .final := by
  cases h <;> simp [sentence?, Progress.empty, ofArticle, ofPhrase, ofSentence]

end Progress.Sound

namespace Composition

variable {v : Vocabulary}

theorem Taken.sound {w : String} {p p' : Progress} {k : Category} {r : Reply}
    (h : Taken v w p k p' r) (hw : normalize w = w) (hp : p.Sound v) : p'.Sound v := by
  cases h with
  | opened hstage =>
    cases hp with
    | empty => exact .article hw
    | _ => cases hstage
  | restarted _ => exact .article hw
  | continued hstage hagrees =>
    cases hp with
    | article ha => exact .phrase ha hw (hagrees _ rfl)
    | _ => cases hstage
  | completed hstage =>
    cases hp with
    | phrase ha hn hagrees => exact .sentence ha hn hagrees hw
    | _ => cases hstage
  | disagreement _ _ _ => exact hp
  | outOfOrder _ _ => exact hp

theorem sound_perform (c : Composition) (a : Act) (hc : c.progress.Sound v) :
    (c.perform v a).after.progress.Sound v := by
  cases a with
  | push word k =>
    exact (taken_push v c word k).sound (normalize_normalize word) hc.opened
  | reset => exact .empty

theorem sound_run (v : Vocabulary) (acts : List Act) : (run v start acts).progress.Sound v :=
  run_preserves (P := fun c => c.progress.Sound v) sound_perform .empty acts

/-- After any run the stage tells which words there are. They are normal, the gender is that of the
article, and the noun agrees with it; a sentence can be read off exactly at the last stage. -/
theorem stage_determines_words (v : Vocabulary) (acts : List Act) :
    let c := run v start acts
    let p := c.progress
    (p.stage = .initial →
      p.article? = none ∧ p.gender? = none ∧ p.noun? = none ∧ p.verb? = none) ∧
    (p.stage = .articleSeen → ∃ a, p.article? = some a ∧
      p.gender? = some (v.determinerGender a) ∧ p.noun? = none ∧ p.verb? = none ∧
      let examples := ", ".intercalate ((v.compatibleNouns a).take 3)
      c.hint v = s!"Esperando sustantivo {(v.determinerGender a).text} ({examples}...)") ∧
    (p.stage = .nounSeen → ∃ a n, p.article? = some a ∧
      p.gender? = some (v.determinerGender a) ∧ p.noun? = some n ∧ v.agrees a n = true ∧
      p.verb? = none) ∧
    (p.stage = .final → ∃ a n w, p.article? = some a ∧
      p.gender? = some (v.determinerGender a) ∧ p.noun? = some n ∧ v.agrees a n = true ∧
      p.verb? = some w ∧ p.sentence? = some (a ++ " " ++ n ++ " " ++ w)) ∧
    (∀ w, p.article? = some w ∨ p.noun? = some w ∨ p.verb? = some w → normalize w = w) ∧
    (p.sentence?.isSome = true ↔ p.stage = .final) := by
  have hsound := sound_run v acts
  generalize run v start acts = c at hsound ⊢
  obtain ⟨p, m⟩ := c
  refine ⟨fun h => ?_, fun h => ?_, fun h => ?_, fun h => ?_, fun w => hsound.normal,
    hsound.isSome_sentence?_iff⟩
  · obtain rfl := hsound.eq_empty h
    exact ⟨rfl, rfl, rfl, rfl⟩
  · obtain ⟨a, rfl⟩ := hsound.exists_article h
    exact ⟨a, rfl, rfl, rfl, rfl, rfl⟩
  · obtain ⟨a, n, hagrees, rfl⟩ := hsound.exists_phrase h
    exact ⟨a, n, rfl, rfl, rfl, hagrees, rfl⟩
  · obtain ⟨a, n, w, hagrees, rfl⟩ := hsound.exists_sentence h
    exact ⟨a, n, w, rfl, rfl, rfl, hagrees, rfl, rfl⟩

end Composition
end Castellano
