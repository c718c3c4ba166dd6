import Castellano.Proofs.Composition.Refusals
import Castellano.Proofs.Composition.Sentences

/-!
# Castellano.Proofs.Composition.Provenance

Where the words of a sentence come from. The record of a run is compared with the sentence that
stands at its end. Refused words aside, the last article of the record is the one that stands, and
so is the noun that was taken behind it (`Recorded`): a sentence never gets words from two
attempts, however many refusals are in between.

Each step keeps this (`recorded_perform`), and the record leaves no choice (`progress_of_phrase`).
So a verb completes a sentence exactly if the record ends with an article and a noun, and the
sentence is made of these words (`completes_iff_phraseTaken`). The count of the sentences is that
of the completions on record.
-/

namespace Castellano
namespace Composition

/-! ## Records -/

/-- The word of the category has been offered and accepted. -/
def Event.Takes (e : Event) (word : String) (k : Category) : Prop :=
  e.act = .push word k ∧ e.refused = false

/-- A word has completed a sentence. -/
def Event.completes (e : Event) : Bool := e.reply?.any Reply.isCompletion

/-- All of the events are words that were refused, so no sentence was given up meanwhile. -/
def AllRefused (es : List Event) : Prop := ∀ e ∈ es, e.refused = true

/-- The record ends with an article that was taken, refused words aside. -/
inductive ArticleTaken : List Event → String → Prop where
  | mk {before late : List Event} {e : Event} {a : String} : e.Takes a .article →
      AllRefused late → ArticleTaken (before ++ e :: late) a

/-- The record ends with an article that was taken and a noun that was taken next and agrees with
it, refused words aside. -/
inductive PhraseTaken (v : Vocabulary) : List Event → String → String → Prop where
  | mk {before late : List Event} {e : Event} {a n : String} : ArticleTaken before a →
      e.Takes n .noun → v.agrees a n = true → AllRefused late →
      PhraseTaken v (before ++ e :: late) a n

theorem AllRefused.snoc {es : List Event} {e : Event} (h : AllRefused es)
    (he : e.refused = true) : AllRefused (es ++ [e]) := by
  intro x hx
  rcases List.mem_append.mp hx with hx | hx
  · exact h x hx
  · rw [List.mem_singleton.mp hx, he]

theorem allRefused_nil : AllRefused [] := fun _ h => absurd h List.not_mem_nil

theorem ArticleTaken.snoc {es : List Event} {e : Event} {a : String} (h : ArticleTaken es a)
    (he : e.refused = true) : ArticleTaken (es ++ [e]) a := by
  cases h with
  | mk hx hlate =>
    rw [List.append_assoc, List.cons_append]
    exact .mk hx (hlate.snoc he)

variable {v : Vocabulary}

theorem PhraseTaken.snoc {es : List Event} {e : Event} {a n : String}
    (h : PhraseTaken v es a n) (he : e.refused = true) : PhraseTaken v (es ++ [e]) a n := by
  cases h with
  | mk harticle hy hagrees hlate =>
    rw [List.append_assoc, List.cons_append]
    exact .mk harticle hy hagrees (hlate.snoc he)

/-! ## Runs in parts -/

theorem run_append (c : Composition) (acts acts' : List Act) :
    run v c (acts ++ acts') = run v (run v c acts) acts' := by
  induction acts generalizing c with
  | nil => rfl
  | cons a acts ih => exact ih (c.perform v a).after

theorem history_append (c : Composition) (acts acts' : List Act) :
    history v c (acts ++ acts') = history v c acts ++ history v (run v c acts) acts' := by
  induction acts generalizing c with
  | nil => rfl
  | cons a acts ih => exact congrArg (c.perform v a :: ·) (ih (c.perform v a).after)

/-- A place in a record is a place in the run. -/
theorem exists_acts_of_history_eq {c : Composition} {acts : List Act} {past future : List Event}
    {e : Event} (h : history v c acts = past ++ e :: future) :
    ∃ before after, acts = before ++ e.act :: after ∧ past = history v c before ∧
      e = (run v c before).perform v e.act ∧ future = history v e.after after := by
  induction past generalizing c acts with
  | nil =>
    cases acts with
    | nil => cases h
    | cons a acts =>
      obtain ⟨rfl, hfuture⟩ := List.cons.inj h
      rw [act_perform]
      exact ⟨[], acts, rfl, rfl, rfl, hfuture.symm⟩
  | cons x past ih =>
    cases acts with
    | nil => cases h
    | cons a acts =>
      obtain ⟨rfl, hrest⟩ := List.cons.inj h
      obtain ⟨before, after, rfl, rfl, he, hfuture⟩ := ih hrest
      exact ⟨a :: before, after, rfl, rfl, he, hfuture⟩

/-! ## From the sentence to the record -/

/-- The words of a sentence that is under way are on record. -/
inductive Recorded (v : Vocabulary) (es : List Event) : Progress → Prop where
  | nothing : Recorded v es .empty
  | article {a : String} : ArticleTaken es a → Recorded v es (.ofArticle v (normalize a))
  | phrase {a n : String} : PhraseTaken v es a n →
      Recorded v es (.ofPhrase v (normalize a) (normalize n))

theorem Recorded.snoc {es : List Event} {e : Event} {p : Progress} (h : Recorded v es p)
    (he : e.refused = true) : Recorded v (es ++ [e]) p := by
  cases h with
  | nothing => exact .nothing
  | article ha => exact .article (ha.snoc he)
  | phrase hn => exact .phrase (hn.snoc he)

theorem Taken.recorded {es : List Event} {e : Event} {word : String} {k : Category} {r : Reply}
    {p p' : Progress} (h : Taken v (normalize word) p k p' r) (hact : e.act = .push word k)
    (hreply : e.reply? = some r) (hp : Recorded v es p) :
    Recorded v (es ++ [e]) p'.opened := by
  have hrefused : e.refused = !r.accepted := by rw [Event.refused, hreply]; rfl
  cases h with
  | opened hstage =>
    cases hp with
    | nothing => exact .article (.mk ⟨hact, hrefused⟩ allRefused_nil)
    | article _ => cases hstage
    | phrase _ => cases hstage
  | restarted _ => exact .article (.mk ⟨hact, hrefused⟩ allRefused_nil)
  | continued hstage hagrees =>
    cases hp with
    | nothing => cases hstage
    | @article a ha =>
      have hagrees := hagrees _ rfl
      rw [v.agrees_normalize] at hagrees
      exact .phrase (.mk ha ⟨hact, hrefused⟩ hagrees allRefused_nil)
    | phrase _ => cases hstage
  | completed _ => exact .nothing
  | disagreement hstage _ _ =>
    have hne : p.stage ≠ .final := by rw [hstage]; decide
    rw [Progress.opened_of_stage_ne hne]
    exact hp.snoc hrefused
  | outOfOrder _ _ =>
    have hopen : p.opened = p := by
      cases hp <;> rfl
    rw [hopen]
    exact hp.snoc hrefused

theorem recorded_perform {c : Composition} {es : List Event}
    (h : Recorded v es c.progress.opened) (a : Act) :
    Recorded v (es ++ [c.perform v a]) (c.perform v a).after.progress.opened := by
  cases a with
  | reset => exact .nothing
  | push word k => exact (taken_push v c word k).recorded rfl rfl h

theorem recorded_run (v : Vocabulary) (acts : List Act) :
    Recorded v (history v start acts) (run v start acts).progress.opened := by
  induction acts using List.reverseRecOn with
  | nil => exact .nothing
  | append_singleton acts a ih =>
    rw [history_append, run_append]
    exact recorded_perform ih a

/-! ## From the record to the sentence -/

theorem progress_run_of_allRefused {c : Composition} {acts : List Act}
    (hc : c.progress.stage ≠ .final) (h : AllRefused (history v c acts)) :
    (run v c acts).progress = c.progress := by
  induction acts generalizing c with
  | nil => rfl
  | cons a acts ih =>
    obtain ⟨ha, hacts⟩ := List.forall_mem_cons.mp h
    have hafter : (c.perform v a).after = c := by
      rw [after_of_refused ha, Progress.opened_of_stage_ne hc]
    rw [hafter] at hacts
    rw [run, hafter]
    exact ih hc hacts

/-- What stands behind an event stands at the end, if all words from there on were refused. -/
theorem progress_run_of_history {acts : List Act} {past late : List Event} {e : Event}
    (h : history v start acts = past ++ e :: late) (he : e.after.progress.stage ≠ .final)
    (hlate : AllRefused late) : (run v start acts).progress = e.after.progress := by
  obtain ⟨before, after, rfl, -, hperform, rfl⟩ := exists_acts_of_history_eq h
  rw [run_append, run, ← hperform]
  exact progress_run_of_allRefused he hlate

theorem Taken.eq_ofArticle {w : String} {p p' : Progress} {r : Reply}
    (h : Taken v w p .article p' r) (hp : p.Sound v) (hr : r.accepted = true) :
    p' = .ofArticle v w := by
  cases h with
  | opened hstage => rw [hp.eq_empty hstage]; rfl
  | restarted _ => rfl
  | outOfOrder hk _ => exact absurd rfl hk

theorem Taken.eq_ofPhrase {w a : String} {p' : Progress} {r : Reply}
    (h : Taken v w (.ofArticle v a) .noun p' r) (hr : r.accepted = true) :
    p' = .ofPhrase v a w := by
  cases h with
  | continued _ _ => rfl
  | disagreement _ _ _ => cases hr
  | outOfOrder _ _ => cases hr

/-- An event of a record that takes a word is an offer of this word, and it was accepted. -/
theorem taken_of_takes {acts : List Act} {past late : List Event} {e : Event} {word : String}
    {k : Category} (h : history v start acts = past ++ e :: late) (he : e.Takes word k) :
    ∃ before r, past = history v start before ∧ r.accepted = true ∧
      Taken v (normalize word) (run v start before).progress.opened k e.after.progress r := by
  obtain ⟨hact, hrefused⟩ := he
  obtain ⟨before, -, -, hpast, hperform, -⟩ := exists_acts_of_history_eq h
  rw [hact] at hperform
  rw [hperform] at hrefused ⊢
  refine ⟨before, _, hpast, ?_, taken_push v (run v start before) word k⟩
  simpa [perform, Event.refused] using hrefused

theorem progress_of_article {acts : List Act} {a : String}
    (h : ArticleTaken (history v start acts) a) :
    (run v start acts).progress = .ofArticle v (normalize a) := by
  generalize hes : history v start acts = es at h
  cases h with
  | @mk past late e _ hx hlate =>
    obtain ⟨before, r, -, hr, htaken⟩ := taken_of_takes hes hx
    have hafter := htaken.eq_ofArticle (sound_run v before).opened hr
    rw [progress_run_of_history hes (by rw [hafter]; nofun) hlate, hafter]

theorem progress_of_phrase {acts : List Act} {a n : String}
    (h : PhraseTaken v (history v start acts) a n) :
    (run v start acts).progress = .ofPhrase v (normalize a) (normalize n) := by
  generalize hes : history v start acts = es at h
  cases h with
  | @mk past late e _ _ harticle hy _ hlate =>
    obtain ⟨before, r, hpast, hr, htaken⟩ := taken_of_takes hes hy
    rw [hpast] at harticle
    rw [progress_of_article harticle] at htaken
    have hafter := htaken.eq_ofPhrase hr
    rw [progress_run_of_history hes (by rw [hafter]; nofun) hlate, hafter]

/-! ## Completions -/

theorem completes_push (c : Composition) (word : String) (k : Category) :
    (c.perform v (.push word k)).completes = (c.push v word k).2.isCompletion := rfl

/-- A verb completes a sentence where an article and its noun stand, and nothing else does. -/
theorem Taken.completed_iff {w : String} {p p' : Progress} {k : Category} {r : Reply}
    (h : Taken v w p k p' r) : r.isCompletion = true ↔ k = .verb ∧ p.stage = .nounSeen := by
  cases h with
  | completed hstage => exact iff_of_true rfl ⟨rfl, hstage⟩
  | outOfOrder _ hexpected =>
    refine iff_of_false nofun ?_
    rintro ⟨rfl, hstage⟩
    rw [hstage] at hexpected
    exact hexpected rfl
  | _ => exact iff_of_false nofun nofun

theorem completes_perform_iff (acts : List Act) (b : Act) :
    ((run v start acts).perform v b).completes = true ↔
      ∃ w, b = .push w .verb ∧ ∃ a n, PhraseTaken v (history v start acts) a n := by
  cases b with
  | reset => exact iff_of_false nofun nofun
  | push w k =>
    rw [completes_push, (taken_push v (run v start acts) w k).completed_iff]
    constructor
    · rintro ⟨rfl, hstage⟩
      have hrecorded := recorded_run v acts
      generalize (run v start acts).progress.opened = p at hrecorded hstage
      cases hrecorded with
      | phrase h => exact ⟨w, rfl, _, _, h⟩
      | _ => cases hstage
    · rintro ⟨w', hact, a, n, h⟩
      cases hact
      refine ⟨rfl, ?_⟩
      rw [progress_of_phrase h]
      rfl

theorem sentence?_perform {acts : List Act} {a n : String}
    (h : PhraseTaken v (history v start acts) a n) (w : String) :
    ((run v start acts).perform v (.push w .verb)).after.progress.sentence? =
      some (normalize a ++ " " ++ normalize n ++ " " ++ normalize w) := by
  have hrun : run v start acts =
      ⟨.ofPhrase v (normalize a) (normalize n), (run v start acts).completed⟩ := by
    rw [← progress_of_phrase h]
  rw [hrun, perform, push_verb]
  rfl

theorem completed_perform (c : Composition) (a : Act) :
    (c.perform v a).after.completed =
      c.completed + if (c.perform v a).completes then 1 else 0 := by
  cases a with
  | reset => rfl
  | push word k =>
    rw [completes_push, perform, completed_push]
    split <;> rfl

theorem completed_run (c : Composition) (acts : List Act) :
    (run v c acts).completed = c.completed + (history v c acts).countP Event.completes := by
  induction acts generalizing c with
  | nil => rfl
  | cons a acts ih =>
    rw [run, ih, completed_perform, history, List.countP_cons]
    omega

theorem completed_le_of_mem_history {c : Composition} {acts : List Act} {e : Event}
    (h : e ∈ history v c acts) : c.completed ≤ e.after.completed := by
  induction acts generalizing c with
  | nil => cases h
  | cons a acts ih =>
    have hstep : c.completed ≤ (c.perform v a).after.completed := by
      rw [completed_perform]; exact Nat.le_add_right _ _
    rcases List.mem_cons.mp h with rfl | h
    · exact hstep
    · exact hstep.trans (ih h)

theorem pairwise_completed (c : Composition) (acts : List Act) :
    (history v c acts).Pairwise fun e e' => e.after.completed ≤ e'.after.completed := by
  induction acts generalizing c with
  | nil => exact List.Pairwise.nil
  | cons a acts ih =>
    exact (ih (c.perform v a).after).cons fun e he => completed_le_of_mem_history he

/-- An event completes a sentence exactly if it is the offer of a verb, and the last words that
were taken before are an article and a noun that agrees with it; from the article on, all other
words were refused, and no sentence was given up. The sentence is then made of the normal forms of
these three words. The count of sentences is the number of completions so far and never falls. -/
theorem completes_iff_phraseTaken (v : Vocabulary) (acts : List Act) :
    let es := history v start acts
    (∀ past e future, es = past ++ e :: future →
      (e.completes = true ↔ ∃ w, e.act = .push w .verb ∧ ∃ a n, PhraseTaken v past a n) ∧
      (∀ a n w, e.act = .push w .verb → PhraseTaken v past a n →
        e.after.progress.sentence? =
          some (normalize a ++ " " ++ normalize n ++ " " ++ normalize w)) ∧
      e.after.completed = (past ++ [e]).countP Event.completes) ∧
    (run v start acts).completed = es.countP Event.completes ∧
    es.Pairwise fun e e' => e.after.completed ≤ e'.after.completed := by
  intro es
  have hcount : ∀ acts, (run v start acts).completed =
      (history v start acts).countP Event.completes := by
    intro acts
    have hrun := completed_run (v := v) start acts
    rwa [show start.completed = 0 from rfl, Nat.zero_add] at hrun
  refine ⟨fun past e future hes => ?_, hcount acts, pairwise_completed start acts⟩
  obtain ⟨before, after, -, rfl, he, -⟩ := exists_acts_of_history_eq hes
  generalize e.act = b at he ⊢
  subst he
  refine ⟨completes_perform_iff before b, ?_, ?_⟩
  · rintro a n w rfl h
    exact sentence?_perform h w
  · have hsnoc := hcount (before ++ [b])
    rwa [run_append, history_append] at hsnoc

end Composition
end Castellano
