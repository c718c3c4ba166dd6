import Castellano.Proofs.Composition.Run

/-!
# Castellano.Proofs.Composition.Refusals

Refused words leave no trace. A run is compared with its replay, in which the words that were
refused are not offered at all (`refusals_leave_no_trace`).

The two do not go through the same compositions. A word that is refused behind a complete sentence
has put that sentence away, which the replay still holds. But this is all that can be different
(`Follows`), and it makes no difference to the next act, whatever it is (`Follows.perform_eq`): the
sentence is put away then in the replay, too.
-/

namespace Castellano
namespace Composition

variable {v : Vocabulary}

/-! ## Single acts -/

/-- A refused word puts a complete sentence away and does nothing else. -/
theorem after_of_refused {c : Composition} {a : Act} (h : (c.perform v a).refused = true) :
    (c.perform v a).after = { c with progress := c.progress.opened } := by
  cases a with
  | reset => cases h
  | push word k =>
    have hr : (c.push v word k).2.accepted = false := by simpa [perform, Event.refused] using h
    have hprogress := (taken_push v c word k).eq_of_refused hr
    have hcompleted : (c.push v word k).1.completed = c.completed := by
      rw [completed_push, if_neg]
      intro hcomplete
      rw [Reply.eq_completed hcomplete] at hr
      cases hr
    show (c.push v word k).1 = _
    rw [← hprogress, ← hcompleted]

theorem stage_perform_eq_final_iff (c : Composition) (a : Act) :
    (c.perform v a).after.progress.stage = .final ↔ (c.perform v a).reply? = some .completed := by
  cases a with
  | reset => exact ⟨nofun, nofun⟩
  | push word k =>
    have htaken := taken_push v c word k
    simp only [perform, Option.some.injEq]
    cases hr : (c.push v word k).2.accepted with
    | true => exact htaken.stage_eq_final_iff hr
    | false =>
      rw [htaken.eq_of_refused hr]
      constructor
      · intro h
        exact absurd h (Progress.stage_opened_ne c.progress)
      · intro h
        rw [h] at hr
        cases hr

theorem stage_after_eq_final_iff {c : Composition} {acts : List Act} {e : Event}
    (h : e ∈ history v c acts) : e.after.progress.stage = .final ↔ e.reply? = some .completed := by
  obtain ⟨d, hd⟩ := exists_perform_of_mem_history h
  rw [← hd]
  exact stage_perform_eq_final_iff d e.act

/-! ## A run and its replay -/

/-- The first composition has been offered words that were refused, the second has not. They are
the same, or the first has put away a sentence that the second still holds. -/
def Follows (c c' : Composition) : Prop := c = c' ∨ c'.progress.stage = .final ∧ c = c'.reset

namespace Follows

variable {c c' : Composition}

theorem perform_eq (h : Follows c c') (a : Act) : c.perform v a = c'.perform v a := by
  rcases h with rfl | ⟨hfinal, rfl⟩
  · rfl
  · cases a with
    | reset => rfl
    | push word k =>
      have hopened : c'.reset.progress.opened = c'.progress.opened :=
        (Progress.opened_of_stage_eq hfinal).symm
      rw [perform, perform, push_congr hopened rfl]

theorem opened (h : Follows c c') : Follows { c with progress := c.progress.opened } c' := by
  rcases h with rfl | ⟨hfinal, rfl⟩
  · by_cases hfinal : c.progress.stage = .final
    · rw [Progress.opened_of_stage_eq hfinal]
      exact .inr ⟨hfinal, rfl⟩
    · rw [Progress.opened_of_stage_ne hfinal]
      exact .inl rfl
  · exact .inr ⟨hfinal, rfl⟩

theorem completed_eq (h : Follows c c') : c'.completed = c.completed := by
  rcases h with rfl | ⟨-, rfl⟩ <;> rfl

end Follows

/-- The events that are no refusals. -/
def kept (es : List Event) : List Event := es.filter fun e => !e.refused

theorem kept_cons (e : Event) (es : List Event) :
    kept (e :: es) = if e.refused then kept es else e :: kept es := by
  rw [kept, List.filter_cons]
  cases e.refused <;> rfl

/-- The replay goes through the same events, and the run follows it to the end. -/
theorem replay_kept {c c' : Composition} (h : Follows c c') (acts : List Act) :
    history v c' ((kept (history v c acts)).map Event.act) = kept (history v c acts) ∧
      Follows (run v c acts) (run v c' ((kept (history v c acts)).map Event.act)) := by
  induction acts generalizing c c' with
  | nil => exact ⟨rfl, h⟩
  | cons a acts ih =>
    rw [history, kept_cons, run]
    split
    · rename_i hrefused
      have hstep : Follows (c.perform v a).after c' := by
        rw [after_of_refused hrefused]
        exact h.opened
      exact ih hstep
    · obtain ⟨hhistory, hrun⟩ := ih (c := (c.perform v a).after) (.inl rfl)
      rw [List.map_cons, act_perform, history, run, ← h.perform_eq a, hhistory]
      exact ⟨rfl, hrun⟩

/-! ## How a run ends -/

/-- The record ends with refusals right behind the event `e`, which completed a sentence. -/
def PutAway (es : List Event) (e : Event) : Prop :=
  ∃ done late, es = done ++ e :: late ∧ e.reply? = some .completed ∧ late ≠ [] ∧
    ∀ x ∈ late, x.refused = true

theorem kept_append_singleton {done late : List Event} {e : Event} (he : e.refused = false)
    (hlate : ∀ x ∈ late, x.refused = true) : kept (done ++ e :: late) = kept done ++ [e] := by
  have hnone : kept late = [] := List.filter_eq_nil_iff.mpr fun x hx => by simp [hlate x hx]
  rw [kept, List.filter_append, ← kept, ← kept, kept_cons, he, hnone]
  rfl

theorem exists_of_kept_eq_append {es ks : List Event} {e : Event} (h : kept es = ks ++ [e]) :
    ∃ done late, es = done ++ e :: late ∧ ∀ x ∈ late, x.refused = true := by
  obtain ⟨fore, aft, rfl, -, haft⟩ := List.filter_eq_append_iff.mp h
  obtain ⟨between, late, rfl, -, -, hlate⟩ := List.filter_eq_cons_iff.mp haft
  refine ⟨fore ++ between, late, by rw [List.append_assoc], fun x hx => ?_⟩
  simpa using List.filter_eq_nil_iff.mp hlate x hx

/-- The acts of a run without the words that were refused in it. -/
def replay (v : Vocabulary) (acts : List Act) : List Act :=
  (kept (history v start acts)).map Event.act

theorem history_replay (v : Vocabulary) (acts : List Act) :
    history v start (replay v acts) = kept (history v start acts) :=
  (replay_kept (.inl rfl) acts).1

theorem follows_replay (v : Vocabulary) (acts : List Act) :
    Follows (run v start acts) (run v start (replay v acts)) :=
  (replay_kept (.inl rfl) acts).2

theorem stage_run_ne_final {c : Composition} {acts : List Act} {es : List Event} {e : Event}
    (h : history v c acts = es ++ [e]) (he : e.refused = true) :
    (run v c acts).progress.stage ≠ .final := by
  have hmem : e ∈ history v c acts := by simp [h]
  rw [run_eq_of_history_append h, ne_eq, stage_after_eq_final_iff hmem]
  intro hcompleted
  simp [Event.refused, hcompleted, Reply.accepted] at he

theorem run_of_putAway {acts : List Act} {e : Event} (h : PutAway (history v start acts) e) :
    run v start (replay v acts) = e.after ∧ e.after.progress.stage = .final ∧
      (run v start acts).progress = .empty := by
  obtain ⟨done, late, hfull, hcompleted, hne, hlate⟩ := h
  have he : e.refused = false := by simp [Event.refused, hcompleted, Reply.accepted]
  have hafter : run v start (replay v acts) = e.after := by
    have hreplay := history_replay v acts
    rw [hfull, kept_append_singleton he hlate] at hreplay
    exact run_eq_of_history_append hreplay
  have hmem : e ∈ history v start acts := by simp [hfull]
  have hfinal := (stage_after_eq_final_iff hmem).mpr hcompleted
  refine ⟨hafter, hfinal, ?_⟩
  rcases follows_replay v acts with hsame | ⟨-, hreset⟩
  · -- the last word was refused, so the run cannot hold the sentence any more
    obtain ⟨late, x, rfl⟩ := (List.eq_nil_or_concat late).resolve_left hne
    have hlast : history v start acts = (done ++ e :: late) ++ [x] := by rw [hfull]; simp
    have hstage := stage_run_ne_final hlast (hlate x (by simp))
    rw [hsame, hafter] at hstage
    exact absurd hfinal hstage
  · rw [hreset]; rfl

theorem exists_putAway {acts : List Act}
    (hfinal : (run v start (replay v acts)).progress.stage = .final)
    (hne : run v start acts ≠ run v start (replay v acts)) :
    ∃ e, PutAway (history v start acts) e := by
  have hreplay := history_replay v acts
  rcases List.eq_nil_or_concat (kept (history v start acts)) with hnil | ⟨ks, e, hkept⟩
  · -- without any act there is no complete sentence
    rw [replay, hnil] at hfinal
    cases hfinal
  · rw [List.concat_eq_append] at hkept
    rw [hkept] at hreplay
    obtain ⟨done, late, hfull, hlate⟩ := exists_of_kept_eq_append hkept
    have hafter := run_eq_of_history_append hreplay
    have hmem : e ∈ history v start acts := by simp [hfull]
    rw [hafter] at hfinal
    -- without a refusal behind `e` both runs would end there
    refine ⟨e, done, late, hfull, (stage_after_eq_final_iff hmem).mp hfinal, ?_, hlate⟩
    rintro rfl
    exact hne ((run_eq_of_history_append hfull).trans hafter.symm)

/-- Refused words can be left out of a run. What remains is replied to in the same way and makes
the same of the composition, act by act. Only at the end there can be a difference: words that were
refused right behind a complete sentence have put it away, and without them it is still there. -/
theorem refusals_leave_no_trace (v : Vocabulary) (acts : List Act) :
    history v start (replay v acts) = (history v start acts).filter (fun e => !e.refused) ∧
    (run v start (replay v acts)).completed = (run v start acts).completed ∧
    (∀ e, PutAway (history v start acts) e →
      run v start (replay v acts) = e.after ∧ e.after.progress.stage = .final ∧
        (run v start acts).progress = .empty) ∧
    ((∀ e, ¬ PutAway (history v start acts) e) →
      run v start (replay v acts) = run v start acts) := by
  refine ⟨history_replay v acts, (follows_replay v acts).completed_eq, fun e => run_of_putAway, ?_⟩
  intro hnone
  rcases follows_replay v acts with hsame | ⟨hfinal, hreset⟩
  · exact hsame.symm
  · by_contra hne
    obtain ⟨e, he⟩ := exists_putAway hfinal (Ne.symm hne)
    exact hnone e he

end Composition
end Castellano
