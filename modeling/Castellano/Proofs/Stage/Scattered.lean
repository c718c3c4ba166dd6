import Castellano.Stage

/-!
# Castellano.Proofs.Stage.Scattered

Runs of the sequential automaton over any categories. A category that does not come next is passed
over, so a run finds article, noun and verb wherever they are scattered in this order, and the
complete sentence takes nothing more.

The automaton is greedy: what comes next is taken as soon as it is there. Nothing is lost by this
(`Longest.take`, `Longest.skip`), so the stage at the end tells the longest beginning of article,
noun and verb that the categories hold (`longest_run`). The steps that succeed are counted by this
beginning, for each of them makes it longer by one.
-/

namespace Castellano
namespace Stage

/-! ## Runs -/

/-- The stage that categories lead to, one after the other. -/
def run (s : Stage) : List Category → Stage
  | [] => s
  | c :: cs => run (s.step c).stage cs

/-- The steps of a run, one for each category. -/
def steps (s : Stage) : List Category → List Step
  | [] => []
  | c :: cs => s.step c :: steps (s.step c).stage cs

/-- The categories of a sentence in their order. -/
def order : List Category := [.article, .noun, .verb]

/-- The categories that have been taken on the way to a stage. -/
def taken : Stage → List Category
  | initial => []
  | articleSeen => [.article]
  | nounSeen => [.article, .noun]
  | final => [.article, .noun, .verb]

/-- The categories that are still to come. -/
def ahead : Stage → List Category
  | initial => [.article, .noun, .verb]
  | articleSeen => [.noun, .verb]
  | nounSeen => [.verb]
  | final => []

theorem taken_injective {s t : Stage} (h : s.taken = t.taken) : s = t := by
  cases s <;> cases t <;> simp [taken] at h ⊢

theorem head?_ahead (s : Stage) : s.ahead.head? = s.expected? := by
  cases s <;> rfl

theorem taken_step (s : Stage) (c : Category) :
    (s.step c).stage.taken = s.taken ++ if s.expected? = some c then [c] else [] := by
  cases s <;> cases c <;> rfl

theorem ahead_step {s : Stage} {c : Category} (h : s.expected? = some c) :
    s.ahead = c :: (s.step c).stage.ahead := by
  cases s <;> cases h <;> rfl

theorem stage_step_of_ne {s : Stage} {c : Category} (h : s.expected? ≠ some c) :
    (s.step c).stage = s := by
  revert h
  cases s <;> cases c <;> decide

/-! ## Longest beginnings -/

/-- The longest beginning of a goal that is scattered in a list, in order but with anything in
between. -/
structure Longest (goal cs p : List Category) : Prop where
  isPrefix : p <+: goal
  sublist : p.Sublist cs
  length_le : ∀ q, q <+: goal → q.Sublist cs → q.length ≤ p.length

namespace Longest

variable {goal cs p : List Category} {c : Category}

theorem nil (goal : List Category) : Longest goal [] [] := by
  refine ⟨List.nil_prefix, List.Sublist.refl [], fun q _ hq => ?_⟩
  exact Nat.le_of_eq (congrArg List.length (List.sublist_nil.mp hq))

/-- What comes next in the goal is best taken at once. -/
theorem take (h : Longest goal cs p) : Longest (c :: goal) (c :: cs) (c :: p) := by
  refine ⟨List.cons_prefix_cons.mpr ⟨rfl, h.isPrefix⟩, h.sublist.cons_cons c, fun q hq hcs => ?_⟩
  cases q with
  | nil => exact Nat.zero_le _
  | cons d q =>
    obtain ⟨rfl, hrest⟩ := List.cons_prefix_cons.mp hq
    exact Nat.succ_le_succ (h.length_le q hrest (List.cons_sublist_cons.mp hcs))

/-- What does not come next in the goal is of no use. -/
theorem skip (h : Longest goal cs p) (hc : goal.head? ≠ some c) : Longest goal (c :: cs) p := by
  refine ⟨h.isPrefix, h.sublist.cons c, fun q hq hcs => ?_⟩
  rcases List.sublist_cons_iff.mp hcs with hcs | ⟨r, rfl, -⟩
  · exact h.length_le q hq hcs
  · obtain ⟨rest, rfl⟩ := hq
    exact absurd rfl hc

theorem unique {q : List Category} (hp : Longest goal cs p) (hq : Longest goal cs q) : p = q := by
  have hlength := Nat.le_antisymm (hq.length_le p hp.isPrefix hp.sublist)
    (hp.length_le q hq.isPrefix hq.sublist)
  have hprefix := List.prefix_of_prefix_length_le hp.isPrefix hq.isPrefix (Nat.le_of_eq hlength)
  exact hprefix.eq_of_length hlength

/-- The longest beginning is all of the goal if the goal is scattered in the list. -/
theorem eq_iff (h : Longest goal cs p) : p = goal ↔ goal.Sublist cs := by
  constructor
  · rintro rfl
    exact h.sublist
  · intro hgoal
    exact h.isPrefix.eq_of_length_le (h.length_le goal List.prefix_rfl hgoal)

end Longest

/-- A run takes the longest beginning of what is ahead. -/
theorem exists_longest_run (s : Stage) (cs : List Category) :
    ∃ p, (run s cs).taken = s.taken ++ p ∧ Longest s.ahead cs p := by
  -- for the rest of the run the goal is what is ahead after its first step
  induction cs generalizing s with
  | nil => exact ⟨[], (List.append_nil _).symm, .nil _⟩
  | cons c cs ih =>
    obtain ⟨p, hp, hlongest⟩ := ih (s.step c).stage
    by_cases hc : s.expected? = some c
    · refine ⟨c :: p, ?_, ?_⟩
      · rw [run, hp, taken_step, if_pos hc, List.append_assoc, List.singleton_append]
      · rw [ahead_step hc]
        exact hlongest.take
    · rw [stage_step_of_ne hc] at hp hlongest
      refine ⟨p, ?_, hlongest.skip (by rwa [head?_ahead])⟩
      rw [run, stage_step_of_ne hc, hp]

theorem longest_run (cs : List Category) : Longest order cs (run initial cs).taken := by
  obtain ⟨p, hp, hlongest⟩ := exists_longest_run initial cs
  rw [hp]
  exact hlongest

/-! ## Counts -/

theorem countP_success_steps (s : Stage) (cs : List Category) :
    s.taken.length + (steps s cs).countP Step.success = (run s cs).taken.length := by
  induction cs generalizing s with
  | nil => rfl
  | cons c cs ih =>
    have hstep : (s.step c).stage.taken.length =
        s.taken.length + if (s.step c).success then 1 else 0 := by
      cases s <;> cases c <;> rfl
    have hrest := ih (s.step c).stage
    rw [steps, List.countP_cons, run]
    omega

/-- A run completes a sentence once, when it comes to the last stage. -/
theorem countP_complete_steps (s : Stage) (cs : List Category) :
    (if s = final then 1 else 0) + (steps s cs).countP Step.complete =
      if run s cs = final then 1 else 0 := by
  induction cs generalizing s with
  | nil => rfl
  | cons c cs ih =>
    have hstep : (if (s.step c).stage = final then 1 else 0) =
        (if s = final then 1 else 0) + if (s.step c).complete then 1 else 0 := by
      cases s <;> cases c <;> rfl
    have hrest := ih (s.step c).stage
    rw [steps, List.countP_cons, run]
    omega

/-- Over any categories the automaton comes to the stage of the longest beginning of article, noun
and verb that is scattered in them, and to the last stage exactly if all three are. As many steps
succeed as this beginning is long, and one step completes a sentence if the last stage is reached,
otherwise none. -/
theorem run_finds_longest (cs : List Category) :
    let s := run initial cs
    (∀ t : Stage, s = t ↔ Longest order cs t.taken) ∧
    (s = final ↔ order.Sublist cs) ∧
    (steps initial cs).countP Step.success = s.taken.length ∧
    (steps initial cs).countP Step.complete = if s = final then 1 else 0 := by
  intro s
  have hlongest : Longest order cs s.taken := longest_run cs
  have hsuccess := countP_success_steps initial cs
  have hcomplete := countP_complete_steps initial cs
  refine ⟨fun t => ⟨?_, fun ht => taken_injective (hlongest.unique ht)⟩, ?_, ?_, ?_⟩
  · rintro rfl
    exact hlongest
  · rw [← hlongest.eq_iff]
    exact ⟨congrArg taken, taken_injective (t := final)⟩
  · rwa [show initial.taken.length = 0 from rfl, Nat.zero_add] at hsuccess
  · rwa [if_neg nofun, Nat.zero_add] at hcomplete

example : run initial [.verb, .article, .adjective, .noun, .article] = nounSeen := by decide

end Stage
end Castellano
