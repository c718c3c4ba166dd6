import Mathlib.Data.Char
import Mathlib.Data.List.Induction
import Mathlib.Data.List.Nodup
import Mathlib.Data.String.Basic

/-!
# Castellano.Proofs.ForStd

Facts about lists, strings and results that the standard library does not have. They say nothing of
vocabularies or sentences; each stands in the namespace of what it is about.
-/

/-! ## First occurrences in a list -/

namespace List

section FirstOccurrences

variable {α : Type} [BEq α] [LawfulBEq α]

theorem eraseDups_append_singleton (l : List α) (a : α) :
    (l ++ [a]).eraseDups = l.eraseDups ++ if a ∈ l then [] else [a] := by
  rw [eraseDups_append]
  by_cases ha : a ∈ l <;> simp [ha, removeAll, eraseDups_cons]

theorem nodup_eraseDups (l : List α) : l.eraseDups.Nodup := by
  induction l using reverseRecOn with
  | nil => exact nodup_nil
  | append_singleton l a ih =>
    rw [eraseDups_append_singleton]
    split
    · rw [append_nil]; exact ih
    · rename_i hnew
      have hnew : a ∉ l.eraseDups := fun ha => hnew (mem_eraseDups.mp ha)
      rw [← concat_eq_append]
      exact ih.concat hnew

theorem eraseDups_eq_self {l : List α} (h : l.Nodup) : l.eraseDups = l := by
  induction l using reverseRecOn with
  | nil => rfl
  | append_singleton l a ih =>
    rw [← concat_eq_append, nodup_concat] at h
    rw [eraseDups_append_singleton, ih h.2, if_neg h.1]

theorem eraseDups_filter_append_singleton (p : α → Bool) (l : List α) (a : α) :
    ((l ++ [a]).filter p).eraseDups =
      (l.filter p).eraseDups ++ if p a = true ∧ a ∉ l then [a] else [] := by
  rw [filter_append]
  by_cases hp : p a = true
  · rw [filter_cons_of_pos hp, filter_nil, eraseDups_append_singleton]
    by_cases ha : a ∈ l <;> simp [hp, ha]
  · rw [filter_cons_of_neg hp, filter_nil, append_nil, if_neg fun h => hp h.1, append_nil]

/-- What is left once of each element comes in the order of the first occurrences. -/
theorem pairwise_idxOf_eraseDups (p : α → Bool) (l : List α) :
    (l.filter p).eraseDups.Pairwise fun a b => l.idxOf a < l.idxOf b := by
  induction l using reverseRecOn with
  | nil => exact Pairwise.nil
  | append_singleton l a ih =>
    have hmem : ∀ b ∈ (l.filter p).eraseDups, b ∈ l := fun b hb =>
      mem_of_mem_filter (mem_eraseDups.mp hb)
    have hold : (l.filter p).eraseDups.Pairwise fun b c =>
        (l ++ [a]).idxOf b < (l ++ [a]).idxOf c := by
      refine ih.imp_of_mem fun {b c} hb hc hlt => ?_
      rwa [idxOf_append_of_mem (hmem b hb), idxOf_append_of_mem (hmem c hc)]
    rw [eraseDups_filter_append_singleton]
    split
    · rename_i hnew
      refine pairwise_append.mpr ⟨hold, pairwise_singleton _ a, ?_⟩
      -- the new element stands behind all that were there before
      intro b hb c hc
      have hlt : l.idxOf b < l.length := idxOf_lt_length_iff.mpr (hmem b hb)
      rw [mem_singleton.mp hc, idxOf_append_of_mem (hmem b hb), idxOf_append_of_notMem hnew.2]
      omega
    · rw [append_nil]
      exact hold

end FirstOccurrences

/-! ## Parts of a list -/

theorem exists_mem_append_singleton {α : Type} {p : α → Prop} {l : List α} {a : α} :
    (∃ b ∈ l ++ [a], p b) ↔ (∃ b ∈ l, p b) ∨ p a := by
  simp [or_and_right, exists_or]

theorem lookup_cons_eq_ite {α β : Type} [DecidableEq α] (a : α) (e : α × β) (es : List (α × β)) :
    (e :: es).lookup a = if a = e.1 then some e.2 else es.lookup a := by
  rw [lookup_cons]
  by_cases ha : a = e.1
  · simp [ha]
  · simp [ha, beq_eq_false_iff_ne.mpr ha]

/-- Where the elements stop that have a property, a list can be divided in one way only. -/
theorem append_inj_of_head? {α : Type} {p : α → Prop} [DecidablePred p] {as bs as' bs' : List α}
    (has : ∀ a ∈ as, p a) (hbs : ∀ b ∈ bs.head?, ¬p b) (has' : ∀ a ∈ as', p a)
    (hbs' : ∀ b ∈ bs'.head?, ¬p b) (h : as ++ bs = as' ++ bs') : as = as' ∧ bs = bs' := by
  have htake : ∀ {as bs : List α}, (∀ a ∈ as, p a) → (∀ b ∈ bs.head?, ¬p b) →
      (as ++ bs).takeWhile p = as := by
    intro as bs has hbs
    rw [takeWhile_append_of_pos (by simpa using has)]
    cases bs with
    | nil => simp
    | cons b bs => simp [hbs b rfl]
  have heq : as = as' := by
    rw [← htake has hbs, h, htake has' hbs']
  subst heq
  exact ⟨rfl, append_cancel_left h⟩

end List

/-! ## The order of strings -/

namespace String

theorem lt_of_prefixes {cs : List Char} {c d : Char} {w x : String} (hcd : c < d)
    (hw : cs ++ [c] <+: w.toList) (hx : cs ++ [d] <+: x.toList) : w < x := by
  obtain ⟨es, hw⟩ := hw
  obtain ⟨fs, hx⟩ := hx
  rw [lt_iff_toList_lt, ← hw, ← hx, List.append_assoc, List.append_assoc]
  exact List.append_left_lt (List.cons_lt_cons_iff.mpr (.inl hcd))

theorem lt_of_prefix_snoc {cs : List Char} {c : Char} {w x : String} (hw : cs = w.toList)
    (hx : cs ++ [c] <+: x.toList) : w < x := by
  obtain ⟨es, hx⟩ := hx
  rw [lt_iff_toList_lt, ← hw, ← hx, List.append_assoc]
  calc cs = cs ++ [] := (List.append_nil cs).symm
    _ < cs ++ ([c] ++ es) := List.append_left_lt (List.nil_lt_cons c es)

end String

/-! ## Results -/

namespace Except

variable {ε δ α β : Type}

theorem isOk_map (f : α → β) (e : Except ε α) : (e.map f).isOk = e.isOk := by
  cases e <;> rfl

theorem isOk_mapError (f : ε → δ) (e : Except ε α) : (e.mapError f).isOk = e.isOk := by
  cases e <;> rfl

end Except
