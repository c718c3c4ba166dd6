import Castellano.Automaton.Table
import Castellano.Proofs.ForStd

/-!
# Castellano.Proofs.Automaton.Shape

The shape of a state table: a tree whose root is the initial state. Edges lead from a state to
one with a greater number, and exactly one edge leads to each state but the initial one. Growing
a table keeps the shape (`Shaped.grow`), adds one text to those that lead somewhere and changes
nothing else (`leads_grow_iff`).

In a tree a state belongs to one text only (`Shaped.text_unique`), which is what lets the states
of an automaton be spoken of through the texts that lead to them.
-/

namespace Castellano
namespace Automaton

/-! ## Edges -/

theorem State.lookup_placeEdge {c : Char} {es : List (Char × Nat)} (hc : es.lookup c = none)
    (q : Nat) (d : Char) :
    (placeEdge c q es).lookup d = if d = c then some q else es.lookup d := by
  induction es with
  | nil => rw [placeEdge, List.lookup_cons_eq_ite]
  | cons e es ih =>
    rw [List.lookup_cons_eq_ite] at hc
    split at hc
    · cases hc
    · rename_i hne
      rw [placeEdge]
      split
      · rw [List.lookup_cons_eq_ite]
      · rw [List.lookup_cons_eq_ite, List.lookup_cons_eq_ite, ih hc]
        by_cases hd : d = c
        · subst hd
          rw [if_neg hne, if_pos rfl, if_pos rfl]
        · rw [if_neg hd, if_neg hd]

namespace Table

theorem next?_of_size_le {t : Table} {q : Nat} (hq : t.size ≤ q) (c : Char) :
    t.next? q c = none := by
  rw [next?, Array.getElem?_eq_none hq]

theorem size_grow (t : Table) (q : Nat) (c : Char) : (t.grow q c).size = t.size + 1 := by
  simp [grow]

theorem getElem?_grow {t : Table} {q : Nat} (hq : q < t.size) (c : Char) (p : Nat) :
    (t.grow q c)[p]? =
      if p = q then t[p]?.map (State.link c t.size)
      else if p = t.size then some State.fresh else t[p]? := by
  rw [grow, Array.getElem?_modify, Array.getElem?_push]
  by_cases hp : p = q
  · rw [if_pos hp.symm, if_pos hp, if_neg (by omega)]
  · rw [if_neg (Ne.symm hp), if_neg hp]

/-- Growing adds one edge and keeps the others. -/
theorem next?_grow {t : Table} {q : Nat} {c : Char} (hq : q < t.size) (hc : t.next? q c = none)
    (p : Nat) (d : Char) :
    (t.grow q c).next? p d = if p = q ∧ d = c then some t.size else t.next? p d := by
  rw [next?, getElem?_grow hq]
  by_cases hp : p = q
  · subst hp
    rw [next?, Array.getElem?_eq_getElem hq] at hc
    rw [if_pos rfl, next?, Array.getElem?_eq_getElem hq, Option.map_some]
    simp only [State.target?, State.link, true_and] at hc ⊢
    exact State.lookup_placeEdge hc t.size d
  · rw [if_neg hp, if_neg (fun h : p = q ∧ d = c => hp h.1)]
    by_cases hnew : p = t.size
    · rw [if_pos hnew, next?_of_size_le (Nat.le_of_eq hnew.symm)]; rfl
    · rw [if_neg hnew]; rfl

/-! ## Texts -/

/-- A text leads from the initial state to state `q`. -/
def Leads (t : Table) (cs : List Char) (q : Nat) : Prop := (t.walk 0 cs).arrival = some q

theorem arrival_cons (t : Table) (q : Nat) (c : Char) (cs : List Char) :
    (t.walk q (c :: cs)).arrival = (t.next? q c).bind fun r => (t.walk r cs).arrival := by
  rw [walk]
  cases t.next? q c <;> rfl

theorem arrival_append (t : Table) (q : Nat) (cs ds : List Char) :
    (t.walk q (cs ++ ds)).arrival =
      (t.walk q cs).arrival.bind fun r => (t.walk r ds).arrival := by
  induction cs generalizing q with
  | nil => rfl
  | cons c cs ih =>
    rw [List.cons_append, arrival_cons, arrival_cons]
    cases t.next? q c with
    | none => rfl
    | some r => exact ih r

theorem leads_nil_iff {t : Table} {q : Nat} : t.Leads [] q ↔ q = 0 := by
  rw [Leads, walk, Option.some.injEq, eq_comm]

theorem leads_snoc_iff {t : Table} {cs : List Char} {c : Char} {q : Nat} :
    t.Leads (cs ++ [c]) q ↔ ∃ p, t.Leads cs p ∧ t.next? p c = some q := by
  rw [Leads, arrival_append, Option.bind_eq_some_iff]
  refine exists_congr fun p => and_congr_right fun _ => ?_
  rw [arrival_cons]
  cases t.next? p c <;> simp [walk]

/-- Where a text leads somewhere, so does every beginning of it. -/
theorem Leads.of_prefix {t : Table} {cs ds : List Char} {q : Nat} (h : t.Leads cs q)
    (hds : ds <+: cs) : ∃ p, t.Leads ds p := by
  obtain ⟨es, rfl⟩ := hds
  rw [Leads, arrival_append, Option.bind_eq_some_iff] at h
  obtain ⟨p, hp, -⟩ := h
  exact ⟨p, hp⟩

/-! ## Trees -/

/-- The states form a tree, and edges lead to states with greater numbers. -/
structure Shaped (t : Table) : Prop where
  nonempty : 0 < t.size
  forward : ∀ {q c r}, t.next? q c = some r → q < r ∧ r < t.size
  unique : ∀ {p c q d r}, t.next? p c = some r → t.next? q d = some r → p = q ∧ c = d
  entered : ∀ {r}, r < t.size → r ≠ 0 → ∃ q c, t.next? q c = some r

theorem shaped_initial : initial.Shaped := by
  have hnone : ∀ q c, initial.next? q c = none := by
    intro q c
    by_cases hq : q = 0
    · rw [hq]; rfl
    · have hsize : initial.size ≤ q := by
        simp only [initial, List.size_toArray, List.length_singleton]; omega
      exact next?_of_size_le hsize c
  constructor
  · exact Nat.one_pos
  · intro q c r h
    rw [hnone] at h; cases h
  · intro p c q d r h
    rw [hnone] at h; cases h
  · intro r hr hne
    exact absurd (Nat.lt_one_iff.mp hr) hne

theorem Shaped.lt_size {t : Table} (ht : t.Shaped) {cs : List Char} {q : Nat}
    (h : t.Leads cs q) : q < t.size := by
  rcases List.eq_nil_or_concat cs with rfl | ⟨ds, c, rfl⟩
  · rw [leads_nil_iff.mp h]
    exact ht.nonempty
  · rw [List.concat_eq_append, leads_snoc_iff] at h
    obtain ⟨p, -, hp⟩ := h
    exact (ht.forward hp).2

/-- A state belongs to one text only. -/
theorem Shaped.text_unique {t : Table} (ht : t.Shaped) {cs ds : List Char} {q : Nat}
    (hcs : t.Leads cs q) (hds : t.Leads ds q) : cs = ds := by
  induction cs using List.reverseRecOn generalizing ds q with
  | nil =>
    rw [leads_nil_iff] at hcs
    rcases List.eq_nil_or_concat ds with rfl | ⟨es, d, rfl⟩
    · rfl
    · rw [List.concat_eq_append, leads_snoc_iff] at hds
      obtain ⟨p, -, hp⟩ := hds
      have := (ht.forward hp).1
      omega
  | append_singleton cs c ih =>
    rw [leads_snoc_iff] at hcs
    obtain ⟨p, hcs, hp⟩ := hcs
    rcases List.eq_nil_or_concat ds with rfl | ⟨es, d, rfl⟩
    · rw [leads_nil_iff] at hds
      have := (ht.forward hp).1
      omega
    · rw [List.concat_eq_append, leads_snoc_iff] at hds
      obtain ⟨p', hds, hp'⟩ := hds
      obtain ⟨rfl, rfl⟩ := ht.unique hp hp'
      rw [ih hcs hds, List.concat_eq_append]

/-! ## Growth -/

theorem Shaped.grow {t : Table} (ht : t.Shaped) {q : Nat} {c : Char} (hq : q < t.size)
    (hc : t.next? q c = none) : (t.grow q c).Shaped := by
  have hnext := next?_grow hq hc
  constructor
  · rw [size_grow]; omega
  · intro p d r h
    rw [hnext] at h
    rw [size_grow]
    split at h
    · rename_i heq
      cases h
      omega
    · have := ht.forward h
      omega
  · intro p d p' d' r h h'
    rw [hnext] at h h'
    split at h <;> split at h'
    · rename_i heq heq'
      exact ⟨heq.1.trans heq'.1.symm, heq.2.trans heq'.2.symm⟩
    · cases h
      exact absurd (ht.forward h').2 (Nat.lt_irrefl _)
    · cases h'
      exact absurd (ht.forward h).2 (Nat.lt_irrefl _)
    · exact ht.unique h h'
  · intro r hr hne
    rw [size_grow] at hr
    by_cases hnew : r = t.size
    · exact ⟨q, c, by rw [hnext, if_pos ⟨rfl, rfl⟩, hnew]⟩
    · obtain ⟨p, d, h⟩ := ht.entered (r := r) (by omega) hne
      refine ⟨p, d, ?_⟩
      rw [hnext, if_neg, h]
      rintro ⟨rfl, rfl⟩
      rw [hc] at h; cases h

/-- A grown table takes the texts of before where they led, and one text to the new state. -/
theorem leads_grow_iff {t : Table} (ht : t.Shaped) {q : Nat} {c : Char} {cs : List Char}
    (hq : t.Leads cs q) (hc : t.next? q c = none) {ds : List Char} {r : Nat} :
    (t.grow q c).Leads ds r ↔ t.Leads ds r ∨ ds = cs ++ [c] ∧ r = t.size := by
  have hlt := ht.lt_size hq
  have hnext := next?_grow hlt hc
  induction ds using List.reverseRecOn generalizing r with
  | nil => simp [leads_nil_iff]
  | append_singleton ds d ih =>
    rw [leads_snoc_iff, leads_snoc_iff]
    constructor
    · rintro ⟨p, hp, h⟩
      rw [hnext] at h
      rcases ih.mp hp with hold | ⟨-, rfl⟩
      · split at h
        · rename_i heq
          obtain ⟨rfl, rfl⟩ := heq
          cases h
          exact .inr ⟨by rw [ht.text_unique hold hq], rfl⟩
        · exact .inl ⟨p, hold, h⟩
      · -- nothing leads on from the new state
        rw [if_neg (by omega), next?_of_size_le (Nat.le_refl _)] at h
        cases h
    · rintro (⟨p, hp, h⟩ | ⟨heq, rfl⟩)
      · refine ⟨p, ih.mpr (.inl hp), ?_⟩
        rw [hnext, if_neg, h]
        rintro ⟨rfl, rfl⟩
        rw [hc] at h; cases h
      · obtain ⟨rfl, hd⟩ := List.append_inj' heq rfl
        cases hd
        exact ⟨q, ih.mpr (.inl hq), by rw [hnext, if_pos ⟨rfl, rfl⟩]⟩

end Table
end Automaton
end Castellano
