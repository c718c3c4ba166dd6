import Castellano.Automaton.Basic
import Castellano.Proofs.Automaton.Shape

/-!
# Castellano.Proofs.Automaton.Endings

An automaton seen through the texts that it reads. A text leads nowhere, or to a state that ends a
word or ends none (`Table.ending?`). Each step of the construction has one equation for this view:
growing adds one text, spelling adds the beginnings of a text that were missing
(`spelled_spell`), and marking lets a word end at one text. None of the added texts ends a word,
and all others keep what they had.
-/

namespace Castellano
namespace Automaton

/-- What a state says of the texts that lead to it. -/
structure Ending where
  isFinal : Bool
  word : Option String
  category : Option Category

/-- No word ends here. -/
def Ending.nothing : Ending := ⟨false, none, none⟩

/-- A word of the given category ends here. -/
def Ending.ofWord (word : String) (category : Option Category) : Ending :=
  ⟨true, some word, category⟩

def State.ending (s : State) : Ending := ⟨s.isFinal, s.word, s.category⟩

namespace Table

/-- What the state says to which a text leads, if the text leads anywhere. -/
def ending? (t : Table) (cs : List Char) : Option Ending :=
  (t.walk 0 cs).arrival.bind fun q => t[q]?.map State.ending

theorem ending?_of_leads {t : Table} {cs : List Char} {q : Nat} (h : t.Leads cs q) :
    t.ending? cs = t[q]?.map State.ending := by
  rw [ending?, h, Option.bind_some]

theorem ending?_of_not_leads {t : Table} {cs : List Char} (h : ¬∃ q, t.Leads cs q) :
    t.ending? cs = none := by
  rw [ending?]
  cases hq : (t.walk 0 cs).arrival with
  | none => rfl
  | some q => exact absurd ⟨q, hq⟩ h

theorem Shaped.isSome_ending? {t : Table} (ht : t.Shaped) {cs : List Char} {q : Nat}
    (h : t.Leads cs q) : (t.ending? cs).isSome = true := by
  rw [ending?_of_leads h, Array.getElem?_eq_getElem (ht.lt_size h)]; rfl

theorem ending?_initial (cs : List Char) :
    initial.ending? cs = if cs = [] then some .nothing else none := by
  cases cs with
  | nil => rfl
  | cons c cs => rw [ending?, arrival_cons]; rfl

/-! ## Growing and marking -/

theorem ending?_grow {t : Table} (ht : t.Shaped) {q : Nat} {c : Char} {cs : List Char}
    (hq : t.Leads cs q) (hc : t.next? q c = none) (ds : List Char) :
    (t.grow q c).ending? ds = if ds = cs ++ [c] then some .nothing else t.ending? ds := by
  have hlt := ht.lt_size hq
  have hleads : ∀ r, (t.grow q c).Leads ds r ↔ t.Leads ds r ∨ ds = cs ++ [c] ∧ r = t.size :=
    fun r => leads_grow_iff ht hq hc
  by_cases hds : ds = cs ++ [c]
  · rw [if_pos hds, ending?_of_leads ((hleads t.size).mpr (.inr ⟨hds, rfl⟩)), getElem?_grow hlt,
      if_neg (by omega), if_pos rfl]
    rfl
  · rw [if_neg hds]
    by_cases hr : ∃ r, t.Leads ds r
    · obtain ⟨r, hr⟩ := hr
      have hrlt := ht.lt_size hr
      rw [ending?_of_leads ((hleads r).mpr (.inl hr)), ending?_of_leads hr, getElem?_grow hlt]
      split
      · rw [Option.map_map]; rfl
      · rw [if_neg (by omega)]
    · rw [ending?_of_not_leads hr, ending?_of_not_leads]
      rintro ⟨r, h⟩
      rcases (hleads r).mp h with h | h
      · exact hr ⟨r, h⟩
      · exact hds h.1

theorem next?_mark (t : Table) (q : Nat) (word : String) (category : Option Category) (p : Nat)
    (d : Char) : (t.mark q word category).next? p d = t.next? p d := by
  rw [next?, mark, Array.getElem?_modify, next?]
  by_cases hp : q = p
  · rw [if_pos hp]
    cases t[p]? <;> rfl
  · rw [if_neg hp]

theorem walk_congr {t t' : Table} (h : ∀ q c, t'.next? q c = t.next? q c) (q : Nat)
    (cs : List Char) : t'.walk q cs = t.walk q cs := by
  induction cs generalizing q with
  | nil => rfl
  | cons c cs ih => simp only [walk, h, ih]

theorem Shaped.congr {t t' : Table} (ht : t.Shaped) (hsize : t'.size = t.size)
    (h : ∀ q c, t'.next? q c = t.next? q c) : t'.Shaped := by
  constructor
  · rw [hsize]; exact ht.nonempty
  · intro q c r hr
    rw [hsize]
    exact ht.forward (h q c ▸ hr)
  · intro p c q d r hp hq
    exact ht.unique (h p c ▸ hp) (h q d ▸ hq)
  · intro r hr hne
    obtain ⟨q, c, hq⟩ := ht.entered (hsize ▸ hr) hne
    exact ⟨q, c, (h q c).trans hq⟩

theorem Shaped.mark {t : Table} (ht : t.Shaped) (q : Nat) (word : String)
    (category : Option Category) : (t.mark q word category).Shaped :=
  ht.congr Array.size_modify (next?_mark t q word category)

theorem ending?_mark {t : Table} (ht : t.Shaped) {q : Nat} {cs : List Char} (hq : t.Leads cs q)
    (word : String) (category : Option Category) (ds : List Char) :
    (t.mark q word category).ending? ds =
      if ds = cs then some (.ofWord word category) else t.ending? ds := by
  have hwalk := walk_congr (next?_mark t q word category) 0 ds
  rw [ending?, hwalk]
  by_cases hds : ds = cs
  · subst hds
    rw [if_pos rfl, hq, Option.bind_some, Table.mark, Array.getElem?_modify, if_pos rfl,
      Array.getElem?_eq_getElem (ht.lt_size hq)]
    rfl
  · rw [if_neg hds, ending?]
    cases hr : (t.walk 0 ds).arrival with
    | none => rfl
    | some r =>
      have hne : q ≠ r := by
        rintro rfl
        exact hds (ht.text_unique hr hq)
      rw [Option.bind_some, Option.bind_some, Table.mark, Array.getElem?_modify, if_neg hne]

end Table

/-! ## Spelling -/

/-- The outcome of spelling a text from the initial state. -/
structure Spelled (a : Automaton) (text : List Char) (r : Automaton × Nat) : Prop where
  vocabulary_eq : r.1.vocabulary = a.vocabulary
  shaped : r.1.table.Shaped
  leads : r.1.table.Leads text r.2
  ending?_eq : ∀ ds, r.1.table.ending? ds =
    (a.table.ending? ds).or (if ds <+: text then some .nothing else none)

/-- Spelling goes on from any text that has been spelled already. -/
theorem spelled_spell {a : Automaton} (ha : a.table.Shaped) {q : Nat} {done : List Char}
    (hq : a.table.Leads done q) (cs : List Char) : a.Spelled (done ++ cs) (a.spell q cs) := by
  induction cs generalizing a q done with
  | nil =>
    rw [List.append_nil]
    refine ⟨rfl, ha, hq, fun ds => ?_⟩
    split
    · rename_i hds
      obtain ⟨p, hp⟩ := hq.of_prefix hds
      obtain ⟨e, he⟩ := Option.isSome_iff_exists.mp (ha.isSome_ending? hp)
      rw [spell, he, Option.some_or]
    · rw [spell, Option.or_none]
  | cons c cs ih =>
    rw [List.append_cons, spell]
    split
    · rename_i r hr
      exact ih ha (Table.leads_snoc_iff.mpr ⟨q, hq, hr⟩)
    · rename_i hc
      have hgrow := ha.grow (ha.lt_size hq) hc
      have hnew : (a.table.grow q c).Leads (done ++ [c]) a.table.size :=
        (Table.leads_grow_iff ha hq hc).mpr (.inr ⟨rfl, rfl⟩)
      have hspelled := ih (a := a.grow q c) hgrow hnew
      refine ⟨hspelled.vocabulary_eq, hspelled.shaped, hspelled.leads, fun ds => ?_⟩
      rw [hspelled.ending?_eq, grow, Table.ending?_grow ha hq hc]
      by_cases hds : ds = done ++ [c]
      · have hnone : a.table.ending? ds = none := by
          rw [Table.ending?, hds, Table.arrival_append, hq, Option.bind_some,
            Table.arrival_cons, hc]
          rfl
        rw [if_pos hds, hnone, hds, if_pos (List.prefix_append _ cs)]
        rfl
      · rw [if_neg hds]

end Automaton
end Castellano
