import Castellano.Failure
import Castellano.Proofs.Text.Normal

/-!
# Castellano.Proofs.Vocabulary.History

The drafts that contributions lead to: words one by one or several at a time, listings, and files
with listings. A listing that breaks off at a line that is not well formed has contributed the
lines before it, so its draft counts whether or not reading it came to the end.

Every contribution comes down to `Draft.add`. What holds of the empty draft and is preserved by
`add` therefore holds of them all (`Reachable.of_add`); their words are in normal form and have
characters (`Reachable.canonical`).
-/

namespace Castellano
namespace Draft

/-- The drafts that come about by contributions. -/
inductive Reachable : Draft → Prop
  | empty : Reachable Draft.empty
  | add {d : Draft} (c : Category) (g : Gender) (word : String) :
      d.Reachable → Reachable (d.add c g word)
  | extend {d : Draft} (c : Category) (g : Gender) (words : List String) :
      d.Reachable → Reachable (d.extend c g words)
  | load {d : Draft} (text : String) : d.Reachable → Reachable (d.load text).1
  | loadFile {d : Draft} (files : Files) (path : String) :
      d.Reachable → Reachable (d.loadFile files path).1

/-! ## Lines one by one -/

section Line

variable {d : Draft} {number : Nat} {line : List Char} {lines : List (List Char)}

theorem loadLines_of_error {fault : LineFault} (h : Contribution.ofLine line = .error fault) :
    d.loadLines number (line :: lines) = (d, .error ⟨number, fault⟩) := by
  rw [loadLines, h]

theorem loadLines_of_none (h : Contribution.ofLine line = .ok none) :
    d.loadLines number (line :: lines) = d.loadLines (number + 1) lines := by
  rw [loadLines, h]

theorem loadLines_of_some {c : Contribution} (h : Contribution.ofLine line = .ok (some c)) :
    d.loadLines number (line :: lines) =
      (((d.contribute c).loadLines (number + 1) lines).1,
        ((d.contribute c).loadLines (number + 1) lines).2.map (· + 1)) := by
  rw [loadLines, h]

end Line

/-! ## Contributions one by one -/

section Preserved

variable {P : Draft → Prop} (hadd : ∀ d c g word, P d → P (d.add c g word))
include hadd

theorem extend_preserves {d : Draft} (c : Category) (g : Gender) (words : List String)
    (hd : P d) : P (d.extend c g words) := by
  induction words generalizing d with
  | nil => exact hd
  | cons word words ih =>
    rw [extend, List.foldl_cons]
    exact ih (hadd d c g word hd)

theorem loadLines_preserves {d : Draft} (number : Nat) (lines : List (List Char)) (hd : P d) :
    P (d.loadLines number lines).1 := by
  induction lines generalizing d number with
  | nil => exact hd
  | cons line lines ih =>
    simp only [loadLines]
    split
    · exact hd
    · exact ih (number + 1) hd
    · rename_i c _
      exact ih (number + 1) (hadd d c.category c.gender c.word hd)

theorem loadFile_preserves {d : Draft} (files : Files) (path : String) (hd : P d) :
    P (d.loadFile files path).1 := by
  simp only [loadFile]
  split
  · exact hd
  · exact loadLines_preserves hadd 1 _ hd

/-- What single words preserve, all contributions preserve. -/
theorem Reachable.of_add {d : Draft} (hempty : P Draft.empty) (h : d.Reachable) : P d := by
  induction h with
  | empty => exact hempty
  | add c g word _ ih => exact hadd _ c g word ih
  | extend c g words _ ih => exact extend_preserves hadd c g words ih
  | load text _ ih => exact loadLines_preserves hadd 1 _ ih
  | loadFile files path _ ih => exact loadFile_preserves hadd files path ih

end Preserved

/-! ## The words of a draft -/

/-- All words of the draft are in normal form and have characters. -/
structure Canonical (d : Draft) : Prop where
  normal : ∀ e ∈ d.entries, normalize e.2 = e.2
  nonempty : ∀ e ∈ d.entries, e.2 ≠ ""

theorem mem_enter_iff {d : Draft} {k : WordClass} {word : String} {e : WordClass × String} :
    e ∈ (d.enter k word).entries ↔ e ∈ d.entries ∨ word ≠ "" ∧ e = (k, word) := by
  rw [enter]
  split
  · rename_i hold
    refine (or_iff_left_of_imp ?_).symm
    rintro ⟨hne, rfl⟩
    exact hold.resolve_left hne
  · rename_i hnew
    have hne : word ≠ "" := fun hw => hnew (.inl hw)
    rw [List.mem_append, List.mem_singleton, and_iff_right hne]

theorem Canonical.add {d : Draft} (c : Category) (g : Gender) (word : String)
    (hd : d.Canonical) : (d.add c g word).Canonical := by
  constructor
  · intro e he
    rcases mem_enter_iff.mp he with he | ⟨-, rfl⟩
    · exact hd.normal e he
    · exact normalize_normalize word
  · intro e he
    rcases mem_enter_iff.mp he with he | ⟨hne, rfl⟩
    · exact hd.nonempty e he
    · exact hne

theorem canonical_empty : Draft.empty.Canonical :=
  ⟨fun _ he => absurd he List.not_mem_nil, fun _ he => absurd he List.not_mem_nil⟩

theorem Reachable.canonical {d : Draft} (h : d.Reachable) : d.Canonical :=
  Reachable.of_add (P := Canonical) (fun _ c g word hd => hd.add c g word) canonical_empty h

end Draft

/-! ## What contributions come to -/

/-- The class that a word is contributed to, and its normal form. -/
def Contribution.entry (c : Contribution) : WordClass × String :=
  (WordClass.of c.category c.gender, normalize c.word)

/-- The normal words with the classes that they are contributed to. A word without characters
counts for nothing. -/
def contributed (calls : List Contribution) : List (WordClass × String) :=
  (calls.map Contribution.entry).filter fun e => e.2 ≠ ""

theorem mem_contributed_iff {calls : List Contribution} {e : WordClass × String} :
    e ∈ contributed calls ↔ ∃ c ∈ calls, c.entry.2 ≠ "" ∧ e = c.entry := by
  rw [contributed, List.mem_filter, List.mem_map, decide_eq_true_eq]
  constructor
  · rintro ⟨⟨c, hc, rfl⟩, hne⟩
    exact ⟨c, hc, hne, rfl⟩
  · rintro ⟨c, hc, hne, rfl⟩
    exact ⟨⟨c, hc, rfl⟩, hne⟩

theorem Draft.contribute_eq (d : Draft) (c : Contribution) :
    d.contribute c = d.enter c.entry.1 c.entry.2 := rfl

theorem Draft.mem_contribute_iff {d : Draft} {c : Contribution} {e : WordClass × String} :
    e ∈ (d.contribute c).entries ↔ e ∈ d.entries ∨ c.entry.2 ≠ "" ∧ e = c.entry := by
  rw [contribute_eq]
  exact mem_enter_iff

theorem Draft.mem_foldl_contribute_iff {d : Draft} {calls : List Contribution}
    {e : WordClass × String} :
    e ∈ (calls.foldl contribute d).entries ↔ e ∈ d.entries ∨ e ∈ contributed calls := by
  simp only [mem_contributed_iff]
  induction calls generalizing d with
  | nil => simp
  | cons c calls ih =>
    rw [List.foldl_cons, ih, mem_contribute_iff, or_assoc, List.exists_mem_cons_iff]

end Castellano
