import Castellano.Text.Normal
import Mathlib.Data.List.Dedup

/-!
# Castellano.Proofs.Text.Capital

What the capital form of a character is made of: characters that are their own capital form
(`capital_of_mem_capital`), and no blank unless the character is one itself
(`isBlank_of_mem_capital`). Characters outside of all capitals of the table, such as punctuation,
come from themselves only (`eq_of_mem_capital`).

A code point that no run of the table covers is its own capital form, so it has to be shown that
no run covers the capitals of any run. The letters of a run are too many to look at one by one;
instead two runs are compared as intervals. Where the capitals of one lie among the letters of
another (alphabets in which capital and small letters alternate), they differ in parity.
-/

namespace Castellano
namespace Text

theorem CaseRun.covers_iff (r : CaseRun) (n : Nat) :
    r.covers n = true ↔ r.first ≤ n ∧ n ≤ r.last ∧ (n - r.first) % r.stride = 0 := by
  simp [covers, and_assoc]

/-- The greatest capital of a run. -/
def CaseRun.top (r : CaseRun) : Nat := r.capital + (r.last - r.first)

theorem CaseRun.capital_le_top {r : CaseRun} {n : Nat} (hn : r.covers n = true) :
    r.capital + (n - r.first) ≤ r.top := by
  obtain ⟨-, hlast, -⟩ := (r.covers_iff n).mp hn
  rw [top]; omega

/-! ## Capitals are no small letters -/

/-- All capitals of a run lie below `low` or above `high`. -/
def CaseRun.outside (r : CaseRun) (low high : Nat) : Bool :=
  decide (r.top < low) || decide (high < r.capital)

/-- The capitals of the run `r` are no letters of the run `s`: they lie below or above them, or
among them with the other parity. -/
def CaseRun.apart (r s : CaseRun) : Bool :=
  r.outside s.first s.last ||
    ((r.stride == 2 || r.first == r.last) && s.stride == 2 && (r.capital + s.first) % 2 == 1)

theorem CaseRun.not_covers_of_apart {r s : CaseRun} {n : Nat} (h : r.apart s = true)
    (hn : r.covers n = true) : s.covers (r.capital + (n - r.first)) = false := by
  obtain ⟨hfirst, hlast, hstride⟩ := (r.covers_iff n).mp hn
  have htop := capital_le_top hn
  rw [Bool.eq_false_iff, ne_eq, s.covers_iff]
  simp only [apart, outside, Bool.or_eq_true, Bool.and_eq_true, decide_eq_true_eq,
    beq_iff_eq] at h
  rcases h with (h | h) | ⟨⟨h, hs⟩, hodd⟩
  · omega
  · omega
  · rw [hs]
    have heven : (n - r.first) % 2 = 0 := by
      rcases h with h | h
      · rw [← h]; exact hstride
      · omega
    omega

/-- The parts of the table, each with its least and its greatest letter. -/
def alphabets : List (Nat × Nat × List CaseRun) :=
  [(0x0061, 0x029E, latinRuns), (0x0345, 0x03FB, greekRuns), (0x0430, 0x0587, cyrillicRuns),
    (0x10D0, 0x1C8A, georgianRuns), (0x1D79, 0x1EFF, latinAdditionalRuns),
    (0x1F00, 0x1FFC, greekExtendedRuns), (0x214E, 0x2D2D, signsRuns),
    (0xA641, 0xABBF, laterAdditionsRuns), (0xFB00, 0xFF5A, presentationRuns),
    (0x10428, 0x1E943, supplementaryRuns)]

theorem caseRuns_eq : caseRuns = alphabets.flatMap fun a => a.2.2 := by
  simp [caseRuns, alphabets]

theorem alphabets_bounded : (alphabets.all fun a => a.2.2.all fun s =>
    decide (a.1 ≤ s.first) && decide (s.last ≤ a.2.1)) = true := by
  decide +kernel

/-- Most runs lie outside of most alphabets as a whole, which makes the comparison short. -/
theorem alphabets_apart : (caseRuns.all fun r => alphabets.all fun a =>
    r.outside a.1 a.2.1 || a.2.2.all r.apart) = true := by
  decide +kernel

theorem apart_of_mem {r s : CaseRun} (hr : r ∈ caseRuns) (hs : s ∈ caseRuns) :
    r.apart s = true := by
  rw [caseRuns_eq, List.mem_flatMap] at hs
  obtain ⟨a, ha, hs⟩ := hs
  have hbounds := List.all_eq_true.mp (List.all_eq_true.mp alphabets_bounded a ha) s hs
  have hapart := List.all_eq_true.mp (List.all_eq_true.mp alphabets_apart r hr) a ha
  rw [Bool.or_eq_true] at hapart
  rcases hapart with h | h
  · simp only [CaseRun.apart, CaseRun.outside, Bool.and_eq_true, Bool.or_eq_true,
      decide_eq_true_eq] at h hbounds ⊢
    omega
  · exact List.all_eq_true.mp h s hs

/-! ## Settled code points -/

/-- A code point of a character that is no blank and that the table leaves alone. -/
structure Settled (n : Nat) : Prop where
  toNat_eq : (Char.ofNat n).toNat = n
  notBlank : isBlank (Char.ofNat n) = false
  uncovered : ∀ r ∈ caseRuns, r.covers n = false

/-- The capitals of a run are characters, and no blanks. -/
def CaseRun.visible (r : CaseRun) : Bool :=
  (decide (r.top < 0xD800) || decide (0xDFFF < r.capital) && decide (r.top < 0x110000)) &&
    blankRanges.all fun range => r.outside range.1 range.2

theorem caseRuns_visible : caseRuns.all CaseRun.visible = true := by
  decide +kernel

theorem tails_settled : ((caseRuns.flatMap CaseRun.tail).dedup.all fun n =>
    (Char.ofNat n).toNat == n && !isBlank (Char.ofNat n) && caseRuns.all fun r => !r.covers n) =
      true := by
  decide +kernel

theorem settled_of_mem_tail {r : CaseRun} {n : Nat} (hr : r ∈ caseRuns) (hn : n ∈ r.tail) :
    Settled n := by
  have hmem : n ∈ (caseRuns.flatMap CaseRun.tail).dedup :=
    List.mem_dedup.mpr (List.mem_flatMap.mpr ⟨r, hr, hn⟩)
  have h := List.all_eq_true.mp tails_settled n hmem
  simp only [Bool.and_eq_true, beq_iff_eq, Bool.not_eq_true', List.all_eq_true] at h
  exact ⟨h.1.1, h.1.2, h.2⟩

theorem settled_capital {r : CaseRun} {n : Nat} (hr : r ∈ caseRuns) (hn : r.covers n = true) :
    Settled (r.capital + (n - r.first)) := by
  have hvisible := List.all_eq_true.mp caseRuns_visible r hr
  have htop := CaseRun.capital_le_top hn
  simp only [CaseRun.visible, CaseRun.outside, Bool.and_eq_true, Bool.or_eq_true,
    decide_eq_true_eq, List.all_eq_true] at hvisible
  obtain ⟨hrange, hblank⟩ := hvisible
  have hvalid : (r.capital + (n - r.first)).isValidChar := by
    simp only [Nat.isValidChar]; omega
  have hnat : (Char.ofNat (r.capital + (n - r.first))).toNat = r.capital + (n - r.first) := by
    rw [Char.ofNat, dif_pos hvalid]; rfl
  refine ⟨hnat, ?_, fun s hs => CaseRun.not_covers_of_apart (apart_of_mem hr hs) hn⟩
  rw [isBlank, hnat, List.any_eq_false]
  intro range hrange'
  have := hblank range hrange'
  simp only [Bool.and_eq_true, decide_eq_true_eq]
  omega

/-! ## Characters -/

theorem capitalIn_eq (rs : List CaseRun) (n : Nat) :
    capitalIn rs n = [n] ∨ ∃ r ∈ rs, r.covers n = true ∧ capitalIn rs n = r.image n := by
  induction rs with
  | nil => exact .inl rfl
  | cons r rs ih =>
    rw [capitalIn]
    split
    · exact .inl rfl
    · split
      · rename_i hcovers
        exact .inr ⟨r, List.mem_cons_self, hcovers, rfl⟩
      · rcases ih with h | ⟨s, hs, hcovers, h⟩
        · exact .inl h
        · exact .inr ⟨s, List.mem_cons_of_mem r hs, hcovers, h⟩

/-- The capital form of a character is the character itself, or made of settled code points. -/
theorem capital_eq (c : Char) :
    capital c = [c] ∨ ∃ ms, (∀ m ∈ ms, Settled m) ∧ ms ≠ [] ∧ capital c = ms.map Char.ofNat := by
  rcases capitalIn_eq caseRuns c.toNat with h | ⟨r, hr, hcovers, h⟩
  · refine .inl ?_
    rw [capital, h, List.map_singleton, Char.ofNat_toNat]
  · refine .inr ⟨r.image c.toNat, ?_, by simp [CaseRun.image], by rw [capital, h]⟩
    intro m hm
    rcases List.mem_cons.mp hm with rfl | hm
    · exact settled_capital hr hcovers
    · exact settled_of_mem_tail hr hm

theorem Settled.capital_eq {n : Nat} (h : Settled n) : capital (Char.ofNat n) = [Char.ofNat n] := by
  rcases capitalIn_eq caseRuns n with hin | ⟨r, hr, hcovers, -⟩
  · rw [capital, h.toNat_eq, hin, List.map_singleton]
  · rw [h.uncovered r hr] at hcovers; cases hcovers

theorem capital_ne_nil (c : Char) : capital c ≠ [] := by
  rcases capital_eq c with h | ⟨ms, -, hne, h⟩
  · rw [h]; simp
  · rw [h]; simpa using hne

theorem capital_of_mem_capital {c d : Char} (h : d ∈ capital c) : capital d = [d] := by
  rcases capital_eq c with hc | ⟨ms, hms, -, hc⟩
  · rw [hc, List.mem_singleton] at h
    rw [h, hc]
  · rw [hc] at h
    obtain ⟨m, hm, rfl⟩ := List.mem_map.mp h
    exact (hms m hm).capital_eq

theorem isBlank_of_mem_capital {c d : Char} (h : d ∈ capital c) (hd : isBlank d = true) :
    isBlank c = true := by
  rcases capital_eq c with hc | ⟨ms, hms, -, hc⟩
  · rw [hc, List.mem_singleton] at h
    rw [← h, hd]
  · rw [hc] at h
    obtain ⟨m, hm, rfl⟩ := List.mem_map.mp h
    rw [(hms m hm).notBlank] at hd; cases hd

/-- No letter of the run has the code point in its capital form. -/
def CaseRun.spares (r : CaseRun) (n : Nat) : Bool := r.outside n n && decide (n ∉ r.tail)

theorem eq_of_mem_capital {c d : Char} (hd : ∀ r ∈ caseRuns, r.spares d.toNat = true)
    (h : d ∈ capital c) : c = d := by
  rcases capitalIn_eq caseRuns c.toNat with hc | ⟨r, hr, hcovers, hc⟩
  · rw [capital, hc, List.map_singleton, Char.ofNat_toNat, List.mem_singleton] at h
    exact h.symm
  · rw [capital, hc] at h
    obtain ⟨n, hn, rfl⟩ := List.mem_map.mp h
    have hspares := hd r hr
    rcases List.mem_cons.mp hn with rfl | hn
    · rw [(settled_capital hr hcovers).toNat_eq] at hspares
      have htop := CaseRun.capital_le_top hcovers
      simp only [CaseRun.spares, CaseRun.outside, Bool.and_eq_true, Bool.or_eq_true,
        decide_eq_true_eq] at hspares
      omega
    · rw [(settled_of_mem_tail hr hn).toNat_eq] at hspares
      simp [CaseRun.spares, hn] at hspares

end Text
end Castellano
