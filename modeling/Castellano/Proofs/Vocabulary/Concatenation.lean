import Castellano.Proofs.Vocabulary.Loading

/-!
# Castellano.Proofs.Vocabulary.Concatenation

Listings one after the other. A listing is read line by line, so a listing that ends with its last
line can be followed by another one, and loading both as one text is loading the second one into
what the first one leads to (`load_append`). Only the numbers of the lines go on from the first to
the second. Where the first listing breaks off, the second one is not looked at.

The induction is on the lines of the first listing (`loadLines_append`). It carries the number of
the next line, so the second listing is met with a greater number than when it is loaded alone;
what that changes is said apart (`loadLines_add`).
-/

namespace Castellano

/-- The error as it is when `k` lines come before. -/
def ListingError.after (k : Nat) (e : ListingError) : ListingError := ⟨e.line + k, e.fault⟩

namespace Listing

/-- What comes of loading something and then, unless it breaks off, something else. The counts
add up. -/
def andThen (r : Draft × Except ListingError Nat)
    (next : Draft → Draft × Except ListingError Nat) : Draft × Except ListingError Nat :=
  match r with
  | (d, .error e) => (d, .error e)
  | (d, .ok n) => ((next d).1, (next d).2.map (n + ·))

theorem andThen_zero (d : Draft) (next : Draft → Draft × Except ListingError Nat) :
    andThen (d, .ok 0) next = next d := by
  rw [andThen]
  refine Prod.ext rfl ?_
  cases (next d).2 with
  | error e => rfl
  | ok m => exact congrArg Except.ok (Nat.zero_add m)

/-- One entry more in the first part is one entry more in both. -/
theorem andThen_succ (r : Draft × Except ListingError Nat)
    (next : Draft → Draft × Except ListingError Nat) :
    andThen (r.1, r.2.map (· + 1)) next =
      ((andThen r next).1, (andThen r next).2.map (· + 1)) := by
  obtain ⟨d, result⟩ := r
  cases result with
  | error e => rfl
  | ok n =>
    refine Prod.ext rfl ?_
    simp only [andThen, Except.map]
    cases (next d).2 with
    | error e => rfl
    | ok m => exact congrArg Except.ok (Nat.add_right_comm n 1 m)

/-! ## Lines after lines -/

theorem loadLines_append (d : Draft) (number : Nat) (lines rest : List (List Char)) :
    d.loadLines number (lines ++ rest) =
      andThen (d.loadLines number lines) fun d' =>
        d'.loadLines (number + lines.length) rest := by
  induction lines generalizing d number with
  | nil => rw [Draft.loadLines, andThen_zero]; rfl
  | cons line lines ih =>
    have hnumber : number + (line :: lines).length = number + 1 + lines.length := by
      rw [List.length_cons]
      omega
    rw [List.cons_append, hnumber]
    cases hline : Contribution.ofLine line with
    | error fault =>
      rw [Draft.loadLines_of_error hline, Draft.loadLines_of_error hline, andThen]
    | ok c? =>
      cases c? with
      | none => rw [Draft.loadLines_of_none hline, Draft.loadLines_of_none hline, ih]
      | some c =>
        rw [Draft.loadLines_of_some hline, Draft.loadLines_of_some hline, ih, andThen_succ]

/-- With a greater number at the start, all that changes is the number in the error. -/
theorem loadLines_add (d : Draft) (number k : Nat) (lines : List (List Char)) :
    d.loadLines (number + k) lines =
      ((d.loadLines number lines).1, (d.loadLines number lines).2.mapError (·.after k)) := by
  induction lines generalizing d number with
  | nil => rfl
  | cons line lines ih =>
    have hnumber : number + k + 1 = number + 1 + k := by omega
    cases hline : Contribution.ofLine line with
    | error fault =>
      rw [Draft.loadLines_of_error hline, Draft.loadLines_of_error hline]
      rfl
    | ok c? =>
      cases c? with
      | none =>
        rw [Draft.loadLines_of_none hline, Draft.loadLines_of_none hline, hnumber, ih]
      | some c =>
        rw [Draft.loadLines_of_some hline, Draft.loadLines_of_some hline, hnumber, ih]
        cases ((d.contribute c).loadLines (number + 1) lines).2 <;> rfl

/-! ## Texts after texts -/

theorem load_append_eq (d : Draft) {first : String} (second : String)
    (h : first = "" ∨ first.toList.getLast? = some '\n') :
    d.load (first ++ second) = andThen (d.load first) fun d' =>
      ((d'.load second).1, (d'.load second).2.mapError (·.after (first.toList.count '\n'))) := by
  rw [← String.toList_eq_nil_iff] at h
  obtain ⟨ended, hlength, hsplit⟩ := Text.exists_ended_lines h
  have hfirst : d.load first = d.loadLines 1 ended := by
    have hpieces := hsplit []
    rw [List.append_nil, List.splitOn_nil] at hpieces
    rw [Draft.load, hpieces, loadLines_append_nil]
  rw [hfirst, Draft.load, String.toList_append, hsplit, loadLines_append, hlength]
  congr 1
  funext d'
  rw [loadLines_add, Draft.load]

end Listing

open Listing

/-- Let one listing end with a line feed, or be empty. If it breaks off, then followed by another
one it breaks off in the same way. If it can be loaded, the listing of both leads to what loading
the second one after it leads to: with the sum of the counts, or with the error of the second one,
its line counted from the beginning of the first. -/
theorem load_append (d : Draft) {first : String} (second : String)
    (h : first = "" ∨ first.toList.getLast? = some '\n') :
    let whole := d.load (first ++ second)
    (∀ d' e, d.load first = (d', .error e) → whole = (d', .error e)) ∧
    ∀ d' n, d.load first = (d', .ok n) →
      whole.1 = (d'.load second).1 ∧
      (∀ m, (d'.load second).2 = .ok m → whole.2 = .ok (n + m)) ∧
      ∀ e, (d'.load second).2 = .error e →
        whole.2 = .error ⟨e.line + first.toList.count '\n', e.fault⟩ := by
  intro whole
  have hwhole : whole = _ := load_append_eq d second h
  constructor
  · intro d' e hfirst
    rw [hwhole, hfirst, andThen]
  · intro d' n hfirst
    rw [hfirst, andThen] at hwhole
    rw [hwhole]
    refine ⟨rfl, fun m hm => ?_, fun e he => ?_⟩
    · simp only [hm]
      rfl
    · simp only [he]
      rfl

/-- The second listing breaks off at its second line, which is the fourth of both. -/
theorem load_append_unknown_gender :
    let first := "casa|n|f\r\n# mar\n"
    let second := "sale|v\nmar|n|x\nsol|n|m"
    let d := (Draft.empty.load first).1
    first.toList.getLast? = some '\n' ∧ Draft.empty.load first = (d, .ok 1) ∧
    (d.load second).2 = .error ⟨2, .unknownGender "x"⟩ ∧
    (Draft.empty.load (first ++ second)).2 = .error ⟨4, .unknownGender "x"⟩ := by
  intro first second d
  have hlast : first.toList.getLast? = some '\n' := by decide
  have hfirst : Draft.empty.load first = (d, .ok 1) := by decide +kernel
  have hsecond : (d.load second).2 = .error ⟨2, .unknownGender "x"⟩ := by decide +kernel
  obtain ⟨-, hok⟩ := load_append Draft.empty second (.inr hlast)
  obtain ⟨-, -, herror⟩ := hok d 1 hfirst
  have hcount : first.toList.count '\n' = 2 := by decide
  rw [hcount] at herror
  exact ⟨hlast, hfirst, hsecond, herror _ hsecond⟩

end Castellano
