import Castellano.Proofs.Text.Lines
import Castellano.Proofs.Vocabulary.History

/-!
# Castellano.Proofs.Vocabulary.Loading

Loading a listing. What a line says is set down apart from the reader: it is silent, or it makes an
entry (`Listing.Makes`), or it is ill formed in one of three ways (`Listing.IllFormed`), and the
reader finds which (`Listing.verdict_ofLine`).

A listing is loaded line by line, and there are two ways for it to come out (`Listing.Loading`).
Either every line is silent or makes an entry, or some line is the first one that is ill formed. In
both cases the draft has the entries of the lines that were read, and nothing else
(`loading_loadLines`). `load_outcome` says so of the whole text.
-/

namespace Castellano
namespace Listing

/-! ## Lines -/

/-- A blank line, or a comment. -/
def Silent (line : List Char) : Prop :=
  Text.trim line = [] ∨ (Text.trim line).head? = some '#'

instance : DecidablePred Silent := fun line =>
  inferInstanceAs (Decidable (Text.trim line = [] ∨ (Text.trim line).head? = some '#'))

def fields (line : List Char) : List String :=
  ((Text.trim line).splitOn '|').map fun field => String.ofList (Text.trim field)

/-- The field at a position. One that is not there is empty. -/
def field (line : List Char) (i : Nat) : String := (fields line)[i]?.getD ""

/-- The line has two or three fields, and the first one is not empty. -/
def WellDivided (line : List Char) : Prop :=
  ((fields line).length = 2 ∨ (fields line).length = 3) ∧ field line 0 ≠ ""

/-- The line is well formed and makes an entry. -/
structure Makes (line : List Char) (c : Contribution) : Prop where
  divided : WellDivided line
  word_eq : c.word = field line 0
  category_eq : Category.ofName? (field line 1) = some c.category
  gender_eq : Gender.ofName? (field line 2) = some c.gender

def WellFormed (line : List Char) : Prop := ∃ c, Makes line c

/-- What is wrong with a line. The division comes before the category, and the category before the
gender. -/
inductive IllFormed (line : List Char) : LineFault → Prop where
  | malformed : ¬WellDivided line → IllFormed line (.malformed (String.ofList (Text.trim line)))
  | unknownCategory : WellDivided line → Category.ofName? (field line 1) = none →
      IllFormed line (.unknownCategory (field line 1))
  | unknownGender {c : Category} : WellDivided line →
      Category.ofName? (field line 1) = some c → Gender.ofName? (field line 2) = none →
      IllFormed line (.unknownGender (field line 2))

theorem IllFormed.not_wellFormed {line : List Char} {fault : LineFault}
    (h : IllFormed line fault) : ¬WellFormed line := by
  rintro ⟨c, hdivided, -, hcategory, hgender⟩
  cases h with
  | malformed hno => exact hno hdivided
  | unknownCategory _ hnone => rw [hnone] at hcategory; cases hcategory
  | unknownGender _ _ hnone => rw [hnone] at hgender; cases hgender

/-- What there is to find out about a line. -/
inductive Verdict (line : List Char) : Except LineFault (Option Contribution) → Prop where
  | silent : Silent line → Verdict line (.ok none)
  | entry {c : Contribution} : ¬Silent line → Makes line c → Verdict line (.ok (some c))
  | illFormed {fault : LineFault} : ¬Silent line → IllFormed line fault →
      Verdict line (.error fault)

theorem verdict_ofFields {line : List Char} (hspeaks : ¬Silent line) {w k g : String}
    (hlength : (fields line).length = 2 ∨ (fields line).length = 3) (hw : field line 0 = w)
    (hk : field line 1 = k) (hg : field line 2 = g) :
    Verdict line
      (if w = "" then .error (.malformed (String.ofList (Text.trim line)))
      else (Contribution.ofFields w k g).map some) := by
  subst hw hk hg
  split
  · rename_i hempty
    exact .illFormed hspeaks (.malformed fun h => h.2 hempty)
  · rename_i hword
    have hdivided : WellDivided line := ⟨hlength, hword⟩
    rw [Contribution.ofFields]
    cases hcategory : Category.ofName? (field line 1) with
    | none => exact .illFormed hspeaks (.unknownCategory hdivided hcategory)
    | some c =>
      cases hgender : Gender.ofName? (field line 2) with
      | none => exact .illFormed hspeaks (.unknownGender hdivided hcategory hgender)
      | some g => exact .entry hspeaks ⟨hdivided, rfl, hcategory, hgender⟩

theorem verdict_ofLine (line : List Char) : Verdict line (Contribution.ofLine line) := by
  rw [Contribution.ofLine]
  split
  · rename_i hblank
    exact .silent (.inl hblank)
  · rename_i comment hcomment
    exact .silent (.inr (by rw [hcomment]; rfl))
  · rename_i hblank hcomment
    have hspeaks : ¬Silent line := by
      rintro (h | h)
      · exact hblank h
      · obtain ⟨comment, hcs⟩ := List.head?_eq_some_iff.mp h
        exact hcomment comment hcs
    have hmalformed : ¬((fields line).length = 2 ∨ (fields line).length = 3) →
        Verdict line (.error (.malformed (String.ofList (Text.trim line)))) := fun h =>
      .illFormed hspeaks (.malformed fun hdivided => h hdivided.1)
    have hread := @verdict_ofFields line hspeaks
    rw [← fields]
    simp only [field] at hread
    generalize fields line = fs at hmalformed hread ⊢
    -- two fields, three, or another number
    rcases fs with _ | ⟨w, _ | ⟨k, _ | ⟨g, _ | ⟨x, fs⟩⟩⟩⟩
    · exact hmalformed (by decide)
    · exact hmalformed (by simp)
    · exact hread (.inl rfl) rfl rfl rfl
    · exact hread (.inr rfl) rfl rfl rfl
    · exact hmalformed (by simp)

theorem ofLine_of_silent {line : List Char} (h : Silent line) :
    Contribution.ofLine line = .ok none := by
  have hverdict := verdict_ofLine line
  generalize Contribution.ofLine line = r at hverdict ⊢
  cases hverdict with
  | silent _ => rfl
  | entry hspeaks _ => exact absurd h hspeaks
  | illFormed hspeaks _ => exact absurd h hspeaks

theorem Makes.unique {line : List Char} {c c' : Contribution} (h : Makes line c)
    (h' : Makes line c') : c = c' := by
  have hcategory := h.category_eq.symm.trans h'.category_eq
  have hgender := h.gender_eq.symm.trans h'.gender_eq
  obtain ⟨k, g, w⟩ := c
  obtain ⟨k', g', w'⟩ := c'
  rw [Contribution.mk.injEq]
  exact ⟨Option.some.inj hcategory, Option.some.inj hgender, h.word_eq.trans h'.word_eq.symm⟩

theorem ofLine_of_makes {line : List Char} {c : Contribution} (hspeaks : ¬Silent line)
    (h : Makes line c) : Contribution.ofLine line = .ok (some c) := by
  have hverdict := verdict_ofLine line
  generalize Contribution.ofLine line = r at hverdict ⊢
  cases hverdict with
  | silent hsilent => exact absurd hsilent hspeaks
  | entry _ h' => rw [h.unique h']
  | illFormed _ hfault => exact absurd ⟨c, h⟩ hfault.not_wellFormed

theorem field_zero (line : List Char) :
    field line 0 = String.ofList (Text.trim ((Text.trim line).takeWhile fun c => c ≠ '|')) := by
  have hhead := Text.head?_splitOn '|' (Text.trim line)
  rw [List.head?_eq_getElem?] at hhead
  rw [field, fields, List.getElem?_map, hhead]
  rfl

theorem trim_field_zero (line : List Char) :
    Text.trim (field line 0).toList = (field line 0).toList := by
  rw [field_zero, String.toList_ofList, (Text.trimmed_trim _).trim_eq]

/-- The first field has a character that is no blank, so the word keeps some in its normal form. -/
theorem Makes.normalize_ne {line : List Char} {c : Contribution} (h : Makes line c) :
    normalize c.word ≠ "" := by
  rw [h.word_eq, ne_eq, normalize_eq_empty_iff, trim_field_zero, String.toList_eq_nil_iff]
  exact h.divided.2

/-! ## Listings -/

/-- The lines can be read to the end, and make these entries. -/
inductive Entries : List (List Char) → List Contribution → Prop where
  | nil : Entries [] []
  | silent {line : List Char} {lines : List (List Char)} {cs : List Contribution} :
      Silent line → Entries lines cs → Entries (line :: lines) cs
  | entry {line : List Char} {lines : List (List Char)} {c : Contribution}
      {cs : List Contribution} :
      ¬Silent line → Makes line c → Entries lines cs → Entries (line :: lines) (c :: cs)

namespace Entries

variable {lines : List (List Char)} {cs : List Contribution} (h : Entries lines cs)
include h

theorem silent_or_wellFormed : ∀ line ∈ lines, Silent line ∨ WellFormed line := by
  induction h with
  | nil => exact fun _ hline => absurd hline List.not_mem_nil
  | silent hsilent _ ih => exact List.forall_mem_cons.mpr ⟨.inl hsilent, ih⟩
  | entry _ hmakes _ ih => exact List.forall_mem_cons.mpr ⟨.inr ⟨_, hmakes⟩, ih⟩

theorem length_eq : cs.length = (lines.filter fun line => ¬Silent line).length := by
  induction h with
  | nil => rfl
  | silent hsilent _ ih => rw [ih, List.filter_cons_of_neg (by simpa using hsilent)]
  | entry hspeaks _ _ ih =>
    rw [List.filter_cons_of_pos (by simpa using hspeaks), List.length_cons, List.length_cons, ih]

theorem normalize_ne : ∀ c ∈ cs, normalize c.word ≠ "" := by
  induction h with
  | nil => exact fun _ hc => absurd hc List.not_mem_nil
  | silent _ _ ih => exact ih
  | entry _ hmakes _ ih => exact List.forall_mem_cons.mpr ⟨hmakes.normalize_ne, ih⟩

theorem loadLines_eq (d : Draft) (number : Nat) :
    d.loadLines number lines = (cs.foldl Draft.contribute d, .ok cs.length) := by
  induction h generalizing d number with
  | nil => rfl
  | silent hsilent _ ih =>
    rw [Draft.loadLines_of_none (ofLine_of_silent hsilent), ih]
  | entry hspeaks hmakes _ ih =>
    rw [Draft.loadLines_of_some (ofLine_of_makes hspeaks hmakes), ih, List.foldl_cons,
      List.length_cons, Except.map]

end Entries

/-- How loading lines comes out, of which the first one has the given number. -/
inductive Loading (d : Draft) (number : Nat) (lines : List (List Char)) :
    Draft × Except ListingError Nat → Prop where
  | complete {cs : List Contribution} : Entries lines cs →
      Loading d number lines (cs.foldl Draft.contribute d, .ok cs.length)
  | broken {before after : List (List Char)} {line : List Char} {fault : LineFault}
      {cs : List Contribution} : lines = before ++ line :: after → Entries before cs →
      ¬Silent line → IllFormed line fault →
      Loading d number lines
        (cs.foldl Draft.contribute d, .error ⟨number + before.length, fault⟩)

section Lines

variable {d : Draft} {number : Nat} {line : List Char} {lines : List (List Char)}
  {r : Draft × Except ListingError Nat}

theorem Loading.silent (hsilent : Silent line) (h : Loading d (number + 1) lines r) :
    Loading d number (line :: lines) r := by
  cases h with
  | complete hentries => exact .complete (hentries.silent hsilent)
  | @broken before after bad fault cs hlines hentries hspeaks hfault =>
    have hnumber : number + 1 + before.length = number + (line :: before).length := by
      rw [List.length_cons]; omega
    rw [hnumber]
    exact .broken (congrArg (line :: ·) hlines) (hentries.silent hsilent) hspeaks hfault

theorem Loading.entry {c : Contribution} {d' : Draft} {result : Except ListingError Nat}
    (hspeaks : ¬Silent line) (hmakes : Makes line c)
    (h : Loading (d.contribute c) (number + 1) lines (d', result)) :
    Loading d number (line :: lines) (d', result.map (· + 1)) := by
  cases h with
  | complete hentries =>
    rw [← List.foldl_cons (f := Draft.contribute)]
    exact .complete (hentries.entry hspeaks hmakes)
  | @broken before after bad fault cs hlines hentries hbad hfault =>
    have hnumber : number + 1 + before.length = number + (line :: before).length := by
      rw [List.length_cons]; omega
    rw [← List.foldl_cons (f := Draft.contribute), hnumber]
    exact .broken (congrArg (line :: ·) hlines) (hentries.entry hspeaks hmakes) hbad hfault

end Lines

theorem loading_loadLines (d : Draft) (number : Nat) (lines : List (List Char)) :
    Loading d number lines (d.loadLines number lines) := by
  induction lines generalizing d number with
  | nil => exact .complete .nil
  | cons line lines ih =>
    have hverdict := verdict_ofLine line
    generalize hline : Contribution.ofLine line = verdict at hverdict
    cases hverdict with
    | silent hsilent =>
      rw [Draft.loadLines_of_none hline]
      exact (ih d (number + 1)).silent hsilent
    | @entry c hspeaks hmakes =>
      rw [Draft.loadLines_of_some hline]
      exact .entry hspeaks hmakes (ih (d.contribute c) (number + 1))
    | illFormed hspeaks hfault =>
      rw [Draft.loadLines_of_error hline]
      exact .broken (List.nil_append (line :: lines)).symm .nil hspeaks hfault

/-! ## Texts -/

theorem ofLine_congr {line line' : List Char} (h : Text.trim line = Text.trim line') :
    Contribution.ofLine line = Contribution.ofLine line' := by
  simp only [Contribution.ofLine, h]

theorem loadLines_map {f : List Char → List Char} (hf : ∀ line, Text.trim (f line) = Text.trim line)
    (d : Draft) (number : Nat) (lines rest : List (List Char)) :
    d.loadLines number (lines.map f ++ rest) = d.loadLines number (lines ++ rest) := by
  induction lines generalizing d number with
  | nil => rfl
  | cons line lines ih =>
    simp only [List.map_cons, List.cons_append, Draft.loadLines, ofLine_congr (hf line), ih]

theorem loadLines_append_nil (d : Draft) (number : Nat) (lines : List (List Char)) :
    d.loadLines number (lines ++ [[]]) = d.loadLines number lines := by
  induction lines generalizing d number with
  | nil => rfl
  | cons line lines ih => simp only [List.cons_append, Draft.loadLines, ih]

/-- Splitting the text at its line feeds gives the same as its lines do. -/
theorem load_eq (d : Draft) (text : String) :
    d.load text = d.loadLines 1 (Text.lines text.toList) := by
  obtain ⟨ended, last, hpieces, hlines⟩ := Text.exists_pieces text.toList
  rw [Draft.load, hpieces, hlines, loadLines_map Text.trim_withoutReturn]
  by_cases hlast : last = []
  · rw [hlast, loadLines_append_nil, List.filter_cons_of_neg (by simp), List.filter_nil,
      List.append_nil]
  · rw [List.filter_cons_of_pos (by simpa using hlast), List.filter_nil]

/-- The second draft has the entries of the lines and those of the first one, and nothing else. -/
def Loaded (d : Draft) (lines : List (List Char)) (d' : Draft) : Prop :=
  ∃ cs, Entries lines cs ∧ d' = cs.foldl Draft.contribute d ∧ (∀ c ∈ cs, normalize c.word ≠ "") ∧
    ∀ e, e ∈ d'.entries ↔ e ∈ d.entries ∨ ∃ c ∈ cs, e = c.entry

theorem Entries.loaded {lines : List (List Char)} {cs : List Contribution}
    (h : Entries lines cs) (d : Draft) : Loaded d lines (cs.foldl Draft.contribute d) := by
  refine ⟨cs, h, rfl, h.normalize_ne, fun e => ?_⟩
  rw [Draft.mem_foldl_contribute_iff, mem_contributed_iff]
  refine or_congr_right (exists_congr fun c => and_congr_right fun hc => ?_)
  exact and_iff_right (h.normalize_ne c hc)

end Listing

open Listing

/-- Loading a text succeeds exactly if each of its lines is silent or well formed. It gives the
number of the lines that are not silent, and the draft has got the word of every one of them.
Otherwise the error tells the number of the first line that is ill formed, among all lines, with
what is wrong with it, and the draft is what loading the lines before makes of it. -/
theorem load_outcome (d : Draft) (text : String) :
    let lines := Text.lines text.toList
    let d' := (d.load text).1
    let result := (d.load text).2
    (result.isOk = true ↔ ∀ line ∈ lines, Silent line ∨ WellFormed line) ∧
    (∀ n, result = .ok n →
      n = (lines.filter fun line => ¬Silent line).length ∧ Loaded d lines d') ∧
    ∀ e, result = .error e → ∃ before line after, lines = before ++ line :: after ∧
      e.line = before.length + 1 ∧ ¬Silent line ∧ IllFormed line e.fault ∧
      (∀ l ∈ before, Silent l ∨ WellFormed l) ∧ Loaded d before d' ∧
      d.loadLines 1 before = (d', .ok (before.filter fun l => ¬Silent l).length) := by
  intro lines d' result
  have hloading : Loading d 1 lines (d', result) := by
    have hload : d.loadLines 1 lines = (d', result) := (load_eq d text).symm
    rw [← hload]
    exact loading_loadLines d 1 lines
  clear_value d' result
  cases hloading with
  | complete hentries =>
    refine ⟨iff_of_true rfl hentries.silent_or_wellFormed, ?_, nofun⟩
    rintro n hn
    cases hn
    exact ⟨hentries.length_eq, hentries.loaded d⟩
  | @broken before after line fault cs hlines hentries hspeaks hfault =>
    refine ⟨iff_of_false nofun ?_, nofun, ?_⟩
    · intro h
      rcases h line (by simp [hlines]) with hsilent | hwellFormed
      · exact hspeaks hsilent
      · exact hfault.not_wellFormed hwellFormed
    · rintro e he
      cases he
      refine ⟨before, line, after, hlines, Nat.add_comm 1 _, hspeaks, hfault,
        hentries.silent_or_wellFormed, hentries.loaded d, ?_⟩
      rw [hentries.loadLines_eq, hentries.length_eq]

end Castellano
