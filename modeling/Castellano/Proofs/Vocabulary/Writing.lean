import Castellano.Proofs.Vocabulary.Loading
import Castellano.Proofs.Vocabulary.Precedence

/-!
# Castellano.Proofs.Vocabulary.Writing

Listings that are written and read back. A draft that a listing was loaded into can be written as a
listing again, a line for each word of each list, and loading what was written gives the same lists
(`load_listing`).

Not every draft could be written like this: a word with a bar in it would make a line of too many
fields, and one that begins with `#` a comment. But the words that are read from a listing have
come out of a first field, so they hold no bar and do not begin a comment (`Makes.writable`);
and normalizing leaves that as it is, since no other character is normalized to one of these marks
(`onlyItself_of_mem_marks`).
-/

namespace Castellano

namespace Listing

/-- The characters that divide a listing into lines, fields and comments. -/
def marks : List Char := ['\n', '|', '#']

theorem onlyItself_of_mem_marks {c : Char} (hc : c ∈ marks) : Text.OnlyItself c := by
  have hruns : (marks.all fun c => Text.caseRuns.all fun r => r.spares c.toNat) = true := by
    decide +kernel
  have hvowels : ∀ c ∈ marks, c ∉ ['A', 'E', 'I', 'O', 'U'] := by simp [marks]
  have hspared := List.all_eq_true.mp (List.all_eq_true.mp hruns c hc)
  exact Text.onlyItself_of_spared hspared (hvowels c hc)

/-! ## Words that can be written -/

/-- The word can be written as the first field of a line, and comes back when the line is read. -/
structure Writable (w : String) : Prop where
  normal : normalize w = w
  nonempty : w ≠ ""
  no_newline : '\n' ∉ w.toList
  no_bar : '|' ∉ w.toList
  no_comment : w.toList.head? ≠ some '#'

/-- The line begins with its first field, once the blanks around both are gone. -/
theorem field_zero_prefix (line : List Char) : (field line 0).toList <+: Text.trim line := by
  have hbefore : ((Text.trim line).takeWhile fun c => c ≠ '|') <+: Text.trim line :=
    List.takeWhile_prefix _
  rw [field_zero, String.toList_ofList, List.prefix_iff_eq_take.mp hbefore,
    (Text.trimmed_trim line).trim_take]
  exact (Text.trimRight_prefix_self _).trans (List.take_prefix _ _)

theorem bar_not_mem_field_zero (line : List Char) : '|' ∉ (field line 0).toList := by
  rw [field_zero, String.toList_ofList]
  intro hbar
  have hbefore := List.mem_takeWhile_imp (Text.mem_of_mem_trim hbar)
  simp at hbefore

theorem Makes.writable {line : List Char} {c : Contribution} (hline : '\n' ∉ line)
    (hspeaks : ¬Silent line) (h : Makes line c) : Writable (normalize c.word) := by
  have hbegins : c.word.toList <+: Text.trim line := h.word_eq ▸ field_zero_prefix line
  have hbar : '|' ∉ c.word.toList := h.word_eq ▸ bar_not_mem_field_zero line
  have htrim : Text.trim c.word.toList = c.word.toList := h.word_eq ▸ trim_field_zero line
  -- a mark in the normal form is one in the word, in the same place if it stands first
  have hmem : ∀ m ∈ marks, m ∈ (normalize c.word).toList → m ∈ c.word.toList := by
    intro m hm hin
    rw [toList_normalize] at hin
    have hword := (onlyItself_of_mem_marks hm).mem_trim hin
    rwa [htrim] at hword
  refine ⟨normalize_normalize c.word, h.normalize_ne, ?_, ?_, ?_⟩
  · intro hmark
    exact hline (Text.mem_of_mem_trim (hbegins.subset (hmem '\n' (by decide) hmark)))
  · intro hmark
    exact hbar (hmem '|' (by decide) hmark)
  · intro hmark
    rw [toList_normalize] at hmark
    have hword := (onlyItself_of_mem_marks (by decide)).head?_trim hmark
    rw [htrim] at hword
    obtain ⟨rest, hrest⟩ := List.head?_eq_some_iff.mp hword
    rw [hrest] at hbegins
    obtain ⟨more, hmore⟩ := hbegins
    exact hspeaks (.inr (by rw [← hmore]; rfl))

/-- The words that come out of a listing can be written. -/
theorem Entries.writable {lines : List (List Char)} {cs : List Contribution}
    (h : Entries lines cs) (hlines : ∀ line ∈ lines, '\n' ∉ line) :
    ∀ c ∈ cs, Writable (normalize c.word) := by
  induction h with
  | nil => exact fun _ hc => absurd hc List.not_mem_nil
  | silent _ _ ih => exact ih (List.forall_mem_cons.mp hlines).2
  | entry hspeaks hmakes _ ih =>
    obtain ⟨hline, hlines⟩ := List.forall_mem_cons.mp hlines
    exact List.forall_mem_cons.mpr ⟨hmakes.writable hline hspeaks, ih hlines⟩

/-- A draft that only a listing has contributed to has entries of words that can be written. -/
theorem exists_entries_load (text : String) :
    ∃ cs : List Contribution, (Draft.empty.load text).1 = cs.foldl Draft.contribute Draft.empty ∧
      ∀ c ∈ cs, Writable (normalize c.word) := by
  have hlines : ∀ line ∈ text.toList.splitOn '\n', '\n' ∉ line := fun line hline =>
    Text.not_mem_of_mem_splitOn hline
  have hloading := loading_loadLines Draft.empty 1 (text.toList.splitOn '\n')
  rw [Draft.load]
  generalize Draft.empty.loadLines 1 (text.toList.splitOn '\n') = r at hloading ⊢
  cases hloading with
  | @complete cs hentries => exact ⟨cs, rfl, hentries.writable hlines⟩
  | @broken before after line fault cs hsplit hentries _ _ =>
    refine ⟨cs, rfl, hentries.writable fun l hl => hlines l ?_⟩
    rw [hsplit]
    exact List.mem_append_left _ hl

/-! ## Lines of words -/

/-- The line of a word, without its end. -/
def lineChars (e : WordClass × String) : List Char :=
  e.2.toList ++ '|' :: (e.1.category.text.toList ++ '|' :: e.1.gender.text.toList)

theorem toList_listing (d : Draft) :
    d.listing.toList = (d.byPrecedence.map lineChars).flatMap fun line => line ++ ['\n'] := by
  rw [Draft.listing, String.toList_join, Draft.byPrecedence]
  simp [List.map_flatMap, List.flatMap_assoc, List.flatMap_map, Draft.lineOf, lineChars]

/-- What a line with a word says. -/
def contributionOf (e : WordClass × String) : Contribution :=
  ⟨e.1.category, e.1.gender, e.2⟩

/-- The text is a field as it stands: it has characters, none of them divides a line, and no blanks
stand around it. -/
structure IsField (s : String) : Prop where
  nonempty : s.toList ≠ []
  no_newline : '\n' ∉ s.toList
  no_bar : '|' ∉ s.toList
  trim_eq : Text.trim s.toList = s.toList

theorem isField_category (c : Category) : IsField c.text := by
  cases c <;> constructor <;> decide +kernel

theorem isField_gender (g : Gender) : IsField g.text := by
  cases g <;> constructor <;> decide +kernel

theorem ofName?_category_text (c : Category) : Category.ofName? c.text = some c := by
  cases c <;> decide +kernel

theorem ofName?_gender_text (g : Gender) : Gender.ofName? g.text = some g := by
  cases g <;> decide +kernel

theorem Writable.isField {w : String} (h : Writable w) : IsField w where
  nonempty := mt String.toList_eq_nil_iff.mp h.nonempty
  no_newline := h.no_newline
  no_bar := h.no_bar
  trim_eq := ((isNormalForm_iff w).mpr h.normal).trimmed.trim_eq

section Line

variable {e : WordClass × String} (h : Writable e.2)
include h

theorem newline_not_mem_lineChars : '\n' ∉ lineChars e := by
  have hcategory := (isField_category e.1.category).no_newline
  have hgender := (isField_gender e.1.gender).no_newline
  simp [lineChars, h.no_newline, hcategory, hgender]

theorem trim_lineChars : Text.trim (lineChars e) = lineChars e := by
  have hword := h.isField
  have hgender := isField_gender e.1.gender
  have hline : lineChars e =
      e.2.toList ++ (('|' :: e.1.category.text.toList ++ ['|']) ++ e.1.gender.text.toList) := by
    simp [lineChars]
  refine Text.Trimmed.trim_eq ⟨?_, ?_⟩
  · rw [hline, List.head?_append_of_ne_nil _ hword.nonempty, ← hword.trim_eq]
    exact (Text.trimmed_trim _).first
  · rw [hline, ← List.append_assoc, List.getLast?_append_of_ne_nil _ hgender.nonempty,
      ← hgender.trim_eq]
    exact (Text.trimmed_trim _).last

theorem fields_lineChars :
    fields (lineChars e) = [e.2, e.1.category.text, e.1.gender.text] := by
  have hword := h.isField
  have hcategory := isField_category e.1.category
  have hgender := isField_gender e.1.gender
  rw [fields, trim_lineChars h, lineChars,
    List.splitOn_append_cons_self_of_not_mem hword.no_bar,
    List.splitOn_append_cons_self_of_not_mem hcategory.no_bar,
    List.splitOn_eq_singleton hgender.no_bar]
  simp [hword.trim_eq, hcategory.trim_eq, hgender.trim_eq]

theorem not_silent_lineChars : ¬Silent (lineChars e) := by
  rw [Silent, trim_lineChars h, lineChars, List.head?_append_of_ne_nil _ h.isField.nonempty]
  rintro (hnil | hcomment)
  · simp at hnil
  · exact h.no_comment hcomment

theorem makes_lineChars : Makes (lineChars e) (contributionOf e) := by
  have hfields := fields_lineChars h
  constructor
  · rw [WellDivided, field, hfields]
    exact ⟨.inr rfl, h.nonempty⟩
  · rw [field, hfields]
    rfl
  · rw [field, hfields]
    exact ofName?_category_text e.1.category
  · rw [field, hfields]
    exact ofName?_gender_text e.1.gender

theorem entry_contributionOf : (contributionOf e).entry = e := by
  rw [Contribution.entry, contributionOf, WordClass.of_category_gender, h.normal]

end Line

/-! ## Listings of words -/

section Lines

variable {es : List (WordClass × String)} (h : ∀ e ∈ es, Writable e.2)
include h

theorem entries_lineChars : Entries (es.map lineChars) (es.map contributionOf) := by
  induction es with
  | nil => exact .nil
  | cons e es ih =>
    obtain ⟨he, hes⟩ := List.forall_mem_cons.mp h
    exact .entry (not_silent_lineChars he) (makes_lineChars he) (ih hes)

theorem contributed_map_contributionOf : contributed (es.map contributionOf) = es := by
  have hentries : ∀ e ∈ es, (Contribution.entry ∘ contributionOf) e = id e := fun e he =>
    entry_contributionOf (h e he)
  rw [contributed, List.map_map, List.map_congr_left hentries, List.map_id,
    List.filter_eq_self]
  intro e he
  simpa using (h e he).nonempty

end Lines

theorem load_listing_eq {d : Draft} (h : ∀ e ∈ d.byPrecedence, Writable e.2) :
    Draft.empty.load d.listing =
      ((d.byPrecedence.map contributionOf).foldl Draft.contribute Draft.empty,
        .ok d.byPrecedence.length) := by
  have hlines : ∀ line ∈ d.byPrecedence.map lineChars, '\n' ∉ line := by
    intro line hline
    obtain ⟨e, he, rfl⟩ := List.mem_map.mp hline
    exact newline_not_mem_lineChars (h e he)
  rw [Draft.load, toList_listing, Text.splitOn_flatMap_newline hlines, loadLines_append_nil,
    (entries_lineChars h).loadLines_eq, List.length_map]

end Listing

open Listing

/-- Whatever has been read from a listing can be written and read again. The listing has a line for
each word of each list, and it is read to its end; then every list has the same words in the same
order, and so it makes the same vocabulary. -/
theorem load_listing (text : String) :
    let d := (Draft.empty.load text).1
    let again := Draft.empty.load d.listing
    again.2 = .ok d.build.words.length ∧
    (∀ k, again.1.list k = d.list k) ∧ again.1.build = d.build := by
  intro d again
  obtain ⟨cs, (hd : d = _), hcs⟩ := exists_entries_load text
  have hwritable : ∀ e ∈ d.byPrecedence, Writable e.2 := by
    intro e he
    rw [Vocabulary.mem_byPrecedence_iff, hd, Draft.mem_foldl_contribute_iff] at he
    obtain ⟨c, hc, -, rfl⟩ := mem_contributed_iff.mp (he.resolve_left List.not_mem_nil)
    exact hcs c hc
  have hagain : again = _ := load_listing_eq hwritable
  have hlist : ∀ k, again.1.list k = d.list k := by
    intro k
    have hnodup : (d.list k).Nodup := by
      rw [hd, Draft.list_foldl_contribute]
      exact List.nodup_eraseDups _
    have hcalls : Draft.contributedTo (d.byPrecedence.map contributionOf) k = d.list k := by
      rw [Draft.contributedTo, contributed_map_contributionOf hwritable]
      exact Vocabulary.list_build d k
    rw [hagain, Draft.list_foldl_contribute, hcalls, List.eraseDups_eq_self hnodup]
  refine ⟨?_, hlist, ?_⟩
  · rw [hagain, Vocabulary.words, List.length_map, Draft.build]
  · rw [Draft.build, Draft.build, Draft.byPrecedence, Draft.byPrecedence, funext hlist]

end Castellano
