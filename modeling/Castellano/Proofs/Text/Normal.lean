import Castellano.Proofs.Text.Capital
import Mathlib.Data.List.DropRight

/-!
# Castellano.Proofs.Text.Normal

Words in normal form. Normalizing such a word changes nothing (`normalize_normalize`), so a word
can be normalized before it is stored, when it is looked up, or both.

Two facts carry this: the characters of a normal form are settled one by one, and no blank stands
at its ends, since the characters at the ends come from characters that are no blanks. The words of
which both are true are just the normal forms (`isNormalForm_iff`).
-/

namespace Castellano
namespace Text

/-! ## Accents -/

theorem unaccented_cases (c : Char) :
    unaccented c = c ∨ isBlank c = false ∧ unaccented c ∈ ['A', 'E', 'I', 'O', 'U'] := by
  unfold unaccented
  split <;> simp [isBlank, blankRanges]

theorem capital_vowel {c : Char} (h : c ∈ ['A', 'E', 'I', 'O', 'U']) :
    capital c = [c] ∧ unaccented c = c ∧ isBlank c = false := by
  simp only [List.mem_cons, List.not_mem_nil, or_false] at h
  rcases h with rfl | rfl | rfl | rfl | rfl <;> decide

theorem unaccented_unaccented (c : Char) : unaccented (unaccented c) = unaccented c := by
  rcases unaccented_cases c with h | ⟨-, h⟩
  · rw [h, h]
  · exact (capital_vowel h).2.1

theorem isBlank_unaccented (c : Char) : isBlank (unaccented c) = isBlank c := by
  rcases unaccented_cases c with h | ⟨hc, h⟩
  · rw [h]
  · rw [(capital_vowel h).2.2, hc]

theorem capital_unaccented {c : Char} (h : capital c = [c]) :
    capital (unaccented c) = [unaccented c] := by
  rcases unaccented_cases c with hc | ⟨-, hc⟩
  · rw [hc, h]
  · exact (capital_vowel hc).1

/-- The vowels that have an accent to take off. -/
def accentedVowels : List Char :=
  ['Á', 'À', 'Â', 'Ä', 'É', 'È', 'Ê', 'Ë', 'Í', 'Ì', 'Î', 'Ï', 'Ó', 'Ò', 'Ô', 'Ö',
    'Ú', 'Ù', 'Û', 'Ü']

theorem unaccented_eq_self_iff (c : Char) : unaccented c = c ↔ c ∉ accentedVowels := by
  unfold unaccented
  split <;> simp_all [accentedVowels]

/-- The characters of normal forms. -/
structure NormalChar (c : Char) : Prop where
  capital_eq : capital c = [c]
  unaccented_eq : unaccented c = c

/-! ## Blanks at the ends -/

/-- The text neither begins nor ends with a blank. -/
structure Trimmed (cs : List Char) : Prop where
  first : ∀ c ∈ cs.head?, isBlank c = false
  last : ∀ c ∈ cs.getLast?, isBlank c = false

theorem trim_eq (cs : List Char) : trim cs = (cs.dropWhile isBlank).rdropWhile isBlank := rfl

theorem trimmed_trim (cs : List Char) : Trimmed (trim cs) := by
  rw [trim_eq]
  constructor
  · intro c hc
    obtain ⟨ds, hds⟩ := List.rdropWhile_prefix isBlank (cs.dropWhile isBlank)
    have hhead := List.head?_dropWhile_not isBlank cs
    rw [← hds, List.head?_append, Option.mem_def.mp hc] at hhead
    exact hhead
  · intro c hc
    have hne : (cs.dropWhile isBlank).rdropWhile isBlank ≠ [] := by
      intro h; rw [h] at hc; cases hc
    have hlast := List.rdropWhile_last_not isBlank (cs.dropWhile isBlank) hne
    rw [Option.mem_def, List.getLast?_eq_some_getLast hne, Option.some.injEq] at hc
    rw [← hc]; simpa using hlast

theorem mem_of_mem_trim {c : Char} {cs : List Char} (h : c ∈ trim cs) : c ∈ cs := by
  rw [trim_eq] at h
  exact (List.dropWhile_sublist _).subset ((List.rdropWhile_prefix _ _).subset h)

theorem Trimmed.trim_eq {cs : List Char} (h : Trimmed cs) : trim cs = cs := by
  rw [Text.trim_eq]
  have hfirst : cs.dropWhile isBlank = cs := by
    cases cs with
    | nil => rfl
    | cons c cs => rw [List.dropWhile_cons, h.first c rfl]; rfl
  rw [hfirst, List.rdropWhile_eq_self_iff]
  intro hne
  rw [h.last _ (List.getLast?_eq_getLast_of_ne_nil hne)]
  simp

theorem head?_flatMap_capital {cs : List Char} {d : Char} (h : d ∈ (cs.flatMap capital).head?) :
    ∃ c ∈ cs.head?, d ∈ capital c := by
  cases cs with
  | nil => cases h
  | cons c cs =>
    rw [List.flatMap_cons, List.head?_append_of_ne_nil _ (capital_ne_nil c)] at h
    exact ⟨c, rfl, List.mem_of_mem_head? h⟩

theorem getLast?_flatMap_capital {cs : List Char} {d : Char}
    (h : d ∈ (cs.flatMap capital).getLast?) : ∃ c ∈ cs.getLast?, d ∈ capital c := by
  rcases List.eq_nil_or_concat cs with rfl | ⟨cs, c, rfl⟩
  · cases h
  · rw [List.concat_eq_append, List.flatMap_append, List.flatMap_singleton,
      List.getLast?_append_of_ne_nil _ (capital_ne_nil c)] at h
    exact ⟨c, by simp, List.mem_of_mem_getLast? h⟩

theorem isBlank_unaccented_of_mem {c d : Char} (hc : isBlank c = false) (hd : d ∈ capital c) :
    isBlank (unaccented d) = false := by
  rw [isBlank_unaccented, Bool.eq_false_iff]
  intro hblank
  rw [isBlank_of_mem_capital hd hblank] at hc; cases hc

/-- The characters at the ends of a capital form come from those at the ends of the text. -/
theorem Trimmed.flatMap {cs : List Char} (h : Trimmed cs) :
    Trimmed ((cs.flatMap capital).map unaccented) := by
  constructor
  · intro c hc
    rw [List.head?_map] at hc
    obtain ⟨d, hd, rfl⟩ := Option.map_eq_some_iff.mp hc
    obtain ⟨b, hb, hdb⟩ := head?_flatMap_capital hd
    exact isBlank_unaccented_of_mem (h.first b hb) hdb
  · intro c hc
    rw [List.getLast?_map] at hc
    obtain ⟨d, hd, rfl⟩ := Option.map_eq_some_iff.mp hc
    obtain ⟨b, hb, hdb⟩ := getLast?_flatMap_capital hd
    exact isBlank_unaccented_of_mem (h.last b hb) hdb

/-! ## Normal forms -/

theorem trimmed_normalChars (cs : List Char) : Trimmed (normalChars cs) :=
  (trimmed_trim cs).flatMap

theorem normalChar_of_mem {c : Char} {cs : List Char} (h : c ∈ normalChars cs) : NormalChar c := by
  obtain ⟨d, hd, rfl⟩ := List.mem_map.mp h
  obtain ⟨b, -, hb⟩ := List.mem_flatMap.mp hd
  exact ⟨capital_unaccented (capital_of_mem_capital hb), unaccented_unaccented d⟩

theorem flatMap_eq_self {cs : List Char} (h : ∀ c ∈ cs, NormalChar c) :
    (cs.flatMap capital).map unaccented = cs := by
  induction cs with
  | nil => rfl
  | cons c cs ih =>
    have hc := h c List.mem_cons_self
    have hcs := ih fun d hd => h d (List.mem_cons_of_mem c hd)
    rw [List.flatMap_cons, hc.capital_eq, List.map_append, hcs, List.map_singleton,
      hc.unaccented_eq, List.singleton_append]

theorem normalChars_normalChars (cs : List Char) :
    normalChars (normalChars cs) = normalChars cs := by
  have hchars : ∀ c ∈ normalChars cs, NormalChar c := fun c => normalChar_of_mem
  rw [normalChars, (trimmed_normalChars cs).trim_eq, flatMap_eq_self hchars]

/-! ## Characters that nothing else is normalized to -/

/-- No other character has this one in its normal form. -/
def OnlyItself (d : Char) : Prop := ∀ c, d ∈ (capital c).map unaccented → c = d

theorem onlyItself_of_spared {d : Char} (hruns : ∀ r ∈ caseRuns, r.spares d.toNat = true)
    (hvowel : d ∉ ['A', 'E', 'I', 'O', 'U']) : OnlyItself d := by
  intro c hd
  obtain ⟨b, hb, rfl⟩ := List.mem_map.mp hd
  rcases unaccented_cases b with h | ⟨-, h⟩
  · rw [h] at hruns ⊢
    exact eq_of_mem_capital hruns hb
  · exact absurd h hvowel

theorem normalChars_eq_flatMap (cs : List Char) :
    normalChars cs = (trim cs).flatMap fun c => (capital c).map unaccented := by
  rw [normalChars, List.map_flatMap]

theorem OnlyItself.mem_trim {d : Char} (hd : OnlyItself d) {cs : List Char}
    (h : d ∈ normalChars cs) : d ∈ trim cs := by
  rw [normalChars_eq_flatMap] at h
  obtain ⟨c, hc, hdc⟩ := List.mem_flatMap.mp h
  rwa [hd c hdc] at hc

theorem OnlyItself.head?_trim {d : Char} (hd : OnlyItself d) {cs : List Char}
    (h : (normalChars cs).head? = some d) : (trim cs).head? = some d := by
  rw [normalChars, List.head?_map] at h
  obtain ⟨b, hb, rfl⟩ := Option.map_eq_some_iff.mp h
  obtain ⟨c, hc, hbc⟩ := head?_flatMap_capital hb
  rw [Option.mem_def.mp hc, hd c (List.mem_map_of_mem hbc)]

/-! ## Beginnings of normal forms -/

theorem trimRight_prefix_self (cs : List Char) : trimRight cs <+: cs :=
  List.rdropWhile_prefix isBlank cs

theorem trimRight_eq_self {cs : List Char} (h : ∀ c ∈ cs.getLast?, isBlank c = false) :
    trimRight cs = cs := by
  have hlast : ∀ hne : cs ≠ [], ¬isBlank (cs.getLast hne) = true := by
    intro hne
    rw [h _ (List.getLast?_eq_getLast_of_ne_nil hne)]
    exact Bool.false_ne_true
  exact List.rdropWhile_eq_self_iff.mpr hlast

/-- A text that does not begin with a blank can be cut so that it ends with one, but not so that it
begins with one. -/
theorem Trimmed.trim_take {cs : List Char} (h : Trimmed cs) (k : Nat) :
    trim (cs.take k) = trimRight (cs.take k) := by
  have hleft : trimLeft (cs.take k) = cs.take k := by
    cases cs with
    | nil => rw [List.take_nil]; rfl
    | cons c cs =>
      cases k with
      | zero => rfl
      | succ k => rw [List.take_succ_cons, trimLeft, List.dropWhile_cons, h.first c rfl]; rfl
  rw [trim, hleft]

/-- Of a beginning of a normal form, only blanks at the end get lost. -/
theorem normalChars_take {cs : List Char} (h : normalChars cs = cs) (k : Nat) :
    normalChars (cs.take k) = trimRight (cs.take k) := by
  have htrimmed : Trimmed cs := h ▸ trimmed_normalChars cs
  have hchars : ∀ c ∈ trimRight (cs.take k), NormalChar c := by
    intro c hc
    have htake : c ∈ cs.take k := (trimRight_prefix_self _).subset hc
    have hin : c ∈ normalChars cs := h.symm ▸ List.mem_of_mem_take htake
    exact normalChar_of_mem hin
  rw [normalChars, htrimmed.trim_take, flatMap_eq_self hchars]

end Text

theorem normalize_normalize (word : String) : normalize (normalize word) = normalize word := by
  rw [normalize, normalize, String.toList_ofList, Text.normalChars_normalChars]

/-- A word without characters comes only of blanks. -/
theorem normalize_eq_empty_iff (word : String) :
    normalize word = "" ↔ Text.trim word.toList = [] := by
  rw [normalize, String.ofList_eq_empty_iff, Text.normalChars, List.map_eq_nil_iff,
    List.flatMap_eq_nil_iff]
  constructor
  · intro h
    exact List.eq_nil_iff_forall_not_mem.mpr fun c hc => Text.capital_ne_nil c (h c hc)
  · intro h c hc
    rw [h] at hc; cases hc

theorem toList_normalize (word : String) :
    (normalize word).toList = Text.normalChars word.toList := by
  rw [normalize, String.toList_ofList]

/-- A word in normal form, told by its characters: no blanks at the ends, and only capitals
without accents. -/
structure IsNormalForm (word : String) : Prop where
  trimmed : Text.Trimmed word.toList
  capital_eq : ∀ c ∈ word.toList, Text.capital c = [c]
  not_accented : ∀ c ∈ word.toList, c ∉ Text.accentedVowels

theorem isNormalForm_normalize (word : String) : IsNormalForm (normalize word) := by
  have hchars : ∀ c ∈ (normalize word).toList, Text.NormalChar c := by
    intro c hc
    rw [toList_normalize] at hc
    exact Text.normalChar_of_mem hc
  refine ⟨?_, fun c hc => (hchars c hc).capital_eq, fun c hc => ?_⟩
  · rw [toList_normalize]
    exact Text.trimmed_normalChars word.toList
  · exact (Text.unaccented_eq_self_iff c).mp (hchars c hc).unaccented_eq

theorem IsNormalForm.normalize_eq {word : String} (h : IsNormalForm word) :
    normalize word = word := by
  have hchars : ∀ c ∈ word.toList, Text.NormalChar c := by
    intro c hc
    exact ⟨h.capital_eq c hc, (Text.unaccented_eq_self_iff c).mpr (h.not_accented c hc)⟩
  rw [normalize, Text.normalChars, h.trimmed.trim_eq, Text.flatMap_eq_self hchars,
    String.ofList_toList]

theorem isNormalForm_iff (word : String) : IsNormalForm word ↔ normalize word = word := by
  constructor
  · intro h
    exact h.normalize_eq
  · intro h
    rw [← h]
    exact isNormalForm_normalize word

end Castellano
