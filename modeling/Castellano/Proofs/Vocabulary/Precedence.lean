import Castellano.Proofs.Vocabulary.Index
import Mathlib.Data.Finset.Dedup
import Mathlib.Data.Finset.Card
import Mathlib.Data.List.ProdSigma

/-!
# Castellano.Proofs.Vocabulary.Precedence

A vocabulary in terms of what was contributed to it, from whatever source. Every source comes down
to words with a category and a gender (`Source.contributions`). They are filed in normal form, under
the category and, if that has one, the gender (`filed`): each list has what was filed under its key,
once each and in order, and a word has the first of the keys that it was filed under.

Precedence is an order of the keys, by category and then by gender (`Key.Precedes`). The vocabulary
never compares keys. It is built by going through the classes in this order, and a word keeps the
class that it is given first; so looking up a word finds the least class that lists it
(`find?_eq_some_iff_least`). What is filed under a key is what is contributed to the class that has
it, if there is one (`mem_filed_iff`).
-/

namespace Castellano

/-! ## The order of the keys -/

def Category.rank (c : Category) : Nat := all.idxOf c

def Gender.rank (g : Gender) : Nat := all.idxOf g

namespace Key

def all : List Key := Category.all ×ˢ Gender.all

/-- The key comes first by its category, or by its gender within the category. -/
def Precedes (x y : Key) : Prop :=
  x.1.rank < y.1.rank ∨ x.1 = y.1 ∧ x.2.rank < y.2.rank

instance : DecidableRel Precedes := fun x y =>
  inferInstanceAs (Decidable (x.1.rank < y.1.rank ∨ x.1 = y.1 ∧ x.2.rank < y.2.rank))

theorem Precedes.asymm {x y : Key} (h : x.Precedes y) : ¬y.Precedes x := by
  rintro (h' | ⟨heq', h'⟩)
  · rcases h with h | ⟨heq, -⟩
    · omega
    · rw [heq] at h'
      exact Nat.lt_irrefl _ h'
  · rcases h with h | ⟨-, h⟩
    · rw [heq'] at h
      exact Nat.lt_irrefl _ h
    · omega

theorem mem_all (x : Key) : x ∈ all := by
  obtain ⟨c, g⟩ := x
  cases c <;> cases g <;> decide

theorem pairwise_all : all.Pairwise Precedes := by decide

end Key

namespace WordClass

theorem pairwise_all : all.Pairwise fun k j => k.key.Precedes j.key := by decide

/-- Going through classes in order finds the least one that will do. -/
theorem find?_eq_some_iff_least {ks : List WordClass}
    (hks : ks.Pairwise fun k j => k.key.Precedes j.key) {p : WordClass → Bool} {k : WordClass} :
    ks.find? p = some k ↔
      k ∈ ks ∧ p k = true ∧ ∀ j ∈ ks, p j = true → j = k ∨ k.key.Precedes j.key := by
  induction ks with
  | nil => simp
  | cons i ks ih =>
    obtain ⟨hfirst, hrest⟩ := List.pairwise_cons.mp hks
    rw [List.find?_cons]
    cases hi : p i with
    | true =>
      rw [Option.some.injEq]
      constructor
      · rintro rfl
        refine ⟨List.mem_cons_self, hi, fun j hj _ => ?_⟩
        exact (List.mem_cons.mp hj).imp_right (hfirst j)
      · rintro ⟨hk, -, hleast⟩
        rcases List.mem_cons.mp hk with rfl | hk
        · rfl
        · exact (hleast i List.mem_cons_self hi).resolve_right (hfirst k hk).asymm
    | false =>
      have hne : ∀ j, p j = true → j ≠ i := by
        rintro j hj rfl
        rw [hi] at hj; cases hj
      simp only [ih hrest, List.mem_cons]
      constructor
      · rintro ⟨hk, hpk, hleast⟩
        exact ⟨.inr hk, hpk, fun j hj hpj => hleast j (hj.resolve_left (hne j hpj)) hpj⟩
      · rintro ⟨hk, hpk, hleast⟩
        exact ⟨hk.resolve_left (hne k hpk), hpk, fun j hj => hleast j (.inr hj)⟩

theorem filter_all_eq (k : WordClass) : all.filter (fun j => j = k) = [k] := by
  cases k with
  | article g => cases g <;> rfl
  | noun g => cases g <;> rfl
  | _ => rfl

theorem flatMap_filter_category :
    (Category.all.flatMap fun c => all.filter fun k => k.category = c) = all := rfl

theorem flatMap_filter_key :
    (Key.all.flatMap fun x => all.filter fun k => k.key = x) = all := rfl

end WordClass

/-! ## Sources -/

/-- What is contributed to a vocabulary at a time: a word, words of one class, a listing, or a file
with a listing. -/
inductive Source where
  | word (c : Contribution)
  | words (category : Category) (gender : Gender) (words : List String)
  | listing (text : String)
  | file (files : Files) (path : String)

/-- The entries of lines, up to the first line that is ill formed. -/
def Contribution.ofLines : List (List Char) → List Contribution
  | [] => []
  | line :: lines =>
    match ofLine line with
    | .error _ => []
    | .ok c? => c?.toList ++ ofLines lines

def Contribution.ofText (text : String) : List Contribution :=
  ofLines (text.toList.splitOn '\n')

/-- The words of a source with their classes, as they come. -/
def Source.contributions : Source → List Contribution
  | word c => [c]
  | words k g ws => ws.map fun w => ⟨k, g, w⟩
  | listing text => Contribution.ofText text
  | file files path =>
    match files path with
    | .error _ => []
    | .ok text => Contribution.ofText text

namespace Draft

def receive (d : Draft) : Source → Draft
  | .word c => d.add c.category c.gender c.word
  | .words k g ws => d.extend k g ws
  | .listing text => (d.load text).1
  | .file files path => (d.loadFile files path).1

theorem fst_loadLines (d : Draft) (number : Nat) (lines : List (List Char)) :
    (d.loadLines number lines).1 = (Contribution.ofLines lines).foldl contribute d := by
  induction lines generalizing d number with
  | nil => rfl
  | cons line lines ih =>
    rw [Contribution.ofLines]
    cases hline : Contribution.ofLine line with
    | error fault => rw [loadLines_of_error hline, List.foldl_nil]
    | ok c? =>
      cases c? with
      | none => simp only [loadLines_of_none hline, ih, Option.toList_none, List.nil_append]
      | some c =>
        simp only [loadLines_of_some hline, ih, Option.toList_some, List.singleton_append,
          List.foldl_cons]

theorem receive_eq (d : Draft) (s : Source) : d.receive s = s.contributions.foldl contribute d := by
  cases s with
  | word c => rw [receive, Source.contributions, List.foldl_cons, List.foldl_nil, contribute]
  | words k g ws => simp only [receive, extend, Source.contributions, List.foldl_map, contribute]
  | listing text => rw [receive, load, fst_loadLines, Source.contributions, Contribution.ofText]
  | file files path =>
    rw [receive, loadFile, Source.contributions]
    cases files path with
    | error cause => rfl
    | ok text => simp only [load, fst_loadLines, Contribution.ofText]

theorem foldl_receive (d : Draft) (sources : List Source) :
    sources.foldl receive d = (sources.flatMap Source.contributions).foldl contribute d := by
  induction sources generalizing d with
  | nil => rfl
  | cons s sources ih =>
    rw [List.foldl_cons, List.flatMap_cons, List.foldl_append, ih, receive_eq]

theorem Reachable.receive {d : Draft} (h : d.Reachable) (s : Source) : (d.receive s).Reachable := by
  cases s with
  | word c => rw [Draft.receive]; exact h.add c.category c.gender c.word
  | words k g ws => rw [Draft.receive]; exact h.extend k g ws
  | listing text => rw [Draft.receive]; exact h.load text
  | file files path => rw [Draft.receive]; exact h.loadFile files path

/-- The drafts that sources lead to are all there are. -/
theorem reachable_iff (d : Draft) :
    d.Reachable ↔ ∃ sources : List Source, sources.foldl receive empty = d := by
  constructor
  · intro h
    have hadd : ∀ d c g word, (∃ sources : List Source, sources.foldl receive empty = d) →
        ∃ sources : List Source, sources.foldl receive empty = d.add c g word := by
      rintro _ c g word ⟨sources, rfl⟩
      refine ⟨sources ++ [.word ⟨c, g, word⟩], ?_⟩
      rw [List.foldl_append, List.foldl_cons, List.foldl_nil, receive]
    exact h.of_add hadd ⟨[], rfl⟩
  · rintro ⟨sources, rfl⟩
    induction sources using List.reverseRecOn with
    | nil => exact .empty
    | append_singleton sources s ih =>
      rw [List.foldl_append, List.foldl_cons, List.foldl_nil]
      exact ih.receive s

/-! ## Lists -/

theorem list_contribute (d : Draft) (c : Contribution) (k : WordClass) :
    (d.contribute c).list k =
      d.list k ++ if c.entry.2 ≠ "" ∧ c.entry.1 = k ∧ c.entry.2 ∉ d.list k then [c.entry.2]
        else [] := by
  rw [contribute_eq]
  generalize c.entry = e
  obtain ⟨j, w⟩ := e
  rw [enter]
  by_cases hold : w = "" ∨ (j, w) ∈ d.entries
  · rw [if_pos hold, if_neg, List.append_nil]
    rintro ⟨hne, rfl, hnew⟩
    exact hnew ((Vocabulary.mem_list_iff d j w).mpr (hold.resolve_left hne))
  · obtain ⟨hne, hnew⟩ := not_or.mp hold
    rw [if_neg hold]
    by_cases hj : j = k
    · subst hj
      have hnew : w ∉ d.list j := mt (Vocabulary.mem_list_iff d j w).mp hnew
      rw [if_pos ⟨hne, rfl, hnew⟩]
      simp [list]
    · rw [if_neg fun h => hj h.2.1]
      simp [list, hj]

/-- The words that were contributed to a class, as they came. -/
def contributedTo (calls : List Contribution) (k : WordClass) : List String :=
  ((contributed calls).filter fun e => e.1 = k).map Prod.snd

theorem mem_contributedTo_iff {calls : List Contribution} {k : WordClass} {w : String} :
    w ∈ contributedTo calls k ↔ (k, w) ∈ contributed calls := by
  simp [contributedTo]

theorem contributedTo_snoc (calls : List Contribution) (c : Contribution) (k : WordClass) :
    contributedTo (calls ++ [c]) k =
      contributedTo calls k ++ if c.entry.2 ≠ "" ∧ c.entry.1 = k then [c.entry.2] else [] := by
  rw [contributedTo, contributedTo, contributed, contributed, List.map_append, List.filter_append,
    List.filter_append, List.map_append]
  by_cases hne : c.entry.2 = ""
  · simp [hne]
  · by_cases hk : c.entry.1 = k <;> simp [hne, hk]

theorem list_foldl_contribute (calls : List Contribution) (k : WordClass) :
    (calls.foldl contribute empty).list k = (contributedTo calls k).eraseDups := by
  induction calls using List.reverseRecOn with
  | nil => rfl
  | append_singleton calls c ih =>
    rw [List.foldl_append, List.foldl_cons, List.foldl_nil, list_contribute, contributedTo_snoc, ih]
    simp only [List.mem_eraseDups]
    by_cases h : c.entry.2 ≠ "" ∧ c.entry.1 = k
    · rw [if_pos h, List.eraseDups_append_singleton]
      by_cases hold : c.entry.2 ∈ contributedTo calls k <;> simp [h.1, h.2, hold]
    · rw [if_neg h, if_neg fun h' => h ⟨h'.1, h'.2.1⟩, List.append_nil, List.append_nil]

end Draft

namespace Vocabulary

/-! ## Building -/

theorem filter_flatMap_class (p : WordClass → Bool) (ks : List WordClass)
    (f : WordClass → List String) :
    (ks.flatMap fun k => (f k).map (Prod.mk k)).filter (fun e => p e.1) =
      (ks.filter p).flatMap fun k => (f k).map (Prod.mk k) := by
  induction ks with
  | nil => rfl
  | cons k ks ih =>
    rw [List.flatMap_cons, List.filter_append, ih, List.filter_map, List.filter_cons]
    cases hk : p k <;> simp [hk, Function.comp_def]

theorem map_snd_flatMap_class (ks : List WordClass) (f : WordClass → List String) :
    (ks.flatMap fun k => (f k).map (Prod.mk k)).map Prod.snd = ks.flatMap f := by
  simp [List.map_flatMap, Function.comp_def]

/-- The words under all classes of a kind stand class by class. -/
theorem map_snd_filter_build (d : Draft) (p : WordClass → Bool) :
    (d.build.entries.filter fun e => p e.1).map Prod.snd =
      (WordClass.all.filter p).flatMap d.list := by
  rw [Draft.build, Draft.byPrecedence, filter_flatMap_class, map_snd_flatMap_class]

theorem list_build (d : Draft) (k : WordClass) : d.build.list k = d.list k := by
  rw [list, map_snd_filter_build d fun j => j = k, WordClass.filter_all_eq,
    List.flatMap_singleton]

theorem words_build (d : Draft) : d.build.words = WordClass.all.flatMap d.list :=
  map_snd_flatMap_class WordClass.all d.list

theorem words_eq_flatMap_wordsOf (d : Draft) :
    d.build.words = Category.all.flatMap d.build.wordsOf := by
  have hwordsOf : ∀ c, d.build.wordsOf c =
      (WordClass.all.filter fun k => k.category = c).flatMap d.list := fun c =>
    map_snd_filter_build d fun k => k.category = c
  rw [funext hwordsOf, ← List.flatMap_assoc, WordClass.flatMap_filter_category, words_build]

/-- The words that are listed under a key. -/
def under (v : Vocabulary) (x : Key) : List String :=
  (v.entries.filter fun e => e.1.key = x).map Prod.snd

theorem under_key (v : Vocabulary) (k : WordClass) : v.under k.key = v.list k := by
  simp only [under, WordClass.key_inj, list]

theorem under_build (d : Draft) (x : Key) :
    d.build.under x = (WordClass.all.filter fun k => k.key = x).flatMap d.list :=
  map_snd_filter_build d fun k => k.key = x

theorem words_eq_flatMap_under (d : Draft) : d.build.words = Key.all.flatMap d.build.under := by
  rw [funext (under_build d), ← List.flatMap_assoc, WordClass.flatMap_filter_key, words_build]

theorem size_build (d : Draft) : d.build.size = d.build.words.toFinset.card := by
  have hkeys : d.build.size = d.build.words.eraseDups.length := by
    rw [words, ← map_fst_foldl_indexEntry, List.length_map]
    rfl
  rw [hkeys, ← List.toFinset_card_of_nodup (List.nodup_eraseDups d.build.words)]
  congr 1
  ext word
  rw [List.mem_toFinset, List.mem_toFinset, List.mem_eraseDups]

theorem firstClass?_append (entries entries' : List (WordClass × String)) (word : String) :
    firstClass? (entries ++ entries') word =
      (firstClass? entries word).or (firstClass? entries' word) := by
  rw [firstClass?, List.find?_append, Option.map_or]
  rfl

theorem firstClass?_map (k : WordClass) (ws : List String) (word : String) :
    firstClass? (ws.map (Prod.mk k)) word = if word ∈ ws then some k else none := by
  induction ws with
  | nil => rfl
  | cons w ws ih =>
    rw [List.map_cons, firstClass?_cons, ih]
    by_cases hw : w = word
    · rw [if_pos hw, if_pos (hw ▸ List.mem_cons_self)]
    · simp [hw, Ne.symm hw]

theorem firstClass?_flatMap (ks : List WordClass) (f : WordClass → List String) (word : String) :
    firstClass? (ks.flatMap fun k => (f k).map (Prod.mk k)) word =
      ks.find? fun k => word ∈ f k := by
  induction ks with
  | nil => rfl
  | cons k ks ih =>
    rw [List.flatMap_cons, firstClass?_append, firstClass?_map, ih, List.find?_cons]
    by_cases hk : word ∈ f k <;> simp [hk]

/-- A word has the least class that lists it. -/
theorem classOf?_build_eq_some_iff (d : Draft) (word : String) (k : WordClass) :
    d.build.classOf? word = some k ↔
      normalize word ∈ d.list k ∧
        ∀ j, normalize word ∈ d.list j → j = k ∨ k.key.Precedes j.key := by
  rw [classOf?_build, Draft.build, Draft.byPrecedence, firstClass?_flatMap,
    WordClass.find?_eq_some_iff_least WordClass.pairwise_all]
  simp only [WordClass.mem_all, true_and, true_implies, decide_eq_true_eq]

theorem classOf?_build_eq_none_iff (d : Draft) (word : String) :
    d.build.classOf? word = none ↔ ∀ k, normalize word ∉ d.list k := by
  rw [classOf?_build, Draft.build, Draft.byPrecedence, firstClass?_flatMap, List.find?_eq_none]
  simp only [WordClass.mem_all, true_implies, decide_eq_true_eq]

end Vocabulary

/-! ## What was contributed -/

/-- What a word is contributed under. A gender counts only if the category has one. -/
def Contribution.key (c : Contribution) : Key :=
  (c.category, if c.category.gendered then c.gender else .neutral)

/-- The normal words with their keys, as they come. A word without characters counts for nothing. -/
def filed (calls : List Contribution) : List (Key × String) :=
  (calls.map fun c => (c.key, normalize c.word)).filter fun e => e.2 ≠ ""

section Filed

variable (calls : List Contribution)

theorem filed_eq_map : filed calls = (contributed calls).map fun e => (e.1.key, e.2) := by
  have hentry : ∀ c : Contribution, (c.entry.1.key, c.entry.2) = (c.key, normalize c.word) :=
    fun c => Prod.ext (WordClass.key_of c.category c.gender) rfl
  rw [filed, contributed, List.filter_map, List.filter_map, List.map_map]
  exact List.map_congr_left fun c _ => (hentry c).symm

theorem mem_filed_iff {x : Key} {w : String} :
    (x, w) ∈ filed calls ↔ ∃ k, WordClass.key k = x ∧ (k, w) ∈ contributed calls := by
  rw [filed_eq_map, List.mem_map]
  constructor
  · rintro ⟨⟨k, w'⟩, he, heq⟩
    cases heq
    exact ⟨k, rfl, he⟩
  · rintro ⟨k, rfl, he⟩
    exact ⟨(k, w), he, rfl⟩

theorem mem_filed_key_iff {k : WordClass} {w : String} :
    (k.key, w) ∈ filed calls ↔ (k, w) ∈ contributed calls := by
  simp only [mem_filed_iff, WordClass.key_inj, exists_eq_left]

theorem map_snd_filter_filed (k : WordClass) :
    ((filed calls).filter fun e => e.1 = k.key).map Prod.snd = Draft.contributedTo calls k := by
  rw [filed_eq_map, List.filter_map, List.map_map, Draft.contributedTo]
  simp only [Function.comp_def, WordClass.key_inj]

end Filed

namespace Draft

variable (calls : List Contribution)

theorem mem_list_foldl_iff (k : WordClass) (w : String) :
    w ∈ (calls.foldl contribute empty).list k ↔ (k, w) ∈ contributed calls := by
  rw [list_foldl_contribute, List.mem_eraseDups, mem_contributedTo_iff]

theorem under_build_foldl (x : Key) :
    (calls.foldl contribute empty).build.under x =
      (((filed calls).filter fun e => e.1 = x).map Prod.snd).eraseDups := by
  by_cases hx : ∃ k, WordClass.key k = x
  · obtain ⟨k, rfl⟩ := hx
    rw [Vocabulary.under_key, Vocabulary.list_build, list_foldl_contribute, map_snd_filter_filed]
  · -- the key of a category that has no gender together with one
    have hall : WordClass.all.filter (fun k => k.key = x) = [] := by
      refine List.filter_eq_nil_iff.mpr fun k _ hk => ?_
      exact hx ⟨k, of_decide_eq_true hk⟩
    have hfiled : (filed calls).filter (fun e => e.1 = x) = [] := by
      refine List.filter_eq_nil_iff.mpr fun e he hkey => ?_
      obtain ⟨k, hk, -⟩ := (mem_filed_iff calls).mp he
      exact hx ⟨k, hk.trans (of_decide_eq_true hkey)⟩
    rw [Vocabulary.under_build, hall, hfiled]
    rfl

theorem classOf?_build_foldl_iff (q : String) (k : WordClass) :
    (calls.foldl contribute empty).build.classOf? q = some k ↔
      (k, normalize q) ∈ contributed calls ∧
        ∀ j, (j, normalize q) ∈ contributed calls → j = k ∨ k.key.Precedes j.key := by
  rw [Vocabulary.classOf?_build_eq_some_iff]
  simp only [mem_list_foldl_iff]

/-- A word has the least of the keys that it was filed under. -/
theorem key_classOf?_build_foldl_iff (q : String) (x : Key) :
    ((calls.foldl contribute empty).build.classOf? q).map WordClass.key = some x ↔
      (x, normalize q) ∈ filed calls ∧
        ∀ y, (y, normalize q) ∈ filed calls → y = x ∨ x.Precedes y := by
  simp only [Option.map_eq_some_iff, classOf?_build_foldl_iff, mem_filed_iff]
  constructor
  · rintro ⟨k, ⟨hk, hleast⟩, rfl⟩
    refine ⟨⟨k, rfl, hk⟩, ?_⟩
    rintro _ ⟨j, rfl, hj⟩
    exact (hleast j hj).imp_left (congrArg WordClass.key)
  · rintro ⟨⟨k, rfl, hk⟩, hleast⟩
    refine ⟨k, ⟨hk, fun j hj => ?_⟩, rfl⟩
    exact (hleast j.key ⟨j, rfl, hj⟩).imp_left WordClass.key_injective

theorem classOf?_build_foldl_eq_none_iff (q : String) :
    (calls.foldl contribute empty).build.classOf? q = none ↔
      ∀ x, (x, normalize q) ∉ filed calls := by
  rw [Vocabulary.classOf?_build_eq_none_iff]
  simp only [mem_list_foldl_iff]
  constructor
  · intro hnone x hx
    obtain ⟨k, -, hk⟩ := (mem_filed_iff calls).mp hx
    exact hnone k hk
  · intro hnone k hk
    exact hnone k.key ((mem_filed_key_iff calls).mpr hk)

theorem size_build_foldl :
    (calls.foldl contribute empty).build.size = ((filed calls).map Prod.snd).toFinset.card := by
  rw [Vocabulary.size_build]
  congr 1
  ext word
  rw [List.mem_toFinset, Vocabulary.mem_words_build_iff, List.mem_toFinset, filed_eq_map,
    List.map_map, List.mem_map]
  simp only [← Vocabulary.mem_list_iff, mem_list_foldl_iff, Function.comp_apply, Prod.exists,
    exists_eq_right]

end Draft

open Draft in
/-- A vocabulary lists under each key what was filed under it, once each and in the order in which
it came first, and a word has the least of the keys that it was filed under. The distinct words are
counted, and all words are listed key by key, which is category by category. What was filed decides
about classes and counts, in whatever order it came and however often. -/
theorem build_precedence (sources : List Source) :
    let given := filed (sources.flatMap Source.contributions)
    let v := (sources.foldl receive empty).build
    (∀ x, v.under x = ((given.filter fun e => e.1 = x).map Prod.snd).eraseDups) ∧
    (∀ k, v.list k = v.under k.key) ∧
    (∀ q x, (v.classOf? q).map WordClass.key = some x ↔
      (x, normalize q) ∈ given ∧ ∀ y, (y, normalize q) ∈ given → y = x ∨ x.Precedes y) ∧
    (∀ q, v.classOf? q = none ↔ ∀ x, (x, normalize q) ∉ given) ∧
    v.size = (given.map Prod.snd).toFinset.card ∧
    ((∀ x, x ∈ Key.all) ∧ Key.all.Pairwise Key.Precedes ∧ v.words = Key.all.flatMap v.under ∧
      v.words = Category.all.flatMap v.wordsOf) ∧
    ∀ sources' : List Source, let given' := filed (sources'.flatMap Source.contributions)
      let v' := (sources'.foldl receive empty).build
      (∀ e, e ∈ given' ↔ e ∈ given) →
        v'.size = v.size ∧ ∀ q, v'.classOf? q = v.classOf? q ∧ v'.contains q = v.contains q := by
  have hbuild : ∀ sources : List Source, (sources.foldl receive empty).build =
      ((sources.flatMap Source.contributions).foldl contribute empty).build := fun sources => by
    rw [foldl_receive]
  simp only [hbuild]
  generalize sources.flatMap Source.contributions = calls
  refine ⟨under_build_foldl calls, fun k => (Vocabulary.under_key _ k).symm,
    key_classOf?_build_foldl_iff calls, classOf?_build_foldl_eq_none_iff calls,
    size_build_foldl calls, ⟨Key.mem_all, Key.pairwise_all, Vocabulary.words_eq_flatMap_under _,
      Vocabulary.words_eq_flatMap_wordsOf _⟩, ?_⟩
  intro sources' hsame
  generalize sources'.flatMap Source.contributions = calls' at hsame ⊢
  have hclass : ∀ q, (calls'.foldl contribute empty).build.classOf? q =
      (calls.foldl contribute empty).build.classOf? q := by
    intro q
    ext k
    simp only [classOf?_build_foldl_iff, ← mem_filed_key_iff, hsame]
  refine ⟨?_, fun q => ⟨hclass q, ?_⟩⟩
  · rw [size_build_foldl, size_build_foldl]
    congr 1
    ext word
    simp [hsame]
  · rw [Vocabulary.contains, Vocabulary.contains, hclass]

end Castellano
