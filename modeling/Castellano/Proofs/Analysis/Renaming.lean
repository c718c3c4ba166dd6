import Castellano.Analysis
import Castellano.Proofs.Agreement.Compatible
import Castellano.Proofs.Parse.Renaming

/-!
# Castellano.Proofs.Analysis.Renaming

What an analysis owes to the words of a sentence. The structure is found from the categories alone,
so whatever words stand for the given ones, it is the same. Agreement does look at the words, but
only up to their normal form: the words of a tree are read off where they stand, and each is
normalized before it is looked up or reported (`mismatches_rename`). So tokens that hold words as
they were written and tokens that hold normal forms lead to the same findings.
-/

namespace Castellano

/-! ## Trees with other words -/

namespace Tree

variable (f : String → String)

theorem symbol_rename (t : Tree) : (t.rename f).symbol = t.symbol := by
  cases t; rfl

theorem value_rename (t : Tree) : (t.rename f).value = t.value.map f := by
  cases t; rfl

theorem renameAll_eq_map (ts : List Tree) : renameAll f ts = ts.map (rename f) := by
  induction ts with
  | nil => rfl
  | cons t ts ih => rw [renameAll, ih, List.map_cons]

theorem child?_rename (t : Tree) (s : NonTerminal) :
    (t.rename f).child? s = (t.child? s).map (rename f) := by
  obtain ⟨s', v, ts⟩ := t
  simp only [rename, renameAll_eq_map, child?, children, List.find?_map, Function.comp_def,
    symbol_rename]

theorem childWord_rename (t : Tree) (s : NonTerminal) :
    ((t.rename f).child? s).bind value = ((t.child? s).bind value).map f := by
  rw [child?_rename]
  cases t.child? s with
  | none => rfl
  | some u => exact value_rename f u

end Tree

/-! ## Agreement of normal forms -/

namespace Vocabulary

variable (v : Vocabulary)

theorem mismatch?_normalize (determiner noun : String) :
    v.mismatch? (normalize determiner) (normalize noun) = v.mismatch? determiner noun := by
  simp only [mismatch?, agrees_normalize, normalize_normalize, determinerGender_normalize,
    nounGender_normalize]

theorem nodeMismatch?_rename (t : Tree) :
    v.nodeMismatch? (t.rename normalize) = v.nodeMismatch? t := by
  rw [nodeMismatch?, nodeMismatch?, Tree.symbol_rename, Tree.childWord_rename,
    Tree.childWord_rename]
  cases (t.child? .determiner).bind Tree.value with
  | none => rfl
  | some determiner =>
    cases (t.child? .noun).bind Tree.value with
    | none => rfl
    | some noun => simp only [Option.map_some, mismatch?_normalize]

mutual

/-- The mismatches of a tree are those of the tree with normal forms. -/
theorem mismatches_rename (t : Tree) : v.mismatches (t.rename normalize) = v.mismatches t := by
  match t with
  | .node s value ts =>
    have hnode := v.nodeMismatch?_rename (.node s value ts)
    rw [Tree.rename] at hnode ⊢
    rw [mismatches, hnode, mismatchesAll_rename ts, mismatches]

theorem mismatchesAll_rename (ts : List Tree) :
    v.mismatchesAll (Tree.renameAll normalize ts) = v.mismatchesAll ts := by
  match ts with
  | [] => rfl
  | t :: ts =>
    rw [Tree.renameAll, mismatchesAll, mismatches_rename t, mismatchesAll_rename ts, mismatchesAll]

end

end Vocabulary

/-! ## Analysis -/

theorem Analyzer.mismatches_rename (a : Analyzer) (r : Parse.Result) :
    a.mismatches (r.rename normalize) = a.mismatches r := by
  obtain ⟨valid, tree?, faults⟩ := r
  cases tree? with
  | none => rfl
  | some tree =>
    simp only [mismatches, Parse.Result.rename, Option.map_some, Vocabulary.mismatches_rename]

/-- Replacing the words of a sentence replaces them in its tree and in its faults and does nothing
else: the structure that is found is the same, and so is the verdict on it. If every word is
replaced by its normal form, the analysis finds the sentence valid as before and reports the same
mismatches. -/
theorem renaming_keeps_structure (ts : List Token) :
    (∀ f : String → String,
      parse (ts.map (Token.rename f)) = (parse ts).rename f ∧
      (parse (ts.map (Token.rename f))).valid = (parse ts).valid) ∧
    ∀ a : Analyzer,
      let r := a.analyzeTokens (ts.map (Token.rename normalize))
      r.valid = (a.analyzeTokens ts).valid ∧
      r.mismatches = (a.analyzeTokens ts).mismatches := by
  have hvalid : ∀ f, (parse (ts.map (Token.rename f))).valid = (parse ts).valid := by
    intro f
    rw [parse_rename]
    rfl
  refine ⟨fun f => ⟨parse_rename f ts, hvalid f⟩, fun a => ?_⟩
  intro r
  have hmismatches : r.mismatches = (a.analyzeTokens ts).mismatches := by
    calc r.mismatches
        = a.mismatches ((parse ts).rename normalize) := by rw [← parse_rename]; rfl
      _ = a.mismatches (parse ts) := a.mismatches_rename (parse ts)
      _ = (a.analyzeTokens ts).mismatches := rfl
  refine ⟨?_, hmismatches⟩
  rw [Report.valid, Report.valid, hmismatches]
  exact congrArg (· && _) (hvalid normalize)

end Castellano
