import Castellano.CommandLine.Program
import Castellano.Proofs.Analysis.Setup
import Castellano.Proofs.Analysis.Validity
import Castellano.Proofs.Composition.Run

/-!
# Castellano.Proofs.CommandLine.ExitCode

What the exit code of the program tells. It is 2 exactly if no analyzer can be made. Otherwise it
tells whether the input is accepted, and each command has its own condition for that (`Accepts`),
in terms of the vocabulary, the grammar and the composition alone.

Once there is an analyzer, the only thing that can go wrong is a word that the vocabulary does not
have (`Judged`).
-/

namespace Castellano
namespace CommandLine

/-! ## Commands -/

/-- The words are a sentence, and its articles agree with their nouns if that counts. -/
def WellFormed (v : Vocabulary) (checksAgreement : Bool) (ts : List Token) : Prop :=
  Grammar.IsSentence ts ∧ (checksAgreement = true → v.AgreesThroughout ts)

/-- No word is refused in a composition, and at least one sentence is completed. -/
def Composable (v : Vocabulary) (ts : List Token) : Prop :=
  let acts := ts.map Composition.Act.ofToken
  (∀ e ∈ Composition.history v .start acts, e.refused = false) ∧
    0 < (Composition.run v .start acts).completed

/-- What a command takes to accept its input. -/
def Accepts (v : Vocabulary) (checksAgreement : Bool) : Command → Prop
  | .recognize word => v.contains word = true
  | .begins text =>
    normalize text = "" ∨ ∃ word ∈ v.words, (normalize text).toList <+: word.toList
  | .classify words => ∀ word ∈ words, v.contains word = true
  | .parse words =>
    (∀ word ∈ words, v.contains word = true) ∧
      WellFormed v checksAgreement (words.filterMap v.tokenOf?)
  | .sequence words =>
    (∀ word ∈ words, v.contains word = true) ∧ Composable v (words.filterMap v.tokenOf?)
  | .agreement determiner noun => v.agrees determiner noun = true
  | .stats => True

/-- What an answer comes to, if the input is to be accepted under the given condition. -/
inductive Judged (P : Prop) : Except Failure Answer → Prop where
  | answered {a : Answer} : (a.accepted = true ↔ P) → Judged P (.ok a)
  | unknown {word : String} {position : Nat} :
      ¬P → Judged P (.error (.unknownWord word position))

theorem offer_fst (v : Vocabulary) (c : Composition) (ts : List Token) :
    (offer v c ts).1 = Composition.run v c (ts.map .ofToken) := by
  induction ts generalizing c with
  | nil => rfl
  | cons t ts ih => exact ih _

theorem all_accepted_offer_iff (v : Vocabulary) (c : Composition) (ts : List Token) :
    ((offer v c ts).2.all fun o => o.reply.accepted) = true ↔
      ∀ e ∈ Composition.history v c (ts.map .ofToken), e.refused = false := by
  induction ts generalizing c with
  | nil => simp [offer, Composition.history]
  | cons t ts ih =>
    rw [List.map_cons, Composition.history, List.forall_mem_cons, offer, List.all_cons,
      Bool.and_eq_true, ih]
    simp [Composition.perform, Composition.Act.ofToken, Composition.Event.refused]

theorem accepted_offer_iff (v : Vocabulary) (ts : List Token) :
    ((offer v .start ts).2.all (fun o => o.reply.accepted) &&
        decide (0 < (offer v .start ts).1.completed)) = true ↔ Composable v ts := by
  rw [Bool.and_eq_true, all_accepted_offer_iff, offer_fst, decide_eq_true_iff, Composable]

section Sound

variable {a : Analyzer} (ha : a.Sound)
include ha

theorem accepted_recognize_iff (word : String) :
    (recognize a word).accepted = true ↔ a.vocabulary.contains word = true := by
  simp only [recognize, ha.agrees.accepted_eq]

theorem accepted_begins_iff (text : String) :
    (begins a text).accepted = true ↔ normalize text = "" ∨
      ∃ word ∈ a.vocabulary.words, (normalize text).toList <+: word.toList := by
  simp only [begins, ha.knows.valid_begins_iff]

theorem accepted_classify_iff (words : List String) :
    (classify a words).accepted = true ↔ ∀ word ∈ words, a.vocabulary.contains word = true := by
  simp [classify, Automaton.classify, ha.knows.vocabulary_eq, Vocabulary.isSome_categoryOf?]

theorem judged_parse (words : List String) :
    Judged (Accepts a.vocabulary a.checksAgreement (.parse words)) (parse a words) := by
  have hwords := (Analyzer.tokenized_tokenize ha.agrees words).classified_all
  rw [parse, Analyzer.analyze]
  generalize a.tokenize words = outcome at hwords ⊢
  cases hwords with
  | known hall =>
    exact .answered ((a.valid_analyzeTokens_iff _).trans (and_iff_right hall).symm)
  | unknown hnot => exact .unknown fun h => hnot h.1

theorem judged_sequence (words : List String) :
    Judged (Accepts a.vocabulary a.checksAgreement (.sequence words)) (sequence a words) := by
  have hwords := (Analyzer.tokenized_tokenize ha.agrees words).classified_all
  rw [sequence]
  generalize a.tokenize words = outcome at hwords ⊢
  cases hwords with
  | known hall =>
    exact .answered ((accepted_offer_iff _ _).trans (and_iff_right hall).symm)
  | unknown hnot => exact .unknown fun h => hnot h.1

theorem judged_answer (command : Command) :
    Judged (Accepts a.vocabulary a.checksAgreement command) (answer a command) := by
  cases command with
  | recognize word => exact .answered (accepted_recognize_iff ha word)
  | begins text => exact .answered (accepted_begins_iff ha text)
  | classify words => exact .answered (accepted_classify_iff ha words)
  | parse words => exact judged_parse ha words
  | sequence words => exact judged_sequence ha words
  | agreement determiner noun => exact .answered Iff.rfl
  | stats => exact .answered (iff_of_true rfl trivial)

end Sound

/-! ## The program -/

def answerCode : Except Failure Answer → Nat
  | .error failure => (answerFailed failure).exitCode
  | .ok a => if a.accepted then 0 else 1

theorem Judged.answerCode_eq {P : Prop} {outcome : Except Failure Answer}
    (h : Judged P outcome) : answerCode outcome = 0 ∧ P ∨ answerCode outcome = 1 ∧ ¬P := by
  cases h with
  | @answered a haccepted =>
    by_cases hP : P
    · exact .inl ⟨if_pos (haccepted.mpr hP), hP⟩
    · exact .inr ⟨if_neg (mt haccepted.mp hP), hP⟩
  | unknown hnot => exact .inr ⟨rfl, hnot⟩

/-- The exit code goes by the settings and the command, not by the format. -/
theorem exitCode_run_eq (files : Files) (invocation : Invocation) :
    (run files invocation).exitCode =
      match Analyzer.ofSettings files invocation.settings with
      | .error _ => 2
      | .ok a => answerCode (answer a invocation.command) := by
  rw [run]
  cases Analyzer.ofSettings files invocation.settings with
  | error failure => rfl
  | ok a =>
    simp only
    cases answer a invocation.command <;> rfl

/-- The exit code is 2 exactly if the language is unknown or the file cannot be loaded. Otherwise it
is 0 or 1, and 0 exactly if the command accepts its input. The format makes no difference. -/
theorem exitCode_run (files : Files) (invocation : Invocation) :
    let s := invocation.settings
    let code := (run files invocation).exitCode
    (code = 2 ↔ Language.ofName? s.language = none ∨
      ∃ path, s.vocabularyFile = some path ∧ ¬Loadable files path) ∧
    (code ≠ 2 → (code = 0 ∨ code = 1) ∧
      ∃ language, Language.ofName? s.language = some language ∧
        let v := (language.extended files s.vocabularyFile).build
        (code = 0 ↔ Accepts v s.checksAgreement invocation.command)) ∧
    ∀ format, (run files { invocation with format }).exitCode = code := by
  intro s code
  have hcode : code = _ := exitCode_run_eq files invocation
  have hformat : ∀ format, (run files { invocation with format }).exitCode = code := by
    intro format
    simp only [code, exitCode_run_eq]
  have hsetup := setup_ofSettings files s
  generalize Analyzer.ofSettings files s = analyzer at hcode hsetup
  cases hsetup with
  | failed hfails =>
    exact ⟨iff_of_true hcode hfails, fun hne => absurd hcode hne, hformat⟩
  | @ready language hready hlanguage =>
    have hsound := Analyzer.sound_ofDraft (language.reachable_extended files s.vocabularyFile)
      s.checksAgreement
    have hjudged := (judged_answer hsound invocation.command).answerCode_eq
    simp only at hcode
    rw [← hcode] at hjudged
    rcases hjudged with ⟨hzero, haccepts⟩ | ⟨hone, hrejects⟩
    · refine ⟨iff_of_false (by omega) hready, fun _ => ⟨.inl hzero, ?_⟩, hformat⟩
      exact ⟨language, hlanguage, iff_of_true hzero haccepts⟩
    · refine ⟨iff_of_false (by omega) hready, fun _ => ⟨.inr hone, ?_⟩, hformat⟩
      exact ⟨language, hlanguage, iff_of_false (by omega) hrejects⟩

end CommandLine
end Castellano
