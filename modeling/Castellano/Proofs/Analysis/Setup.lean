import Castellano.Proofs.Analysis.Tokens
import Castellano.Proofs.ForStd

/-!
# Castellano.Proofs.Analysis.Setup

Making an analyzer from settings. There are two ways for it to fail, an unknown language and a file
that cannot be loaded (`SetupFails`), and there is no third one (`setup_ofSettings`). An analyzer
that is made classifies words by its vocabulary and has their beginnings (`Analyzer.Sound`).
-/

namespace Castellano

/-! ## Files -/

theorem Draft.isOk_loadLines (d : Draft) (number : Nat) (lines : List (List Char)) :
    (d.loadLines number lines).2.isOk = lines.all fun line => (Contribution.ofLine line).isOk := by
  induction lines generalizing d number with
  | nil => rfl
  | cons line lines ih =>
    rw [loadLines, List.all_cons]
    cases Contribution.ofLine line with
    | error fault => rfl
    | ok c? =>
      cases c? with
      | none => exact ih d (number + 1)
      | some c => exact (Except.isOk_map _ _).trans (ih (d.contribute c) (number + 1))

/-- The file at a path can be read, and all of its lines are well formed. -/
def Loadable (files : Files) (path : String) : Prop :=
  ∃ text, files path = .ok text ∧
    ∀ line ∈ text.toList.splitOn '\n', (Contribution.ofLine line).isOk = true

theorem Draft.isOk_loadFile_iff (d : Draft) (files : Files) (path : String) :
    (d.loadFile files path).2.isOk = true ↔ Loadable files path := by
  rw [loadFile, Loadable]
  cases files path with
  | error cause => simp [Except.isOk, Except.toBool]
  | ok text =>
    simp only [Except.isOk_mapError, load, isOk_loadLines, List.all_eq_true, Except.ok.injEq,
      exists_eq_left']

/-! ## Analyzers -/

/-- The words of a language, with those of a file if there is one. -/
def Language.extended (files : Files) (language : Language) : Option String → Draft
  | none => language.draft
  | some path => (language.draft.loadFile files path).1

/-- The language is unknown, or the file cannot be loaded. -/
def SetupFails (files : Files) (s : Settings) : Prop :=
  Language.ofName? s.language = none ∨
    ∃ path, s.vocabularyFile = some path ∧ ¬Loadable files path

def Analyzer.ofDraft (d : Draft) (checksAgreement : Bool) : Analyzer :=
  { ofVocabulary d.build with checksAgreement := checksAgreement }

/-- What making an analyzer comes to. -/
inductive Setup (files : Files) (s : Settings) : Except Failure Analyzer → Prop where
  | ready {language : Language} :
      ¬SetupFails files s → Language.ofName? s.language = some language →
      Setup files s
        (.ok (.ofDraft (language.extended files s.vocabularyFile) s.checksAgreement))
  | failed {failure : Failure} : SetupFails files s → Setup files s (.error failure)

theorem setup_ofSettings (files : Files) (s : Settings) :
    Setup files s (Analyzer.ofSettings files s) := by
  rw [Analyzer.ofSettings]
  cases hlanguage : Language.ofName? s.language with
  | none => exact .failed (.inl hlanguage)
  | some language =>
    cases hfile : s.vocabularyFile with
    | none =>
      have hready : ¬SetupFails files s := by simp [SetupFails, hlanguage, hfile]
      have hsetup := Setup.ready hready hlanguage
      rw [hfile] at hsetup
      exact hsetup
    | some path =>
      have hload := language.draft.isOk_loadFile_iff files path
      simp only [Analyzer.draftOf]
      cases hread : language.draft.loadFile files path with
      | mk d count =>
        rw [hread] at hload
        cases count with
        | error failure => exact .failed (.inr ⟨path, hfile, mt hload.mpr nofun⟩)
        | ok n =>
          have hready : ¬SetupFails files s := by
            simp [SetupFails, hlanguage, hfile, hload.mp rfl]
          have hsetup := Setup.ready hready hlanguage
          rw [hfile, Language.extended, hread] at hsetup
          exact hsetup

theorem Spanish.reachable_draft : Spanish.draft.Reachable := by
  rw [draft]
  iterate 9 apply Draft.Reachable.extend
  exact .empty

theorem Language.reachable_draft (language : Language) : language.draft.Reachable := by
  cases language
  exact Spanish.reachable_draft

theorem Language.reachable_extended (files : Files) (language : Language)
    (file? : Option String) : (language.extended files file?).Reachable := by
  cases file? with
  | none => exact language.reachable_draft
  | some path => exact .loadFile files path language.reachable_draft

/-- The automaton has the words of the vocabulary and classifies them alike. -/
structure Analyzer.Sound (a : Analyzer) : Prop where
  agrees : a.automaton.Agrees a.vocabulary
  knows : a.automaton.Knows a.vocabulary a.vocabulary.words

theorem Analyzer.sound_ofDraft {d : Draft} (hd : d.Reachable) (checksAgreement : Bool) :
    (ofDraft d checksAgreement).Sound :=
  ⟨hd.agrees_ofVocabulary, hd.knows_ofVocabulary⟩

end Castellano
