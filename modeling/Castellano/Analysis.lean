import Castellano.Agreement
import Castellano.Automaton.Basic
import Castellano.Failure
import Castellano.Language
import Castellano.Parse.Basic

/-!
# Castellano.Analysis

The analysis of whole sentences. An analyzer holds a vocabulary and the automaton of its words;
it classifies the words of a sentence, parses them, and looks at the agreement in the tree.
-/

namespace Castellano

/-- What an analyzer is made from. -/
structure Settings where
  language : String
  /-- The path of a listing that extends the words of the language. -/
  vocabularyFile : Option String
  /-- Agreement in gender counts. -/
  checksAgreement : Bool
  deriving DecidableEq

/-- Spanish with its built-in words and with agreement. -/
def Settings.standard : Settings := ⟨"es", none, true⟩

/-- A vocabulary that is ready for the analysis of sentences. -/
structure Analyzer where
  vocabulary : Vocabulary
  automaton : Automaton
  checksAgreement : Bool

/-- What is found out about a sentence. -/
structure Report where
  tokens : List Token
  parse : Parse.Result
  /-- The determiners and nouns that do not agree. -/
  mismatches : List Mismatch

namespace Report

/-- The sentence is well formed and agrees. -/
def valid (r : Report) : Bool := r.parse.valid && r.mismatches.isEmpty

def messages (r : Report) : List String :=
  r.parse.messages ++ r.mismatches.map Mismatch.message

end Report

namespace Analyzer

/-! ## Making an analyzer -/

/-- The analyzer over a vocabulary, for which agreement counts. -/
def ofVocabulary (v : Vocabulary) : Analyzer := ⟨v, Automaton.ofVocabulary v, true⟩

/-- The words of a language, extended by those of a file if there is one. -/
def draftOf (files : Files) (language : Language) : Option String → Except Failure Draft
  | none => .ok language.draft
  | some path =>
    match language.draft.loadFile files path with
    | (_, .error failure) => .error failure
    | (d, .ok _) => .ok d

def ofSettings (files : Files) (settings : Settings) : Except Failure Analyzer :=
  match Language.ofName? settings.language with
  | none => .error (.unsupportedLanguage settings.language)
  | some language =>
    match draftOf files language settings.vocabularyFile with
    | .error failure => .error failure
    | .ok d => .ok { ofVocabulary d.build with checksAgreement := settings.checksAgreement }

/-! ## Sentences -/

/-- Classifies words, of which the first has the given position. -/
def tokenizeFrom (a : Analyzer) (position : Nat) : List String → Except Failure (List Token)
  | [] => .ok []
  | word :: words =>
    let r := a.automaton.recognize word
    match r.accepted, r.category with
    | true, some c =>
      match a.tokenizeFrom (position + 1) words with
      | .error failure => .error failure
      | .ok tokens => .ok (Token.ofWord word c :: tokens)
    | _, _ => .error (.unknownWord word position)

/-- Classifies the words of a sentence, up to the first that is not in the vocabulary. -/
def tokenize (a : Analyzer) (words : List String) : Except Failure (List Token) :=
  a.tokenizeFrom 0 words

/-- The mismatches that count. -/
def mismatches (a : Analyzer) (result : Parse.Result) : List Mismatch :=
  match result.tree? with
  | some tree => if a.checksAgreement then a.vocabulary.mismatches tree else []
  | none => []

def analyzeTokens (a : Analyzer) (tokens : List Token) : Report :=
  let result := parse tokens
  ⟨tokens, result, a.mismatches result⟩

def analyze (a : Analyzer) (words : List String) : Except Failure Report :=
  match a.tokenize words with
  | .error failure => .error failure
  | .ok tokens => .ok (a.analyzeTokens tokens)

end Analyzer
end Castellano
