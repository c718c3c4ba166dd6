import Castellano.Analysis
import Castellano.Composition
import Castellano.Json.Value

/-!
# Castellano.Json.Encoding

The results of the library as JSON. Categories, genders, nonterminals and stages are given by
their stored names, and what is absent is `null`.
-/

namespace Castellano

/-- A category by its name. -/
def Category.toJson (c : Category) : Json := .ofString c.text

def Token.toJson (t : Token) : Json :=
  .ofFields [("word", .ofString t.word), ("category", t.category.toJson)]

/-! ## Words -/

namespace Automaton

def Recognition.toJson (r : Recognition) : Json :=
  .ofFields [("accepted", .bool r.accepted), ("word", .ofOption .ofString r.word),
    ("category", .ofOption Category.toJson r.category), ("path", .array (r.path.map .ofNat))]

def Continuation.toJson (c : Continuation) : Json :=
  .ofFields [("valid", .bool c.valid), ("path", .array (c.path.map .ofNat)),
    ("continuations", .array (c.continuations.map fun x => .ofString (String.singleton x))),
    ("is_complete_word", .bool c.isWord)]

def Stats.toJson (s : Stats) : Json :=
  .ofFields [("state_count", .ofNat s.stateCount),
    ("final_state_count", .ofNat s.finalStateCount),
    ("transition_count", .ofNat s.transitionCount), ("word_count", .ofNat s.wordCount)]

end Automaton

/-! ## Sentences -/

def Grammar.Stats.toJson (s : Grammar.Stats) : Json :=
  .ofFields [("rule_count", .ofNat s.ruleCount), ("alternative_count", .ofNat s.alternativeCount),
    ("terminal_count", .ofNat s.terminalCount), ("nonterminal_count", .ofNat s.nonterminalCount)]

namespace Tree

mutual

def toJson : Tree → Json
  | node s value ts =>
    .ofFields [("symbol", .ofString s.key), ("value", .ofOption .ofString value),
      ("children", .array (allToJson ts))]

def allToJson : List Tree → List Json
  | [] => []
  | t :: ts => toJson t :: allToJson ts

end

end Tree

/-- The structure of a sentence, with the wording of what is wrong. -/
def Parse.Result.toJson (r : Parse.Result) : Json :=
  .ofFields [("valid", .bool r.valid), ("tree", .ofOption Tree.toJson r.tree?),
    ("errors", .ofStrings r.messages)]

def Mismatch.toJson (m : Mismatch) : Json :=
  .ofFields [("determiner", .ofString m.determiner), ("noun", .ofString m.noun),
    ("determiner_gender", .ofString m.determinerGender.key),
    ("noun_gender", .ofString m.nounGender.key)]

def Report.toJson (r : Report) : Json :=
  .ofFields [("tokens", .array (r.tokens.map Token.toJson)), ("parse", r.parse.toJson),
    ("agreement", .array (r.mismatches.map Mismatch.toJson))]

def Reply.toJson (r : Reply) (stage : Stage) : Json :=
  .ofFields [("accepted", .bool r.accepted), ("restarted", .bool r.isRestart),
    ("complete", .bool r.isCompletion), ("state", .ofString stage.key),
    ("message", .ofString r.message)]

end Castellano
