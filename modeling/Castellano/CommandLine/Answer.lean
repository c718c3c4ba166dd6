import Castellano.CommandLine.Command
import Castellano.Json.Encoding

/-!
# Castellano.CommandLine.Answer

The answers to the commands. An answer is given in both of its forms, and tells whether the input
was accepted.
-/

namespace Castellano
namespace CommandLine

structure Answer where
  text : String
  json : Json
  /-- The input is a word, a sentence, or whatever else the command asks about. -/
  accepted : Bool

/-- Lines, without a line end behind the last one. -/
def joinLines (lines : List String) : String := "\n".intercalate lines

/-! ## Words -/

def recognitionText (word : String) (r : Automaton.Recognition) : String :=
  match r.accepted, r.word, r.category with
  | true, some w, some c => s!"{w}: {c.text}"
  | true, some w, none => s!"{w}: sin categoría"
  | _, _, _ => s!"'{word}' no reconocida ({r.path.length} caracteres válidos)"

def recognize (a : Analyzer) (word : String) : Answer :=
  let r := a.automaton.recognize word
  ⟨recognitionText word r, r.toJson, r.accepted⟩

def continuationText (a : Analyzer) (text : String) (c : Automaton.Continuation) : String :=
  if c.valid then
    let isWord := if c.isWord then " (palabra completa)" else ""
    let continuations := String.ofList c.continuations
    let completions := ", ".intercalate (a.automaton.completions text)
    s!"prefijo válido{isWord}; continuaciones: [{continuations}]; palabras: {completions}"
  else s!"'{text}' no es prefijo de ninguna palabra"

def begins (a : Analyzer) (text : String) : Answer :=
  let c := a.automaton.begins text
  ⟨continuationText a text c, c.toJson, c.valid⟩

def categoryText : Option Category → String
  | some c => c.text
  | none => "desconocida"

def classify (a : Analyzer) (words : List String) : Answer :=
  let classified := words.map fun word => (word, a.automaton.classify word)
  { text := joinLines (classified.map fun (word, category) => s!"{word}: {categoryText category}")
    json := .array (classified.map fun (word, category) =>
      .ofFields [("word", .ofString word), ("category", .ofOption Category.toJson category)])
    accepted := classified.all fun (_, category) => category.isSome }

/-! ## Sentences -/

def reportText (r : Report) : String :=
  let tree :=
    match r.parse.tree? with
    | some tree => tree.render
    | none => ""
  let messages := String.join (r.messages.map fun message => s!"✗ {message}\n")
  tree ++ messages ++ if r.valid then "oración válida" else "oración inválida"

def parse (a : Analyzer) (words : List String) : Except Failure Answer :=
  match a.analyze words with
  | .error failure => .error failure
  | .ok report => .ok ⟨reportText report, report.toJson, report.valid⟩

/-- A token that was offered, with the reply to it and the stage after it. -/
structure Offered where
  token : Token
  reply : Reply
  stage : Stage

def offer (v : Vocabulary) (c : Composition) : List Token → Composition × List Offered
  | [] => (c, [])
  | t :: ts =>
    let (c, reply) := c.push v t.word t.category
    let (last, offered) := offer v c ts
    (last, ⟨t, reply, c.progress.stage⟩ :: offered)

/-- Composes sentences of article, noun and verb. The input is accepted if all of its words are
taken and at least one sentence is completed. -/
def sequence (a : Analyzer) (words : List String) : Except Failure Answer :=
  match a.tokenize words with
  | .error failure => .error failure
  | .ok tokens =>
    let (last, offered) := offer a.vocabulary .start tokens
    .ok
      { text := joinLines (offered.map fun o =>
          s!"{o.token.word} [{o.stage.text}] {o.reply.message}")
        json := .array (offered.map fun o => o.reply.toJson o.stage)
        accepted := offered.all (fun o => o.reply.accepted) && decide (0 < last.completed) }

def agreement (a : Analyzer) (determiner noun : String) : Answer :=
  let v := a.vocabulary
  let agrees := v.agrees determiner noun
  let determinerGender := (v.determinerGender determiner).text
  let nounGender := (v.nounGender noun).text
  let verdict := if agrees then "concuerdan" else "no concuerdan"
  { text := s!"{normalize determiner} ({determinerGender}) + {normalize noun} ({nounGender}): " ++
      verdict
    json := .ofFields [("agrees", .bool agrees), ("determiner_gender", .ofString determinerGender),
      ("noun_gender", .ofString nounGender)]
    accepted := agrees }

/-! ## Statistics -/

def stats (a : Analyzer) : Answer :=
  let s := a.automaton.stats
  let g := Grammar.stats
  { text := joinLines
      [s!"estados: {s.stateCount}", s!"estados finales: {s.finalStateCount}",
        s!"transiciones: {s.transitionCount}", s!"palabras: {s.wordCount}",
        s!"reglas: {g.ruleCount}", s!"alternativas: {g.alternativeCount}", "", Grammar.text]
    json := .ofFields [("automaton", s.toJson), ("grammar", g.toJson),
      ("vocabulary_size", .ofNat a.vocabulary.size)]
    accepted := true }

def answer (a : Analyzer) : Command → Except Failure Answer
  | .recognize word => .ok (recognize a word)
  | .begins text => .ok (begins a text)
  | .classify words => .ok (classify a words)
  | .parse words => parse a words
  | .sequence words => sequence a words
  | .agreement determiner noun => .ok (agreement a determiner noun)
  | .stats => .ok (stats a)

end CommandLine
end Castellano
