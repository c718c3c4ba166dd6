import Castellano.Agreement
import Castellano.Stage

/-!
# Castellano.Composition

Composing sentences of article, noun and verb word by word. The article fixes the gender, and
the noun has to agree with it. An article in the middle of a sentence starts the sentence
again, any other word out of order is refused, and a complete sentence gives way to the next
one.

The stages are those of the sequential automaton, which says what comes next. The words that have
been taken are kept in their normal form.
-/

namespace Castellano

/-- How far the sentence has come, with its words and the gender of its article. -/
structure Progress where
  stage : Stage
  article? : Option String
  gender? : Option Gender
  noun? : Option String
  verb? : Option String
  deriving DecidableEq

namespace Progress

def empty : Progress := ⟨.initial, none, none, none, none⟩

def sentence? (p : Progress) : Option String :=
  match p.article?, p.noun?, p.verb? with
  | some a, some n, some v => some (a ++ " " ++ n ++ " " ++ v)
  | _, _, _ => none

/-- Where the next word is taken: a complete sentence gives way to an empty one. -/
def opened (p : Progress) : Progress := if p.stage = .final then empty else p

/-- Takes down an article, which fixes the gender. -/
def setArticle (v : Vocabulary) (p : Progress) (word : String) : Progress :=
  { p with article? := some word, gender? := some (v.determinerGender word) }

def isMidSentence (p : Progress) : Bool :=
  decide (p.stage = .articleSeen) || decide (p.stage = .nounSeen)

/-- The article, if the word is a noun behind it that does not agree. -/
def opposed? (v : Vocabulary) (p : Progress) (word : String) (k : Category) : Option String :=
  if k = .noun ∧ p.stage = .articleSeen then p.article?.filter fun a => !v.agrees a word
  else none

end Progress

/-! ## Replies -/

/-- What becomes of a word. -/
inductive Reply where
  /-- The article opens a sentence. -/
  | opened (gender : Gender)
  /-- The article starts the sentence again. -/
  | restarted (gender : Gender)
  /-- The noun goes with the article. -/
  | continued
  /-- The verb completes the sentence. -/
  | completed
  /-- The noun is refused, since it does not agree with the article. -/
  | disagreement (article noun : String)
  /-- The word is refused, since another category comes next. -/
  | outOfOrder (stage : Stage) (found : Category)
  deriving DecidableEq

namespace Reply

def accepted : Reply → Bool
  | opened _ | restarted _ | continued | completed => true
  | disagreement .. | outOfOrder .. => false

def isRestart : Reply → Bool
  | restarted _ => true
  | _ => false

def isCompletion : Reply → Bool
  | completed => true
  | _ => false

def message : Reply → String
  | opened g => s!"Artículo agregado ({g.text}). Esperando sustantivo..."
  | restarted g => s!"Nuevo artículo ({g.text}). Esperando sustantivo..."
  | continued => "Sustantivo agregado. Esperando verbo..."
  | completed => "¡Oración completa!"
  | disagreement article noun =>
    s!"Concordancia incorrecta: \"{article}\" no concuerda con \"{noun}\""
  | outOfOrder stage found => stage.refusal found

end Reply

/-! ## Composing -/

/-- The sentence under composition, and the number of sentences completed before. -/
structure Composition where
  progress : Progress
  completed : Nat
  deriving DecidableEq

namespace Composition

def start : Composition := ⟨.empty, 0⟩

/-- Gives up the sentence under composition; the count stays. -/
def reset (c : Composition) : Composition := { c with progress := .empty }

/-- Takes down a normal word in the place of its category, and goes on to the given stage. -/
def place (v : Vocabulary) (p : Progress) (word : String) (k : Category) (next : Stage) :
    Progress × Reply :=
  match k with
  | .article => ({ p.setArticle v word with stage := next }, .opened (v.determinerGender word))
  | .noun => ({ p with stage := next, noun? := some word }, .continued)
  | _ => ({ p with stage := next, verb? := some word }, .completed)

/-- Takes a normal word where a sentence stands. -/
def take (v : Vocabulary) (p : Progress) (word : String) (k : Category) : Progress × Reply :=
  match p.opposed? v word k with
  | some article => (p, .disagreement article word)
  | none =>
    let step := p.stage.step k
    if step.success then place v p word k step.stage
    else if k = .article ∧ p.isMidSentence then
      let next := (Progress.empty.stage.step k).stage
      ({ Progress.empty.setArticle v word with stage := next },
        .restarted (v.determinerGender word))
    else (p, .outOfOrder p.stage k)

/-- Offers a word. -/
def push (v : Vocabulary) (c : Composition) (word : String) (k : Category) :
    Composition × Reply :=
  let (p, reply) := take v c.progress.opened (normalize word) k
  (⟨p, if reply.isCompletion then c.completed + 1 else c.completed⟩, reply)

/-- What to offer next, with up to three nouns that agree with the article. -/
def hint (v : Vocabulary) (c : Composition) : String :=
  match c.progress.stage with
  | .initial => "Esperando artículo (EL, LA, UN, UNA...)"
  | .articleSeen =>
    match c.progress.article?, c.progress.gender? with
    | some a, some g =>
      let examples := ", ".intercalate ((v.compatibleNouns a).take 3)
      s!"Esperando sustantivo {g.text} ({examples}...)"
    | _, _ => "Esperando sustantivo"
  | .nounSeen => "Esperando verbo"
  | .final => "Oración completa"

end Composition
end Castellano
