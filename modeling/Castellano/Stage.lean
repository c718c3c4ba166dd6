import Castellano.Category

/-!
# Castellano.Stage

The sequential automaton of the shortest sentences: an article, a noun, a verb. Its states are
the stages of such a sentence; a category that does not come next leaves the stage as it is.
-/

namespace Castellano

/-- How far a sentence of article, noun and verb has come. -/
inductive Stage where
  | initial
  | articleSeen
  | nounSeen
  | final
  deriving DecidableEq

namespace Stage

def all : List Stage := [initial, articleSeen, nounSeen, final]

/-- The name under which a stage is shown. -/
def text : Stage → String
  | initial => "INICIAL"
  | articleSeen => "ARTICULO"
  | nounSeen => "SUSTANTIVO"
  | final => "FINAL"

/-- The name under which a stage is stored. -/
def key : Stage → String
  | initial => "Initial"
  | articleSeen => "ArticleSeen"
  | nounSeen => "NounSeen"
  | final => "Final"

def description : Stage → String
  | initial => "Esperando artículo"
  | articleSeen => "Artículo recibido, esperando sustantivo"
  | nounSeen => "Sustantivo recibido, esperando verbo"
  | final => "Oración completa"

/-- The category that comes next. -/
def expected? : Stage → Option Category
  | initial => some .article
  | articleSeen => some .noun
  | nounSeen => some .verb
  | final => none

/-! ## Steps -/

def transitions : List ((Stage × Category) × Stage) :=
  [((initial, .article), articleSeen), ((articleSeen, .noun), nounSeen),
    ((nounSeen, .verb), final)]

/-- The stage that a category leads to, if there is a transition. -/
def advance? (s : Stage) (c : Category) : Option Stage := transitions.lookup (s, c)

structure Step where
  success : Bool
  stage : Stage
  /-- The step completes a sentence. -/
  complete : Bool
  message : String

def refusal (s : Stage) (c : Category) : String :=
  match s.expected? with
  | some expected => s!"Error: se esperaba {expected.text}, pero se recibió {c.text}"
  | none => s!"Error: la oración ya está completa, se recibió {c.text}"

/-- One step of the automaton; without a transition the stage stays. -/
def step (s : Stage) (c : Category) : Step :=
  match s.advance? c with
  | some next => ⟨true, next, decide (next = final), next.description⟩
  | none => ⟨false, s, false, s.refusal c⟩

end Stage
end Castellano
