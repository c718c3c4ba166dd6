import Castellano.Grammar.Rules

/-!
# Castellano.Grammar.Tree

Parse trees. A node has a symbol, possibly a word, and children; the trees of sentences have words
at their leaves only, but a tree may be of any shape, and `conforms` tells whether the grammar
allows it. A tree can be shown with a node a line, or in brackets on one line.
-/

namespace Castellano

inductive Tree where
  | node (symbol : NonTerminal) (value : Option String) (children : List Tree)

namespace Tree

/-- A leaf that holds a word. -/
def leaf (symbol : NonTerminal) (word : String) : Tree := node symbol (some word) []

/-- A node without a word of its own. -/
def branch (symbol : NonTerminal) (children : List Tree) : Tree := node symbol none children

def symbol : Tree → NonTerminal
  | node s _ _ => s

def value : Tree → Option String
  | node _ v _ => v

def children : Tree → List Tree
  | node _ _ ts => ts

def child? (t : Tree) (s : NonTerminal) : Option Tree :=
  t.children.find? fun u => decide (u.symbol = s)

/-! ## Conformance -/

mutual

/-- Every node is an instance of a rule: a node without children is a preterminal with a word, and
the symbols of the children of any other node are an alternative of its symbol. -/
def conforms : Tree → Bool
  | node s v [] =>
    match s.category?, v with
    | some c, some _ => Grammar.derives s [.terminal c]
    | _, _ => false
  | node s _ (t :: ts) =>
    Grammar.derives s (((t :: ts).map symbol).map Symbol.nonterminal) &&
      (conforms t && conformAll ts)

def conformAll : List Tree → Bool
  | [] => true
  | t :: ts => conforms t && conformAll ts

end

/-! ## Views -/

def indent (level : Nat) : String := String.ofList (List.replicate (2 * level) ' ')

def nodeLine (s : NonTerminal) : Option String → String
  | none => s.label ++ "\n"
  | some word => s.label ++ " -> \"" ++ word ++ "\"\n"

mutual

/-- The lines of a tree whose root is at the given level. -/
def renderAt (level : Nat) : Tree → String
  | node s v ts => indent level ++ nodeLine s v ++ renderAllAt (level + 1) ts

def renderAllAt (level : Nat) : List Tree → String
  | [] => ""
  | t :: ts => renderAt level t ++ renderAllAt level ts

end

/-- The tree with a node a line, children below their parents and further to the right. -/
def render (t : Tree) : String := t.renderAt 0

mutual

/-- The tree on one line. A node with a word shows the word and not its children. -/
def bracketed : Tree → String
  | node s (some word) _ => s.label ++ " " ++ word
  | node s none ts => s.label ++ "(" ++ ", ".intercalate (bracketedAll ts) ++ ")"

def bracketedAll : List Tree → List String
  | [] => []
  | t :: ts => bracketed t :: bracketedAll ts

end

mutual

/-- The words of the tree from left to right; below a word there is nothing to read. -/
def words : Tree → List String
  | node _ (some word) _ => [word]
  | node _ none ts => wordsAll ts

def wordsAll : List Tree → List String
  | [] => []
  | t :: ts => words t ++ wordsAll ts

end

end Tree
end Castellano
