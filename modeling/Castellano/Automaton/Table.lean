import Castellano.Category

/-!
# Castellano.Automaton.Table

The state table of a word automaton. The states are numbered in the order in which they were
made, and state 0 is the initial one. A table grows by one state and one edge at a time, so every
state but the initial one has been made together with an edge that leads to it.
-/

namespace Castellano
namespace Automaton

/-! ## States -/

/-- A state: where characters lead, and the word that ends here with its category. -/
structure State where
  /-- Characters with the states that they lead to, in ascending order of the characters. -/
  edges : List (Char × Nat)
  isFinal : Bool
  word : Option String
  /-- The category of that word, if it has one. -/
  category : Option Category

namespace State

def fresh : State := ⟨[], false, none, none⟩

def target? (s : State) (c : Char) : Option Nat := s.edges.lookup c

/-- The characters that lead on, in ascending order. -/
def continuations (s : State) : List Char := s.edges.map Prod.fst

/-- Puts an edge in its place among sorted edges. -/
def placeEdge (c : Char) (q : Nat) : List (Char × Nat) → List (Char × Nat)
  | [] => [(c, q)]
  | e :: es => if c < e.1 then (c, q) :: e :: es else e :: placeEdge c q es

def link (c : Char) (q : Nat) (s : State) : State := { s with edges := placeEdge c q s.edges }

def mark (word : String) (category : Option Category) (s : State) : State :=
  { s with isFinal := true, word := some word, category := category }

end State

/-! ## Tables -/

abbrev Table := Array State

namespace Table

def initial : Table := #[State.fresh]

/-- The state that a character leads to from state `q`. -/
def next? (t : Table) (q : Nat) (c : Char) : Option Nat :=
  match t[q]? with
  | none => none
  | some s => s.target? c

/-- Makes a new state to which `c` leads from state `q`. -/
def grow (t : Table) (q : Nat) (c : Char) : Table :=
  (t.push State.fresh).modify q (State.link c t.size)

def mark (t : Table) (q : Nat) (word : String) (category : Option Category) : Table :=
  t.modify q (State.mark word category)

def isFinal (t : Table) (q : Nat) : Bool :=
  match t[q]? with
  | none => false
  | some s => s.isFinal

/-- Where a text leads: the states entered one after the other, and the last of them unless some
character led nowhere. -/
structure Walk where
  path : List Nat
  arrival : Option Nat

/-- Follows a text from state `q` as far as it leads. -/
def walk (t : Table) (q : Nat) : List Char → Walk
  | [] => ⟨[], some q⟩
  | c :: cs =>
    match t.next? q c with
    | none => ⟨[], none⟩
    | some r =>
      let rest := t.walk r cs
      ⟨r :: rest.path, rest.arrival⟩

/-- The words that end in state `q` or behind it, at most `depth` edges away; each word comes
before its extensions, and the extensions in the order of their next characters. -/
def wordsFrom (t : Table) : Nat → Nat → List String
  | 0, _ => []
  | depth + 1, q =>
    match t[q]? with
    | none => []
    | some s => s.word.toList ++ s.edges.flatMap fun e => wordsFrom t depth e.2

end Table
end Automaton
end Castellano
