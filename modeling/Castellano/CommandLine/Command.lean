/-!
# Castellano.CommandLine.Command

The commands of the program and the arguments that they take.
-/

namespace Castellano
namespace CommandLine

inductive Command where
  | recognize (word : String)
  /-- Tells how a text can go on to become a word. -/
  | begins (text : String)
  | classify (words : List String)
  | parse (words : List String)
  /-- Composes sentences of article, noun and verb. -/
  | sequence (words : List String)
  | agreement (determiner noun : String)
  | stats
  deriving DecidableEq

inductive CommandKind where
  | recognize
  | begins
  | classify
  | parse
  | sequence
  | agreement
  | stats
  deriving DecidableEq

namespace CommandKind

def all : List CommandKind := [recognize, begins, classify, parse, sequence, agreement, stats]

def name : CommandKind → String
  | recognize => "recognize"
  | begins => "prefix"
  | classify => "classify"
  | parse => "parse"
  | sequence => "sequence"
  | agreement => "agreement"
  | stats => "stats"

def ofName? (s : String) : Option CommandKind := all.find? fun k => decide (k.name = s)

/-- The word names a command, or is the one that asks for help on a command. -/
def isNamed (word : String) : Bool := word == "help" || (ofName? word).isSome

/-- A command can take one more argument than the given number. -/
def hasRoom : CommandKind → Nat → Bool
  | recognize, n | begins, n => decide (n < 1)
  | classify, _ | parse, _ | sequence, _ => true
  | agreement, n => decide (n < 2)
  | stats, _ => false

/-- The command with the given arguments, if none is missing. -/
def command? : CommandKind → List String → Option Command
  | recognize, [word] => some (.recognize word)
  | begins, [text] => some (.begins text)
  | classify, word :: words => some (.classify (word :: words))
  | parse, word :: words => some (.parse (word :: words))
  | sequence, word :: words => some (.sequence (word :: words))
  | agreement, [determiner, noun] => some (.agreement determiner noun)
  | stats, [] => some .stats
  | _, _ => none

end CommandKind

namespace Command

def kind : Command → CommandKind
  | recognize _ => .recognize
  | begins _ => .begins
  | classify _ => .classify
  | parse _ => .parse
  | sequence _ => .sequence
  | agreement .. => .agreement
  | stats => .stats

def arguments : Command → List String
  | recognize word => [word]
  | begins text => [text]
  | classify words | parse words | sequence words => words
  | agreement determiner noun => [determiner, noun]
  | stats => []

end Command
end CommandLine
end Castellano
