import Castellano.Analysis
import Castellano.CommandLine.Command

/-!
# Castellano.CommandLine.Options

From the arguments of the program to what it is asked for.

Options stand before or behind the word that names the command, and between its arguments. They are
collected for the two places apart, and what stands behind the command counts first. An option
that takes a value takes it from the same argument (`--lang=es`, `-les`, `-l=es`) or from the
next one, if that does not look like an option itself. Such a value is judged when the next
thing happens at its place, so that of several mistakes the one that is met first is reported.
-/

namespace Castellano
namespace CommandLine

/-! ## Refusals -/

/-- Why arguments are not carried out. -/
inductive Refusal where
  /-- An option that does not exist, or one argument too many. -/
  | unknownArgument
  | invalidValue
  /-- A value for an option that takes none. -/
  | tooManyValues
  /-- An option that is given twice at one place. -/
  | argumentConflict
  | missingRequiredArgument
  /-- There are options but no command. -/
  | missingSubcommand
  | invalidSubcommand
  /-- There is nothing at all. -/
  | nothingAsked
  | displayHelp
  | displayVersion
  deriving DecidableEq

/-- The exit code of a refusal: to be asked for help or for the version is no mistake. -/
def Refusal.exitCode : Refusal → Nat
  | displayHelp | displayVersion => 0
  | _ => 2

/-! ## Options -/

/-- The options that take a value. -/
inductive Setting where
  | language
  | vocabulary
  | format
  deriving DecidableEq

/-- The options that take no value. -/
inductive Flag where
  | noAgreement
  | verbose
  | help
  | version
  deriving DecidableEq

inductive Switch where
  | setting (s : Setting)
  | flag (f : Flag)
  deriving DecidableEq

inductive Place where
  | front
  | behind
  deriving DecidableEq

/-- The option of a long name. The version can be asked for in front only. -/
def longSwitch? (place : Place) (name : String) : Option Switch :=
  match name with
  | "lang" => some (.setting .language)
  | "vocab" => some (.setting .vocabulary)
  | "format" => some (.setting .format)
  | "no-agreement" => some (.flag .noAgreement)
  | "verbose" => some (.flag .verbose)
  | "help" => some (.flag .help)
  | "version" => if place = .front then some (.flag .version) else none
  | _ => none

def shortSwitch? (place : Place) (letter : Char) : Option Switch :=
  match letter with
  | 'l' => some (.setting .language)
  | 'd' => some (.setting .vocabulary)
  | 'v' => some (.flag .verbose)
  | 'h' => some (.flag .help)
  | 'V' => if place = .front then some (.flag .version) else none
  | _ => none

/-! ## Choices -/

inductive Format where
  | text
  | json
  deriving DecidableEq

/-- The format of the given name, in exactly this spelling. -/
def Format.ofName? : String → Option Format
  | "text" => some .text
  | "json" => some .json
  | _ => none

structure Choices where
  language : Option String
  vocabularyFile : Option String
  format : Option Format
  noAgreement : Bool
  /-- How often more detail is asked for, if it is. -/
  verbosity : Option Nat
  deriving DecidableEq

namespace Choices

def none : Choices := ⟨.none, .none, .none, false, .none⟩

/-- Sets a value that was not set before and is allowed. -/
def assign (c : Choices) (s : Setting) (value : String) : Except Refusal Choices :=
  match s with
  | .language =>
    if c.language.isSome then .error .argumentConflict
    else .ok { c with language := some value }
  | .vocabulary =>
    if c.vocabularyFile.isSome then .error .argumentConflict
    else if value = "" then .error .invalidValue
    else .ok { c with vocabularyFile := some value }
  | .format =>
    if c.format.isSome then .error .argumentConflict
    else
      match Format.ofName? value with
      | .none => .error .invalidValue
      | some format => .ok { c with format := some format }

/-- Raises a flag. The verbosity counts up to 255. -/
def raise (c : Choices) : Flag → Except Refusal Choices
  | .noAgreement =>
    if c.noAgreement then .error .argumentConflict else .ok { c with noAgreement := true }
  | .verbose => .ok { c with verbosity := some (min 255 (c.verbosity.getD 0 + 1)) }
  | .help => .error .displayHelp
  | .version => .error .displayVersion

/-- The choices of two places, where the second one counts first. -/
def merge (front behind : Choices) : Choices :=
  { language := behind.language.or front.language
    vocabularyFile := behind.vocabularyFile.or front.vocabularyFile
    format := behind.format.or front.format
    noAgreement := front.noAgreement || behind.noAgreement
    verbosity := behind.verbosity.or front.verbosity }

end Choices

/-! ## Collecting -/

structure Collected where
  choices : Choices
  /-- An option whose value is awaited or still to be judged. -/
  pending : Option (Setting × Option String)
  deriving DecidableEq

namespace Collected

def nothing : Collected := ⟨.none, none⟩

def awaited? (c : Collected) : Option Setting :=
  match c.pending with
  | some (s, none) => some s
  | _ => none

/-- Judges the value that is pending. -/
def settle (c : Collected) : Except Refusal Choices :=
  match c.pending with
  | none => .ok c.choices
  | some (_, none) => .error .invalidValue
  | some (s, some value) => c.choices.assign s value

/-- Meets an option whose value is the next argument. -/
def await (c : Collected) (s : Setting) : Except Refusal Collected :=
  c.settle.map fun choices => ⟨choices, some (s, none)⟩

def attach (c : Collected) (s : Setting) (value : String) : Except Refusal Collected :=
  match c.settle with
  | .error refusal => .error refusal
  | .ok choices => (choices.assign s value).map fun choices => ⟨choices, none⟩

def raise (c : Collected) (f : Flag) : Except Refusal Collected :=
  match c.settle with
  | .error refusal => .error refusal
  | .ok choices => (choices.raise f).map fun choices => ⟨choices, none⟩

def long (place : Place) (c : Collected) (name : String) (value : Option String) :
    Except Refusal Collected :=
  match longSwitch? place name, value with
  | none, _ => .error .unknownArgument
  | some (.setting s), none => c.await s
  | some (.setting s), some v => c.attach s v
  | some (.flag f), none => c.raise f
  | some (.flag _), some _ => .error .tooManyValues

/-- Meets short names of options. All but the last of them are flags; an option that takes a value
takes all that is behind it. -/
def short (place : Place) (c : Collected) : List Char → Except Refusal Collected
  | [] => .ok c
  | letter :: letters =>
    match shortSwitch? place letter with
    | none => .error .unknownArgument
    | some (.flag f) =>
      match c.raise f with
      | .error refusal => .error refusal
      | .ok c => c.short place letters
    | some (.setting s) =>
      match letters with
      | [] => c.await s
      | '=' :: value => c.attach s (String.ofList value)
      | value => c.attach s (String.ofList value)

end Collected

inductive Shape where
  /-- The mark `--`, behind which nothing is an option. -/
  | mark
  /-- The long name of an option and the value behind an equals sign. -/
  | long (name : String) (value : Option String)
  | short (letters : List Char)
  /-- Anything else. -/
  | plain

/-- The text before the first equals sign, and the text behind it if there is one. -/
def splitAtEquals (cs : List Char) : String × Option String :=
  let name := String.ofList (cs.takeWhile (· != '='))
  match cs.dropWhile (· != '=') with
  | [] => (name, none)
  | _ :: value => (name, some (String.ofList value))

/-- Looks at an argument. A single dash is no option. -/
def shapeOf (argument : String) : Shape :=
  match argument.toList with
  | ['-', '-'] => .mark
  | '-' :: '-' :: cs =>
    let (name, value) := splitAtEquals cs
    .long name value
  | '-' :: c :: cs => .short (c :: cs)
  | _ => .plain

/-! ## The command -/

structure CommandParts where
  options : Collected
  arguments : List String

def CommandParts.take (p : CommandParts) (kind : CommandKind) (argument : String) :
    Except Refusal CommandParts :=
  if kind.hasRoom p.arguments.length then
    p.options.settle.map fun choices => ⟨⟨choices, none⟩, p.arguments ++ [argument]⟩
  else .error .unknownArgument

def readMarked (kind : CommandKind) (p : CommandParts) :
    List String → Except Refusal CommandParts
  | [] => .ok p
  | argument :: rest =>
    match p.take kind argument with
    | .error refusal => .error refusal
    | .ok p => readMarked kind p rest

def readBehind (kind : CommandKind) (p : CommandParts) :
    List String → Except Refusal CommandParts
  | [] => .ok p
  | argument :: rest =>
    match shapeOf argument with
    | .mark => readMarked kind p rest
    | .long name value =>
      match p.options.long .behind name value with
      | .error refusal => .error refusal
      | .ok options => readBehind kind { p with options } rest
    | .short letters =>
      match p.options.short .behind letters with
      | .error refusal => .error refusal
      | .ok options => readBehind kind { p with options } rest
    | .plain =>
      match p.options.awaited? with
      | some s =>
        readBehind kind { p with options := ⟨p.options.choices, some (s, some argument)⟩ } rest
      | none =>
        match p.take kind argument with
        | .error refusal => .error refusal
        | .ok p => readBehind kind p rest

def readCommand (kind : CommandKind) (arguments : List String) :
    Except Refusal (Command × Choices) :=
  match readBehind kind ⟨.nothing, []⟩ arguments with
  | .error refusal => .error refusal
  | .ok p =>
    match p.options.settle with
    | .error refusal => .error refusal
    | .ok choices =>
      match kind.command? p.arguments with
      | none => .error .missingRequiredArgument
      | some command => .ok (command, choices)

/-! ## The whole line -/

structure Invocation where
  command : Command
  settings : Settings
  format : Format
  verbosity : Nat
  deriving DecidableEq

def Invocation.ofChoices (command : Command) (c : Choices) : Invocation :=
  { command
    settings :=
      { language := c.language.getD Settings.standard.language
        vocabularyFile := c.vocabularyFile
        checksAgreement := !c.noAgreement }
    format := c.format.getD .text
    verbosity := c.verbosity.getD 0 }

/-- The arguments end without a command. -/
def withoutCommand (options : Collected) : Refusal :=
  match options.settle with
  | .error refusal => refusal
  | .ok choices => if choices = .none then .nothingAsked else .missingSubcommand

/-- Help is asked for by a command of its own, perhaps on another command. -/
def helpOn : List String → Refusal
  | [] => .displayHelp
  | [topic] => if CommandKind.isNamed topic then .displayHelp else .invalidSubcommand
  | _ :: _ :: _ => .invalidSubcommand

/-- What is wrong with the arguments behind a mark that stands in front of the command. Nothing
behind it can name the command: the name of one is an argument too many, and any other argument
is not even a name. A value that is pending is not judged. -/
def behindFrontMark (options : Collected) : List String → Refusal
  | [] => withoutCommand options
  | argument :: _ =>
    if CommandKind.isNamed argument then .unknownArgument else .invalidSubcommand

def readNamed (options : Collected) (name : String) (rest : List String) :
    Except Refusal Invocation :=
  if name = "help" then .error (helpOn rest)
  else
    match CommandKind.ofName? name with
    | none => .error .invalidSubcommand
    | some kind =>
      match readCommand kind rest with
      | .error refusal => .error refusal
      | .ok (command, behind) =>
        options.settle.map fun front => .ofChoices command (front.merge behind)

def readFront (options : Collected) : List String → Except Refusal Invocation
  | [] => .error (withoutCommand options)
  | argument :: rest =>
    match shapeOf argument with
    | .mark => .error (behindFrontMark options rest)
    | .long name value =>
      match options.long .front name value with
      | .error refusal => .error refusal
      | .ok options => readFront options rest
    | .short letters =>
      match options.short .front letters with
      | .error refusal => .error refusal
      | .ok options => readFront options rest
    | .plain =>
      match options.awaited? with
      | some s => readFront ⟨options.choices, some (s, some argument)⟩ rest
      | none => readNamed options argument rest

def readArguments (arguments : List String) : Except Refusal Invocation :=
  readFront .nothing arguments

end CommandLine
end Castellano
