import Castellano.CommandLine.Answer
import Castellano.CommandLine.Usage
import Castellano.Json.Printer

/-!
# Castellano.CommandLine.Program

The program as a function: from an invocation and the files that can be read to what is printed and
to the exit code. The code is 0 for input that is accepted, 1 for input that is not, and 2 if
there is no analyzer to ask.
-/

namespace Castellano
namespace CommandLine

structure Outcome where
  exitCode : Nat
  output : String
  errors : String
  deriving DecidableEq

def refused (refusal : Refusal) : Outcome :=
  match refusal with
  | .displayHelp => ⟨refusal.exitCode, usage, ""⟩
  | .displayVersion => ⟨refusal.exitCode, version, ""⟩
  | _ => ⟨refusal.exitCode, "", s!"error: {refusal.message}\n\n{usage}"⟩

def Answer.printed (a : Answer) : Format → String
  | .text => a.text ++ "\n"
  | .json => a.json.print ++ "\n"

/-- The outcome of a failure to make an analyzer. -/
def setupFailed (failure : Failure) : Outcome :=
  ⟨2, "", s!"Error inicializando analizador: {failure.message}\n"⟩

/-- The outcome of a failure to answer. A word that is not in the vocabulary is input that is not
accepted. -/
def answerFailed (failure : Failure) : Outcome :=
  match failure with
  | .unknownWord .. => ⟨1, "", s!"{failure.message}\n"⟩
  | _ => ⟨2, "", s!"Error: {failure.message}\n"⟩

def run (files : Files) (invocation : Invocation) : Outcome :=
  match Analyzer.ofSettings files invocation.settings with
  | .error failure => setupFailed failure
  | .ok analyzer =>
    match answer analyzer invocation.command with
    | .error failure => answerFailed failure
    | .ok a => ⟨if a.accepted then 0 else 1, a.printed invocation.format, ""⟩

end CommandLine
end Castellano
