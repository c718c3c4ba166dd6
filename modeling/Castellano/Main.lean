import Castellano.CommandLine.Program

/-!
# Castellano.Main

The command line: reads the vocabulary file that the arguments name, runs the program, prints its
output and ends with its exit code.
-/

namespace Castellano
namespace CommandLine

/-- The cause of an error that the operating system reports. Its number comes with either sign. -/
def causeOf (e : IO.Error) : ReadFailure :=
  match e with
  | .noFileOrDirectory .. => .notFound
  | .inappropriateType _ code _ =>
    if code = 20 ∨ code = 0 - 20 then .notADirectory
    else if code = 21 ∨ code = 0 - 21 then .isDirectory
    else .other (toString e)
  | .invalidArgument _ code _ =>
    if code = 36 ∨ code = 0 - 36 then .nameTooLong else .other (toString e)
  | _ => .other (toString e)

def readText (path : String) : IO (Except ReadFailure String) := do
  try
    let bytes ← IO.FS.readBinFile path
    return textOf bytes
  catch e =>
    return .error (causeOf e)

/-- The file that an invocation reads, and no other. -/
def filesOf (invocation : Invocation) : IO Files := do
  match invocation.settings.vocabularyFile with
  | none => return fun _ => .error .notFound
  | some path =>
    let text ← readText path
    return fun _ => text

def finish (outcome : Outcome) : IO UInt32 := do
  IO.print outcome.output
  IO.eprint outcome.errors
  return outcome.exitCode.toUInt32

def launch (args : List String) : IO UInt32 := do
  match readArguments args with
  | .error refusal => finish (refused refusal)
  | .ok invocation => finish (run (← filesOf invocation) invocation)

end CommandLine
end Castellano

def main (args : List String) : IO UInt32 := Castellano.CommandLine.launch args
