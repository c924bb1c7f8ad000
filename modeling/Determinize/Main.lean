import Determinize.CommandLine

/-!
# The program

Writes the automaton that the arguments ask for to standard output, or says on standard error why
there is none.
-/

namespace Determinize.CommandLine

def readFile? (file : String) : IO (Option ByteArray) :=
  (some <$> IO.FS.readBinFile file) <|> pure none

def fail (failure : Failure) : IO UInt32 := do
  IO.eprintln failure.message
  return if failure = .usage then 2 else 1

end Determinize.CommandLine

def main (arguments : List String) : IO UInt32 := do
  match Determinize.CommandLine.options arguments with
  | .error failure => Determinize.CommandLine.fail failure
  | .ok options =>
    match Determinize.CommandLine.run options (← Determinize.CommandLine.readFile? options.file) with
    | .error failure => Determinize.CommandLine.fail failure
    | .ok output =>
      IO.print output.text
      return 0
