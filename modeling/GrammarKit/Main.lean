import GrammarKit.CommandLine

/-!
The program: reads the files that the command line names, runs it and prints what it reports.
-/
namespace GrammarKit

def readPath (path : Text) : IO (Except Fault Text) := do
  try
    let content ← IO.FS.readFile path.toString
    pure (.ok (Text.ofString content))
  catch e =>
    match e with
    | .inappropriateType none _ _ => pure (.error .isDirectory)
    | .inappropriateType (some _) _ _ => pure (.error (.notDirectory path))
    | .invalidArgument .. => pure (.error (.nameTooLong path))
    | _ => pure (.error (.noSuchFile path))

end GrammarKit

open GrammarKit in
def main (arguments : List String) : IO UInt32 := do
  let cl := CommandLine.read (arguments.map Text.ofString)
  if cl.grammar.isNone then
    IO.eprintln "Missing required argument: grammar"
    return 1
  let found ← (cl.grammar.toList ++ cl.inputFile.toList).mapM fun path => do
    return (path, ← readPath path)
  match cl.run fun path => (found.lookup path).getD (.error (.noSuchFile path)) with
  | .error fault =>
    IO.eprintln fault.message.toString
    return 1
  | .ok report =>
    report.stdout.forM fun line => IO.println line.toString
    report.stderr.forM fun line => IO.eprintln line.toString
    return report.exitCode.toUInt32
