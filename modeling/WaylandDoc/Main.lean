import Std.Time.DateTime.Timestamp
import WaylandDoc.CommandLine
import WaylandDoc.Text.Timestamp

/-!
# The program

Reads the file, prints log records to standard error and the page to standard output.
-/

namespace WaylandDoc

/-- The number and the text of an error of the system. -/
def FileError.ofSystem : IO.Error → FileError
  | .noFileOrDirectory _ number reason | .inappropriateType _ number reason
  | .permissionDenied _ number reason | .invalidArgument _ number reason
  | .resourceExhausted _ number reason | .noSuchThing _ number reason
  | .alreadyExists _ number reason | .otherError number reason
  | .resourceBusy number reason | .resourceVanished number reason
  | .hardwareFault number reason | .unsupportedOperation number reason
  | .interrupted _ number reason => ⟨reason, number.toNat⟩
  | e => ⟨e.toString, 0⟩

def readFile (path : String) : IO (Except FileError Bytes) := do
  try
    let handle ← IO.FS.Handle.mk path .read
    let contents ← handle.readBinToEnd
    return .ok contents.toList
  catch e => return .error (.ofSystem e)

def printRecord (r : Record) : IO Unit := do
  let now ← Std.Time.Timestamp.now
  let moment := Timestamp.text now.toMillisecondsSinceUnixEpoch.toInt.toNat
  IO.eprint s!"[{moment} {r.label}\n"

def runArgs (args : List String) : IO UInt32 := do
  let contents ← match Invocation.ofArgs? args with
    | some (.page path _) => readFile path
    | _ => pure (.error .notFound)
  let answer := Answer.ofArgs args fun _ => contents
  answer.records.forM printRecord
  if answer = .usage then
    IO.eprint s!"The arguments are not well formed.\n\n{Answer.helpText}"
  try
    let out ← IO.getStdout
    out.putStr answer.output
    out.flush
    return answer.code.toUInt32
  catch e =>
    let reason := (FileError.ofSystem e).message
    printRecord ⟨.error, .program, s!"Could not write the document to stdout: {reason}"⟩
    return 1

end WaylandDoc

def main (args : List String) : IO UInt32 := WaylandDoc.runArgs args
