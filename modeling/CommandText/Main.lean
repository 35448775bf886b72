import CommandText.Invocation.Run
import CommandText.Settings.Directory

/-!
# The command

Runs an invocation on the machine: arguments, environment and working directory come from the
process, and the report is written to its two outputs. Names in the environment are told apart by
case, and a settings file that is a script counts as unreadable, since nothing here could run it.
-/

namespace CommandText

namespace Process

def entry? (t : Text) : Option (Text × Option Text) :=
  (t.cut? Text.equals).map fun (name, value) => (name, some value)

def environment : IO Environment := do
  let bytes ← IO.FS.readBinFile "/proc/self/environ"
  let text := Text.ofString ((String.fromUTF8? bytes).getD "")
  return Table.ofList ((text.splitOn Text.nul).filterMap entry?)

/-- The text of a file, none if there is no such file. -/
def readFile? (name : Text) : IO (Option (Text × Text)) := do
  try
    let contents ← IO.FS.readFile name.toString
    return some (name, Text.ofString contents)
  catch _ => return none

def workingDirectory : IO Directory := do
  let path ← IO.FS.realPath "."
  let files ← Directory.places.filterMapM fun place => readFile? place.1
  return { path := Text.ofString path.toString, files := Table.ofList files }

def write : Line → IO Unit
  | .out t => IO.println t.toString
  | .err t => IO.eprintln t.toString
  | .warning w => IO.eprintln w.message.toString

end Process

end CommandText

open CommandText in
def main (args : List String) : IO UInt32 := do
  let directory ← Process.workingDirectory
  let host : Host := ⟨directory.search fun _ => none, ← Process.environment, false⟩
  let report := (Invocation.run (args.map Text.ofString) host {}).1
  report.lines.forM Process.write
  return report.code.toUInt32
