import Abacus.CommandLine.Session

/-!
# The command

Reads arguments, files and the standard input, and writes what the library
answers. At the prompt each answer is written before the next line is read.
-/

namespace Abacus

/-- Writes to the two output streams. -/
def Output.write (output : Output) : IO Unit := do
  let out ← IO.getStdout
  let err ← IO.getStderr
  out.putStr output.out
  out.flush
  err.putStr output.err
  err.flush

/-- The bytes of a file, if it can be read. -/
def readFile? (name : String) : IO (Option ByteArray) := do
  try
    let bytes ← IO.FS.readBinFile name
    pure (some bytes)
  catch _ =>
    pure none

/-- The rest of the current line of the input, with its newline. -/
partial def readLine (input : IO.FS.Stream) (line : Array UInt8) : IO (List UInt8) := do
  let bytes ← input.read 1
  match bytes.data.toList with
  | [] => pure line.toList
  | byte :: _ => if byte = 10 then pure (line.push byte).toList else readLine input (line.push byte)

/-- Answers line after line up to the end of the input. -/
partial def converse (settings : Settings) (input : IO.FS.Stream) : IO Unit := do
  (Output.ofOut promptText).write
  let line ← readLine input #[]
  unless line.isEmpty do
    let turn := promptTurn settings line
    turn.2.write
    if turn.1 then
      converse settings input

/-- Writes a response and gives its status. -/
def Response.finish (response : Response) : IO UInt32 := do
  response.output.write
  pure response.status.toUInt32

/-- Runs a command and gives its exit status. -/
def command (arguments : List String) : IO UInt32 := do
  match Invocation.ofArguments arguments with
  | .help => helpResponse.finish
  | .version => versionResponse.finish
  | .misuse => misuseResponse.finish
  | .run settings =>
    match settings.contents with
    | none =>
      (settings.log [.prompting]).write
      converse settings (← IO.getStdin)
      pure 0
    | some contents =>
      if settings.file then
        (respondFile settings contents (← readFile? contents)).finish
      else
        (respondExpression settings contents).finish

end Abacus

def main (arguments : List String) : IO UInt32 :=
  Abacus.command arguments
