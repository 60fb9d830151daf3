import DottedPath.Command.Help
import DottedPath.Command.Run

/-!
The program: reads its settings, its command line and its input, runs the command, and prints or
writes back what the run leaves behind.
-/

namespace DottedPath.Command

/-- Reads a stream to its end. -/
partial def readAll (input : IO.FS.Stream) (before : ByteArray) : IO ByteArray := do
  let chunk ← input.read 65536
  if chunk.isEmpty then pure before else readAll input (before ++ chunk)

/-- The bytes of a file, if it can be read. -/
def fileBytes? (path : String) : IO (Option (List UInt8)) :=
  try
    let bytes ← IO.FS.readBinFile path
    pure (some bytes.toList)
  catch _ => pure none

/-- Puts bytes into a file. They go into another file first, so that the file is never half
written. -/
def replaceFile (path : String) (bytes : List UInt8) : IO Unit := do
  let aside := Document.pathAside path
  IO.FS.writeBinFile aside ⟨bytes.toArray⟩
  IO.FS.rename aside path

/-- The settings of the user. -/
def userConfig : IO Config := do
  match ← IO.getEnv "HOME" with
  | none => pure {}
  | some home =>
    let bytes ← fileBytes? (home ++ "/.config/" ++ programName ++ "/config.toml")
    pure ((bytes.bind fun bytes => String.fromUTF8? ⟨bytes.toArray⟩).elim {} Config.parse)

/-- Says why a run failed. -/
def complain (message : String) : IO Unit := do
  (← IO.getStderr).putStrLn ("Error: " ++ message)

/-- Does what is left to do after a run. -/
def finish (outcome : Outcome) : IO UInt32 := do
  (← IO.getStdout).putStr outcome.output
  match outcome with
  | .failed e => complain e.message
  | .written path bytes => replaceFile path bytes
  | _ => pure ()
  pure outcome.status.toUInt32

/-- Runs a command line. -/
def call (args : List String) : IO UInt32 := do
  match Invocation.read args with
  | .error stop =>
    match stop.text? with
    | some text => (← IO.getStdout).putStr text
    | none => complain stop.message
    pure stop.status.toUInt32
  | .ok invocation => do
    let input ← match invocation.file with
      | some path => fileBytes? path
      | none => do pure (some (← readAll (← IO.getStdin) ByteArray.empty).toList)
    finish (invocation.run (← userConfig) input)

end DottedPath.Command

def main (args : List String) : IO UInt32 :=
  DottedPath.Command.call args
