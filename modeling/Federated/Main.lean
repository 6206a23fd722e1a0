/-
  Federated.Main

  The program: reads its arguments and the configuration file, trains, and tells a failure on
  the error stream. Progress is told there too if `FEDERATED_LOG` is set.
-/
import Federated.CommandLine

namespace Federated

namespace CommandLine

/-- The words for a file that could not be read, with the number of the fault. -/
def fileFault : IO.Error → String
  | .noFileOrDirectory _ _ _ => missingFile
  | .permissionDenied _ code details | .inappropriateType _ code details
  | .resourceExhausted _ code details | .invalidArgument _ code details
  | .noSuchThing _ code details | .otherError code details | .resourceBusy code details
  | .hardwareFault code details => details ++ " (os error " ++ toString code ++ ")"
  | e => toString e

/-- The content of a file, or why it could not be read. -/
def readContent (path : String) : IO FileContent := do
  try
    return .ok (← IO.FS.readBinFile path)
  catch e =>
    return .error (fileFault e)

/-- The request that the arguments make, the configuration file read. -/
def requestOf : List String → IO Request
  | [] => return ⟨none, none⟩
  | path :: rest => return ⟨some (path, ← readContent path), rest.head?⟩

end CommandLine

end Federated

open Federated

/-- The entry point. -/
def main (args : List String) : IO UInt32 := do
  let transcript := CommandLine.run (← CommandLine.requestOf args)
  if (← IO.getEnv "FEDERATED_LOG").isSome then
    for note in transcript.notes do
      IO.eprintln note
  match transcript.halt with
  | none => pure ()
  | some (.error failure) => IO.eprintln (CommandLine.failureText failure)
  | some (.defect defect) =>
    IO.eprintln (defect.message?.getD "the training has no answer")
  return UInt32.ofNat transcript.exitCode
