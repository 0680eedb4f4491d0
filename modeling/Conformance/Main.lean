import Conformance.CommandLine.Run
/-!
# The command line program

Runs the request of the command line on the file system.
-/
namespace Conformance.Main
open Conformance Files

/-- Why the system refused something; what is not told apart counts as denied. -/
def refusalOf : IO.Error → Refusal
  | .noFileOrDirectory .. => .missing
  | .noSuchThing .. => .missing
  | .alreadyExists .. => .present
  | .inappropriateType _ code _ => if code = 21 then .isDirectory else .notDirectory
  | .invalidArgument _ code _ => if code = 36 then .nameTooLong else .denied
  | _ => .denied

def attempt {α : Type} (action : IO α) : IO (Except Refusal α) := do
  match ← action.toBaseIO with
  | .ok a => return .ok a
  | .error e => return .error (refusalOf e)

/-- What is under a path. It is opened first, since only that tells why it cannot be. -/
def readEntry (path : String) : IO Entry := do
  let _ ← IO.FS.Handle.mk path .read
  let place ← IO.FS.realPath path
  let metadata ← place.metadata
  match metadata.type with
  | .dir => return .directory ((← place.readDir).map (·.fileName)).toList
  | .file => return .file (← IO.FS.readBinFile path).data.toList
  | _ => return .device

def disk : Disk IO where
  look path := attempt (readEntry path)
  makeDirectory path := attempt (IO.FS.createDir path)
  write path content := attempt (IO.FS.writeBinFile path ⟨content.toArray⟩)

end Conformance.Main

open Conformance Main CommandLine in
def main (arguments : List String) : IO UInt32 := do
  let env : Environment := ⟨← IO.getEnv "FW_RESULTS_DIR", ← IO.getEnv "FW_DIFF_TIMEOUT_SECS"⟩
  let outcome ← CommandLine.run disk env arguments
  IO.print outcome.printed
  match outcome.error with
  | some error => IO.eprintln ("Error: " ++ error)
  | none => pure ()
  return UInt32.ofNat outcome.exitCode
