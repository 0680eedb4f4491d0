import Conformance.Bytes
import Conformance.Files.Path
import Conformance.Text.Utf8
/-!
# Disks

What a command can do with files, in whatever way they are held: look under a
path, make one directory, and write a whole file.
-/
namespace Conformance.Files
open Conformance

/-- Why an operation on a path is refused. -/
inductive Refusal
  | missing
  | denied
  | present
  | notDirectory
  | isDirectory
  | nameTooLong
  deriving DecidableEq

namespace Refusal

def code : Refusal → Nat
  | missing => 2
  | denied => 13
  | present => 17
  | notDirectory => 20
  | isDirectory => 21
  | nameTooLong => 36

def reason : Refusal → String
  | missing => "No such file or directory"
  | denied => "Permission denied"
  | present => "File exists"
  | notDirectory => "Not a directory"
  | isDirectory => "Is a directory"
  | nameTooLong => "File name too long"

def message (r : Refusal) : String :=
  s!"{r.reason} (os error {r.code})"

end Refusal

inductive Entry
  | file (content : Bytes)
  | directory (names : List String)
  /-- Reads as empty, and takes all that is written to it. -/
  | device

structure Disk (m : Type → Type) where
  look : (path : String) → m (Except Refusal Entry)
  makeDirectory : (path : String) → m (Except Refusal Unit)
  write : (path : String) → (content : Bytes) → m (Except Refusal Unit)

/-- The text of what was found, or why there is none. -/
def text : Except Refusal Entry → Except String String
  | .error refusal => .error refusal.message
  | .ok (.directory _) => .error Refusal.isDirectory.message
  | .ok .device => .ok ""
  | .ok (.file content) =>
    match Text.Utf8.decode content with
    | .ok text => .ok text
    | .error _ => .error "stream did not contain valid UTF-8"

namespace Disk
variable {m : Type → Type} [Monad m]

def isDirectory (disk : Disk m) (path : String) : m Bool := do
  match ← disk.look path with
  | .ok (.directory _) => return true
  | _ => return false

/-- Makes a directory, which may be there already. -/
def ensureDirectory (disk : Disk m) (path : String) : m (Except Refusal Unit) := do
  match ← disk.makeDirectory path with
  | .ok _ => return .ok ()
  | .error refusal => if ← disk.isDirectory path then return .ok () else return .error refusal

/-- Makes the first of some directories, each of which lies in the next, and those it needs. -/
def ensureFirst (disk : Disk m) : List String → m (Except Refusal Unit)
  | [] => return .ok ()
  | path :: above => do
    match ← disk.ensureDirectory path with
    | .ok _ => return .ok ()
    | .error .missing =>
      match ← disk.ensureFirst above with
      | .ok _ => disk.ensureDirectory path
      | .error refusal => return .error refusal
    | .error refusal => return .error refusal

/-- Makes a directory and all that lead to it. -/
def ensurePath (disk : Disk m) (path : String) : m (Except Refusal Unit) :=
  disk.ensureFirst (Path.ancestors path)

end Disk
end Conformance.Files
