import Conformance.Files.Disk
/-!
# Trees of files

A disk held in memory: places are lists of names from the root on, and one of
them is where relative paths start. Paths are walked part by part, so that every
part but the last has to be a directory, even if a later part steps up again.
-/
namespace Conformance.Files
open Conformance

abbrev Place := List String

inductive Node
  | file (content : Bytes)
  | directory
  | device
  deriving DecidableEq

structure Tree where
  nodes : List (Place × Node)
  here : Place
  deriving DecidableEq

namespace Tree

def maxNameLength : Nat := 255
def maxPathLength : Nat := 4095

/-- The directories of a place and of all on the way to it, but for the root. -/
def way (place : Place) : List Place :=
  (List.range place.length).map fun n => place.take (n + 1)

def node? (t : Tree) (place : Place) : Option Node :=
  if place = [] then some .directory else t.nodes.lookup place

def put (t : Tree) (place : Place) (node : Node) : Tree :=
  { t with nodes := (place, node) :: t.nodes.filter (·.1 ≠ place) }

def addDirectory (t : Tree) (place : Place) : Tree :=
  (way place).foldl (fun t place => if (t.node? place).isSome then t else t.put place .directory) t

/-- Adds a file with the directories that lead to it. -/
def addFile (t : Tree) (place : Place) (content : Bytes) : Tree :=
  (t.addDirectory place.dropLast).put place (.file content)

/-- What every system has, and an empty directory to work in. -/
def system : Tree :=
  let here := ["tmp", "work"]
  let directories := [["bin"], ["dev"], ["etc"], ["home"], ["proc"], ["root"], ["tmp"],
    ["usr", "bin"], ["var"], here]
  let programs := ["cat", "dash", "echo", "false", "printf", "sh", "sleep", "true"]
  let devices := ["full", "null", "stderr", "stdin", "stdout", "tty", "zero"]
  let t := directories.foldl addDirectory ⟨[], here⟩
  let t := programs.foldl (fun t name => t.addFile ["bin", name] []) t
  let t := programs.foldl (fun t name => t.addFile ["usr", "bin", name] []) t
  devices.foldl (fun t name => t.put ["dev", name] .device) t

/-- The tree of a system whose working directory holds some files. -/
def ofFiles (files : List (String × Bytes)) : Tree :=
  files.foldl (fun t (path, content) => t.addFile (t.here ++ Path.parts path) content) system

/-- Goes one part further from a place, which has to be a directory. -/
def step (t : Tree) (place : Place) (part : String) : Except Refusal Place :=
  match t.node? place with
  | none => .error .missing
  | some .directory =>
    if Path.isIdle part then .ok place
    else if part = ".." then .ok place.dropLast
    else if maxNameLength < part.utf8ByteSize then .error .nameTooLong
    else .ok (place ++ [part])
  | some _ => .error .notDirectory

/-- The place that a path leads to; the last part need not be there. -/
def walk (t : Tree) (path : String) : Except Refusal Place :=
  if path = "" then .error .missing
  else if maxPathLength < path.utf8ByteSize then .error .nameTooLong
  else (Path.parts path).foldlM t.step (if Path.isAbsolute path then [] else t.here)

def names (t : Tree) (place : Place) : List String :=
  t.nodes.filterMap fun (other, _) => if other.dropLast = place then other.getLast? else none

def look (t : Tree) (path : String) : Except Refusal Entry := do
  let place ← t.walk path
  match t.node? place with
  | none => .error .missing
  | some (.file content) => .ok (.file content)
  | some .device => .ok .device
  | some .directory => .ok (.directory (t.names place))

/-- A path of a directory may end in slashes; one that ends by stepping is there already. -/
def makeDirectory (t : Tree) (path : String) : Except Refusal Tree := do
  let parts := ((Path.parts path).reverse.dropWhile (· = "")).reverse
  let place ← t.walk (Path.ofParts parts)
  if parts.getLast? = some "." ∨ parts.getLast? = some ".." ∨ (t.node? place).isSome then
    .error .present
  else .ok (t.put place .directory)

/-- A path of a file that does not end in a name is one of a directory. -/
def write (t : Tree) (path : String) (content : Bytes) : Except Refusal Tree := do
  let place ← t.walk path
  match t.node? place with
  | some .directory => .error .isDirectory
  | some .device => .ok t
  | _ => .ok (t.put place (.file content))

/-- The outcome of a change, with the tree after it. -/
def change (result : Tree → Except Refusal Tree) : StateM Tree (Except Refusal Unit) :=
  fun t =>
    match result t with
    | .ok t => (.ok (), t)
    | .error refusal => (.error refusal, t)

def disk : Disk (StateM Tree) where
  look path := return (← get).look path
  makeDirectory path := change (·.makeDirectory path)
  write path content := change (·.write path content)

/-- The files below the working directory, by their relative paths. -/
def files (t : Tree) : List (String × Bytes) :=
  t.nodes.filterMap fun (place, node) =>
    match node with
    | .file content =>
      if t.here.isPrefixOf place then
        some (String.intercalate "/" (place.drop t.here.length), content)
      else none
    | _ => none

/-- The files that another tree does not have in this way. -/
def filesUnlike (t before : Tree) : List (String × Bytes) :=
  t.files.filter fun entry => !before.files.contains entry

end Tree
end Conformance.Files
