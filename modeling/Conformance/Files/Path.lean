/-!
# Paths

A path is a text with slashes between its parts. The parts may be empty, and
stepping up is left to whoever walks the path, since it depends on what is there.
-/
namespace Conformance.Files.Path

/-- Splits at slashes; what stands between two of them may be empty. -/
def split : List Char → List (List Char)
  | [] => [[]]
  | '/' :: rest => [] :: split rest
  | c :: rest =>
    match split rest with
    | [] => [[c]]
    | part :: parts => (c :: part) :: parts

def parts (path : String) : List String :=
  (split path.toList).map String.ofList

def isAbsolute (path : String) : Bool :=
  path.startsWith "/"

/-- A path below a directory; an absolute one is below no other. -/
def join (directory name : String) : String :=
  if directory = "" ∨ isAbsolute name then name
  else if directory.endsWith "/" then directory ++ name
  else directory ++ "/" ++ name

/-- A part that leads nowhere else. -/
def isIdle (part : String) : Bool :=
  part == "" || part == "."

/-- Removes idle parts from the end; the first part always stays. -/
def trimIdle (parts : List String) : List String :=
  match parts with
  | [] => []
  | first :: rest => first :: (rest.reverse.dropWhile isIdle).reverse

/-- The path of some parts; only the root has a single empty one. -/
def ofParts : List String → String
  | [""] => "/"
  | parts => String.intercalate "/" parts

/-- The path without its last part, empty where only one is left. -/
def parent (path : String) : String :=
  ofParts (trimIdle (trimIdle (parts path)).dropLast)

/-- The parts of a path that a directory has to be made for, longest first, as paths. -/
def ancestors (path : String) : List String :=
  climb (parts path).length path
where
  climb : Nat → String → List String
    | 0, _ => []
    | n + 1, path => if path = "" ∨ path = "/" then [] else path :: climb n (parent path)

end Conformance.Files.Path
