import Conformance.Decimal.Nearest
import Conformance.Json.Literal
/-!
# Typed records in JSON texts

A reader turns a literal into a value of some type or refuses it. A record is
written as an object, where unknown keys are skipped and a known key may stand
only once, or as the array of its fields in their declared order.
-/
namespace Conformance.Json

/-- Reads a literal that has room for so many further levels of nesting. -/
abbrev Reader (α : Type) := (room : Nat) → Literal → Option α

namespace Reader

def text : Reader String
  | _, .text s => s
  | _, _ => none

def boolean : Reader Bool
  | _, .boolean b => some b
  | _, _ => none

/-- A whole number from `low` to `high`. -/
def whole (low high : Int) : Reader Int
  | _, .number (some (.whole n)) => if low ≤ n ∧ n ≤ high then some n else none
  | _, _ => none

def signed : Reader Int :=
  whole Word.leastSigned Word.greatestSigned

def unsigned : Reader Nat :=
  fun room literal => (whole 0 Word.greatest room literal).map Int.toNat

/-- Whole numbers are taken to the nearest double. -/
def real : Reader Float
  | _, .number (some (.whole n)) => some (Decimal.nearest n)
  | _, .number (some (.real x)) => some x
  | _, _ => none

def value : Reader Json :=
  fun room literal => literal.value? room

def object : Reader Object :=
  fun room literal => do
    match ← literal.value? room with
    | .object entries => some entries
    | _ => none

def list {α : Type} (item : Reader α) : Reader (List α)
  | 0, _ => none
  | room + 1, .array items => items.mapM (item room)
  | _, _ => none

/-- A repeated name keeps the last item; the result is in the order of the names. -/
def byName {α : Type} (item : Reader α) : Reader (List (String × α))
  | 0, _ => none
  | room + 1, .object entries => do
    let items ← entries.mapM fun (key, literal) => do
      return (← key, ← item room literal)
    return items.foldl put []
  | _, _ => none
where
  put (sorted : List (String × α)) : String × α → List (String × α)
    | (key, item) =>
      sorted.takeWhile (·.1 < key) ++ (key, item) :: sorted.dropWhile (·.1 ≤ key)

def nullable {α : Type} (item : Reader α) : Reader (Option α)
  | _, .null => some none
  | room, literal => (item room literal).map some

/-- A bare name out of a list, also written as an object that maps the name to nothing. -/
def choice {α : Type} (nothing : Literal → Bool) (choices : List (String × α)) : Reader α
  | _, .text (some s) => choices.lookup s
  | _ + 1, .object [(some s, literal)] => if nothing literal then choices.lookup s else none
  | _, _ => none

end Reader

def Literal.isNull : Literal → Bool
  | .null => true
  | _ => false

def Literal.isNullOrEmpty : Literal → Bool
  | .null => true
  | .object [] => true
  | _ => false

/-- The fields of one record. A record written as an array may leave out trailing fields only
where the field has a default. -/
structure Fields where
  room : Nat
  present : List (String × Literal)

namespace Fields

/-- The entries under known names, none of which may stand twice. -/
def known (names : List String) : List (Option String × Literal) →
    Option (List (String × Literal))
  | [] => some []
  | (key, literal) :: rest => do
    let key ← key
    let others ← known names rest
    if names.contains key then
      if (others.lookup key).isSome then none else some ((key, literal) :: others)
    else some others

def of? (names : List String) : (room : Nat) → Literal → Option Fields
  | room + 1, .object entries => (known names entries).map fun present => ⟨room, present⟩
  | room + 1, .array items =>
    if items.length ≤ names.length then some ⟨room, names.zip items⟩ else none
  | _, _ => none

variable {α : Type}

def required (fields : Fields) (name : String) (reader : Reader α) : Option α := do
  reader fields.room (← fields.present.lookup name)

def orDefault (fields : Fields) (name : String) (reader : Reader α) (default : α) : Option α :=
  match fields.present.lookup name with
  | some literal => reader fields.room literal
  | none => some default

/-- An optional field: null, or left out. -/
def optionalOrDefault (fields : Fields) (name : String) (reader : Reader α) : Option (Option α) :=
  fields.orDefault name reader.nullable none

end Fields

namespace Reader

def record {α : Type} (names : List String) (build : Fields → Option α) : Reader α :=
  fun room literal => (Fields.of? names room literal).bind build

/-- One case of a record whose `kind` field says which further fields it has. -/
structure Case (α : Type) where
  kind : String
  names : List String
  build : Fields → Option α

/-- The case that a kind selects, by its name or by its position. -/
def Case.select {α : Type} (cases : List (Case α)) : Literal → Option (Case α)
  | .text (some s) => cases.find? (·.kind == s)
  | .number (some (.whole (.ofNat n))) => cases[n]?
  | _ => none

/-- An identifier beside the fields of one case. All fields but the identifier are read as values
before the case is known, so none of them may be out of range. -/
def identified {α : Type} (cases : List (Case α)) : Reader (String × α)
  | 0, _ => none
  | room + 1, .object entries => do
    let head ← Fields.known ["id", "kind"] entries
    let id ← text room (← head.lookup "id")
    let case ← Case.select cases (← head.lookup "kind")
    let others := entries.filter fun (key, _) => key != some "id"
    let _ ← entryValues? room others
    let present ← Fields.known case.names (others.filter fun (key, _) => key != some "kind")
    let content ← case.build ⟨room, present⟩
    return (id, content)
  | _, _ => none

end Reader

def Reader.read? {α : Type} (reader : Reader α) (text : String) : Option α := do
  reader maxNesting (← Literal.parse text)

end Conformance.Json
