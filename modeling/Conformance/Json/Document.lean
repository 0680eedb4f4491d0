import Conformance.Json.Printer
/-!
# Documents

JSON as it is written to a file: the fields of a record keep an order of their
own there, which its value does not show.
-/
namespace Conformance

inductive Json.Document
  | value (json : Json)
  | list (items : List Json.Document)
  | record (fields : List (String × Json.Document))

namespace Json.Document

mutual

def toJson : Document → Json
  | .value json => json
  | .list items => .array (itemsToJson items)
  | .record fields => .ofEntries (fieldsToJson fields)

def itemsToJson : List Document → List Json
  | [] => []
  | item :: rest => toJson item :: itemsToJson rest

def fieldsToJson : List (String × Document) → List (String × Json)
  | [] => []
  | (name, field) :: rest => (name, toJson field) :: fieldsToJson rest

end

mutual

def indented (level : Nat) : Document → String
  | .value json => json.indented level
  | .list items => bracketed "[" "]" level (indentedItems (level + 1) items)
  | .record fields => bracketed "\x7b" "\x7d" level (indentedFields (level + 1) fields)

def indentedItems (level : Nat) : List Document → List String
  | [] => []
  | item :: rest => indented level item :: indentedItems level rest

def indentedFields (level : Nat) : List (String × Document) → List String
  | [] => []
  | (name, field) :: rest =>
    (quoted name ++ ": " ++ indented level field) :: indentedFields level rest

end

def text (s : String) : Document := value (.text s)
def texts (texts : List String) : Document := value (.ofTexts texts)
def boolean (b : Bool) : Document := value (.boolean b)
def nat (n : Nat) : Document := value (.ofNat n)

end Json.Document
end Conformance
