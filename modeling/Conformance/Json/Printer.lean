import Conformance.Decimal.Notation
import Conformance.Json.Value
import Conformance.Text.Hex
/-!
# Printed JSON

Two layouts of a JSON value: on one line, and indented by two blanks a level.
-/
namespace Conformance.Json

def escape (c : Char) : String :=
  if c = '"' then "\\\""
  else if c = '\\' then "\\\\"
  else if c = '\x08' then "\\b"
  else if c = '\x0C' then "\\f"
  else if c = '\n' then "\\n"
  else if c = '\r' then "\\r"
  else if c = '\t' then "\\t"
  else if c.toNat < 0x20 then "\\u00" ++ String.ofList (Text.Hex.ofByte (UInt8.ofNat c.toNat))
  else c.toString

def quoted (text : String) : String :=
  "\"" ++ String.join (text.toList.map escape) ++ "\""

def Number.print : Number → String
  | .whole n => toString n
  | .real x => Decimal.jsonText x

mutual

def print : Json → String
  | .null => "null"
  | .boolean b => if b then "true" else "false"
  | .number n => n.print
  | .text s => quoted s
  | .array items => "[" ++ String.intercalate "," (printItems items) ++ "]"
  | .object entries => "\x7b" ++ String.intercalate "," (printEntries entries) ++ "\x7d"

def printItems : List Json → List String
  | [] => []
  | item :: rest => print item :: printItems rest

def printEntries : List (String × Json) → List String
  | [] => []
  | (key, value) :: rest => (quoted key ++ ":" ++ print value) :: printEntries rest

end

def newline (level : Nat) : String :=
  "\n" ++ String.ofList (List.replicate (2 * level) ' ')

/-- Bracketed lines, one level deeper than the brackets. -/
def bracketed (left right : String) (level : Nat) (lines : List String) : String :=
  if lines.isEmpty then left ++ right
  else left ++ newline (level + 1) ++ String.intercalate ("," ++ newline (level + 1)) lines
    ++ newline level ++ right

mutual

def indented (level : Nat) : Json → String
  | .array items => bracketed "[" "]" level (indentedItems (level + 1) items)
  | .object entries => bracketed "\x7b" "\x7d" level (indentedEntries (level + 1) entries)
  | .null => "null"
  | .boolean b => if b then "true" else "false"
  | .number n => n.print
  | .text s => quoted s

def indentedItems (level : Nat) : List Json → List String
  | [] => []
  | item :: rest => indented level item :: indentedItems level rest

def indentedEntries (level : Nat) : List (String × Json) → List String
  | [] => []
  | (key, value) :: rest =>
    (quoted key ++ ": " ++ indented level value) :: indentedEntries level rest

end

end Conformance.Json
