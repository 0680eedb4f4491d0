import Conformance.Json.Value
import Conformance.Message.Schema
import Conformance.Text.Base64
/-!
# Message validation

A message is dispatched on its `type`, and then every declared field is checked
by itself, so that all violations are reported at once, in declared order. Fields
that the kind does not declare are warned about and never refused.
-/
namespace Conformance.Message
open Conformance

inductive Violation
  | notAnObject
  | missingType
  | typeNotText
  | unknownType (name : String)
  | missingField (field : String)
  | nullValue (field expected : String)
  | wrongType (field expected : String)
  | invalidBase64 (field reason : String)
  | lengthOutOfRange (field : String) (actual min max : Nat)
  | valueOutOfRange (field : String) (value : Int) (min max : Nat)
  | invalidValue (field value : String)
  | tagMismatch (kind : Kind) (actual : Nat)
  deriving DecidableEq

namespace Violation

def hexadecimal (n : Nat) : String :=
  "0x" ++ String.ofList (Nat.toDigits 16 n)

def message : Violation → String
  | notAnObject => "Message must be an object"
  | missingType => "Missing 'type' field"
  | typeNotText => "Type field must be string"
  | unknownType name => "Unknown message type: " ++ name
  | missingField field => "Missing required field: " ++ field
  | nullValue field expected => s!"Field {field} must be {expected}, got null"
  | wrongType field expected => s!"Field {field} must be {expected}"
  | invalidBase64 field reason => s!"Field {field} must be valid base64 (error: {reason})"
  | lengthOutOfRange field actual min max =>
    s!"Field {field} wrong size: {actual} not in {min}..={max}"
  | valueOutOfRange field value min max =>
    s!"Field {field} out of range: {value} not in {min}..={max}"
  | invalidValue field value => s!"Field {field} has invalid value: {value}"
  | tagMismatch kind actual =>
    s!"Tag {hexadecimal actual} does not match {kind.name} ({hexadecimal kind.tag})"

/-- The field that a violation concerns, if it concerns one. -/
def field? : Violation → Option String
  | missingField field => some field
  | nullValue field _ => some field
  | wrongType field _ => some field
  | invalidBase64 field _ => some field
  | lengthOutOfRange field _ _ _ => some field
  | valueOutOfRange field _ _ _ => some field
  | invalidValue field _ => some field
  | _ => none

def fault (v : Violation) : Fault :=
  ⟨.schema, v.message⟩

end Violation

/-- Whether a text field may hold a text. -/
def acceptsText (allowed : List String) (s : String) : Bool :=
  if allowed.isEmpty then 1 ≤ s.utf8ByteSize && s.utf8ByteSize ≤ maxNameLength
  else allowed.contains s

/-- The violation of a kind by a present value that is not null. -/
def FieldKind.violation? (field : String) (kind : FieldKind) (value : Json) : Option Violation :=
  match kind, value with
  | .text allowed, .text s =>
    if acceptsText allowed s then none else some (.invalidValue field s)
  | .integer min max, .number (.whole n) =>
    if min ≤ n ∧ n ≤ max then none else some (.valueOutOfRange field n min max)
  | .binary min max, .text s =>
    match Text.Base64.decode s with
    | .error reason => some (.invalidBase64 field reason.fault.detail)
    | .ok bytes =>
      if min ≤ bytes.length ∧ bytes.length ≤ max then none
      else some (.lengthOutOfRange field bytes.length min max)
  | kind, _ => some (.wrongType field kind.expected)

def Field.violation? (field : Field) : Option Json → Option Violation
  | none => some (.missingField field.name)
  | some .null => some (.nullValue field.name field.kind.expected)
  | some value => field.kind.violation? field.name value

structure Validation where
  valid : Bool
  kind : Option Kind
  errors : List Violation
  warnings : List String

namespace Validation

def refused (violation : Violation) : Validation :=
  ⟨false, none, [violation], []⟩

def finish (v : Validation) : Validation :=
  { v with valid := v.errors.isEmpty }

def messages (v : Validation) : List String :=
  v.errors.map Violation.message

/-- All violations as one fault. -/
def result (v : Validation) : Except Fault Unit :=
  if v.valid then .ok () else .error ⟨.schema, String.intercalate "; " v.messages⟩

end Validation

def Kind.declares (kind : Kind) (key : String) : Bool :=
  key == "type" || kind.fields.any (·.name == key)

def validateFields (kind : Kind) (entries : Json.Object) : Validation :=
  Validation.finish {
    valid := false
    kind := some kind
    errors := kind.fields.filterMap fun field => field.violation? (entries.get? field.name)
    warnings := (entries.filter fun (key, _) => !kind.declares key).map fun (key, _) =>
      "Unknown field: " ++ key }

def validate : Json → Validation
  | .object entries =>
    match Json.Object.get? "type" entries with
    | none => .refused .missingType
    | some (.text name) =>
      match Kind.ofName? name with
      | none => .refused (.unknownType name)
      | some kind => validateFields kind entries
    | some _ => .refused .typeNotText
  | _ => .refused .notAnObject

def Validation.checkTag (tag : Nat) (v : Validation) : Validation :=
  match v.kind with
  | some kind =>
    if kind.tag = tag then v else { v with errors := v.errors ++ [.tagMismatch kind tag] }
  | none => v

/-- Validation of a message that stands under a tag, which must be that of its kind. -/
def validateTagged (tag : Nat) (message : Json) : Validation :=
  ((validate message).checkTag tag).finish

end Conformance.Message
