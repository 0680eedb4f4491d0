import Conformance.Canonical.Header
import Conformance.Canonical.Value
import Conformance.Decimal.Notation
import Conformance.Digest.Sha256
import Conformance.Json.Printer
/-!
# Canonical encoding

A value is written as a header and its content. The entries of a map are written
in the order of their encoded keys, no two of which may be equal, so the bytes do
not depend on the order in which the entries were given.
-/
namespace Conformance.Canonical
open Conformance

/-- Why something has no canonical encoding. -/
inductive EncodeRefusal
  | duplicateKey (encodedKey : Bytes)
  | null
  | boolean
  | negativeInteger
  | tooLarge (n : Json.Number)
  | fractional (n : Json.Number)

def EncodeRefusal.detail : EncodeRefusal → String
  | .duplicateKey key => "duplicate map key " ++ Text.Hex.encode key
  | .null => "unsupported value kind: null"
  | .boolean => "unsupported value kind: bool"
  | .negativeInteger => "unsupported value kind: negative integer"
  | .tooLarge n => "integer exceeds 64-bit domain: " ++ n.print
  | .fractional n => "unsupported value kind: non-integer number " ++ n.print

def EncodeRefusal.fault (r : EncodeRefusal) : Fault :=
  ⟨.encode, r.detail⟩

/-- An encoded key with its encoded value. -/
abbrev EncodedEntry := Bytes × Bytes

def sortEntries (entries : List EncodedEntry) : List EncodedEntry :=
  entries.mergeSort fun a b => (keyOrder a.1 b.1).isLE

/-- The first key that stands twice in a row. -/
def repeatedKey? : List EncodedEntry → Option Bytes
  | (k, _) :: (l, w) :: rest => if k = l then some k else repeatedKey? ((l, w) :: rest)
  | _ => none

def writeMap (entries : List EncodedEntry) : Except EncodeRefusal Bytes :=
  let sorted := sortEntries entries
  match repeatedKey? sorted with
  | some key => .error (.duplicateKey key)
  | none => .ok (Header.write .map sorted.length ++ sorted.flatMap fun (key, value) => key ++ value)

mutual

def encode : Value → Except EncodeRefusal Bytes
  | .unsigned n => .ok (Header.write .unsigned n.toNat)
  | .bytes b => .ok (Header.write .bytes b.length ++ b)
  | .text s =>
    let b := Bytes.ofString s
    .ok (Header.write .text b.length ++ b)
  | .array items => do
    let content ← encodeItems items
    return Header.write .array items.length ++ content
  | .map entries => do
    writeMap (← encodeEntries entries)

def encodeItems : List Value → Except EncodeRefusal Bytes
  | [] => .ok []
  | item :: rest => do
    let first ← encode item
    let others ← encodeItems rest
    return first ++ others

def encodeEntries : List (Value × Value) → Except EncodeRefusal (List EncodedEntry)
  | [] => .ok []
  | (key, value) :: rest => do
    let key ← encode key
    let value ← encode value
    let others ← encodeEntries rest
    return (key, value) :: others

end

/-- A value under a tag that names the kind of message it is. -/
def encodeTagged (tag : UInt64) (value : Value) : Except EncodeRefusal Bytes := do
  let content ← encode value
  return Header.write .tag tag.toNat ++ content

def digest (value : Value) : Except EncodeRefusal Bytes := do
  return Sha256.digest (← encode value)

end Conformance.Canonical
