import Conformance.Fault
import Conformance.Word
/-!
# Message schemas

Nine kinds of message, each with a name in its `type` field, a tag in its tagged
encoding, and a list of required fields in a declared order.
-/
namespace Conformance.Message

/-- What a field may hold. Text without a list of allowed values is a short name of 1 to 256 bytes;
the bounds of binary fields are those of the decoded length. All bounds are inclusive. -/
inductive FieldKind
  | text (allowed : List String)
  | integer (min max : Nat)
  | binary (min max : Nat)
  deriving DecidableEq

def FieldKind.expected : FieldKind → String
  | .text _ => "string"
  | .integer _ _ => "integer"
  | .binary _ _ => "base64 string"

structure Field where
  name : String
  kind : FieldKind
  deriving DecidableEq

inductive Kind
  | handshakeInit
  | handshakeResponse
  | handshakeComplete
  | backup
  | restore
  | reset
  | join
  | leave
  | data
  deriving DecidableEq

namespace Kind

def all : List Kind :=
  [handshakeInit, handshakeResponse, handshakeComplete, backup, restore, reset, join, leave, data]

def name : Kind → String
  | handshakeInit => "HANDSHAKE_INIT"
  | handshakeResponse => "HANDSHAKE_RESPONSE"
  | handshakeComplete => "HANDSHAKE_COMPLETE"
  | backup => "DR_BACKUP"
  | restore => "DR_RESTORE"
  | reset => "DR_RESET"
  | join => "JOIN"
  | leave => "LEAVE"
  | data => "DATA"

def tag : Kind → Nat
  | handshakeInit => 0xD1
  | handshakeResponse => 0xD2
  | handshakeComplete => 0xD3
  | backup => 0xD4
  | restore => 0xD5
  | reset => 0xD6
  | join => 0xE0
  | leave => 0xE1
  | data => 0xE2

def ofName? (name : String) : Option Kind :=
  all.find? (·.name == name)

def ofTag? (tag : Nat) : Option Kind :=
  all.find? (·.tag == tag)

end Kind

namespace Field

def binary (name : String) (size : Nat) : Field := ⟨name, .binary size size⟩

def version : Field := ⟨"version", .integer 1 255⟩
def timestamp : Field := ⟨"timestamp", .integer 0 Word.greatest⟩
def roomId : Field := ⟨"room_id", .text []⟩
def nonce : Field := binary "nonce" 16
def x25519PublicKey : Field := binary "x25519_public_key" 32
def deviceId : Field := binary "device_id" 32
def clientId : Field := binary "client_id" 32

end Field

def resetReasons : List String :=
  ["user_initiated", "security_breach", "device_lost"]

/-- The greatest length of a room name, in bytes. -/
def maxNameLength : Nat := 256

open Message.Field in
/-- The required fields of a kind of message beside its `type`. -/
def Kind.fields : Kind → List Field
  | handshakeInit =>
    [version, clientId, x25519PublicKey, binary "kyber_public_key" 1568, timestamp, nonce]
  | handshakeResponse =>
    [version, binary "server_id" 32, x25519PublicKey, binary "kyber_ciphertext" 1568, timestamp,
      nonce]
  | handshakeComplete =>
    [version, binary "session_id" 32, binary "handshake_hash" 32, timestamp]
  | backup =>
    [version, deviceId, ⟨"dr_data", .binary 1 4096⟩, ⟨"backup_version", .integer 1 255⟩, timestamp]
  | restore => [version, deviceId, binary "restore_token" 32, timestamp]
  | reset => [version, deviceId, ⟨"reset_reason", .text resetReasons⟩, timestamp]
  | join => [version, roomId, clientId, timestamp, nonce]
  | leave => [version, roomId, clientId, timestamp]
  | data =>
    [version, roomId, binary "sender_id" 32, ⟨"sequence", .integer 0 Word.greatest⟩,
      ⟨"ciphertext", .binary 16 65536⟩]

end Conformance.Message
