import Conformance.Proofs.KeySchedule.SessionKeys
import Mathlib.Algebra.Order.Floor.Div

/-!
# Derived keys block by block

The derivation is defined over any hash function: a keyed digest extracts a key from the
secret, and the same keyed digest turns it into a chain of numbered blocks, of which the
output is a beginning. Over SHA-256 the key schedule computes this derivation at every
length that it takes, so that a shorter output is a beginning of a longer one.
-/
namespace Conformance

/-- A hash function with the sizes of the blocks that it takes in and of its digests. -/
structure HashFunction where
  digest : Bytes → Bytes
  blockSize : ℕ
  digestSize : ℕ

namespace HashFunction

variable (H : HashFunction)

/-- A key fills one block; one that is longer is digested first. -/
def blockKey (key : Bytes) : Bytes :=
  (if key.length ≤ H.blockSize then key else H.digest key).rightpad H.blockSize 0

/-- The digest of the text under the inner pad, digested again under the outer pad. -/
def mac (key text : Bytes) : Bytes :=
  let inner := Bytes.xor (H.blockKey key) (List.replicate H.blockSize 0x36)
  let outer := Bytes.xor (H.blockKey key) (List.replicate H.blockSize 0x5c)
  H.digest (outer ++ H.digest (inner ++ text))

/-- An absent salt is a digest of zeros. -/
def extract (salt : Option Bytes) (ikm : Bytes) : Bytes :=
  H.mac (salt.getD (List.replicate H.digestSize 0)) ikm

/-- Block 0 is empty, and each later block digests the one before it, the label and the number of
the block in one octet. -/
def block (key label : Bytes) : ℕ → Bytes
  | 0 => []
  | i + 1 => H.mac key (block key label i ++ label ++ [UInt8.ofNat (i + 1)])

/-- The first `length` octets of the blocks from number 1 on, as many as it takes. -/
def expand (key label : Bytes) (length : ℕ) : Bytes :=
  ((List.range (length ⌈/⌉ H.digestSize)).flatMap fun i => H.block key label (i + 1)).take length

/-- Extraction, then expansion. -/
def derive (ikm : Bytes) (salt : Option Bytes) (label : Bytes) (length : ℕ) : Bytes :=
  H.expand (H.extract salt ikm) label length

end HashFunction

def sha256 : HashFunction := ⟨Sha256.digest, 64, 32⟩

namespace Hmac

theorem length_blockKey (key : Bytes) : (blockKey key).length = blockSize := by
  have hroom : (if blockSize < key.length then Sha256.digest key else key).length ≤ blockSize := by
    split_ifs with h
    · rw [Sha256.length_digest]
      decide
    · exact not_lt.mp h
  unfold blockKey
  rw [List.length_append, Bytes.length_zeros, Nat.add_sub_cancel' hroom]

theorem blockKey_eq (key : Bytes) : sha256.blockKey key = blockKey key := by
  unfold HashFunction.blockKey blockKey
  by_cases h : key.length ≤ sha256.blockSize
  · have hshort : ¬ blockSize < key.length := not_lt.mpr h
    rw [if_pos h, if_neg hshort]
    rfl
  · have hlong : blockSize < key.length := not_le.mp h
    rw [if_neg h, if_pos hlong]
    rfl

theorem xor_replicate {bytes : Bytes} {n : ℕ} (h : bytes.length = n) (b : UInt8) :
    Bytes.xor bytes (List.replicate n b) = bytes.map (· ^^^ b) := by
  apply List.ext_getElem
  · simp [h]
  · intro i _ _
    simp [Bytes.xor]

theorem mac_eq (key text : Bytes) : sha256.mac key text = digest key text := by
  have hpad (b : UInt8) : Bytes.xor (sha256.blockKey key) (List.replicate sha256.blockSize b) =
      (blockKey key).map (· ^^^ b) := by
    rw [blockKey_eq]
    exact xor_replicate (length_blockKey key) b
  simp only [HashFunction.mac, hpad]
  rfl

end Hmac

namespace Hkdf

theorem extract_eq (salt : Option Bytes) (ikm : Bytes) :
    sha256.extract salt ikm = extract salt ikm := by
  rw [HashFunction.extract, Hmac.mac_eq]
  rfl

/-- Either way the key is a block of zeros. -/
theorem extract_none (ikm : Bytes) : extract none ikm = extract (some []) ikm := by
  have hkey : Hmac.blockKey (Bytes.zeros 32) = Hmac.blockKey [] := by decide
  unfold extract Hmac.digest
  rw [Option.getD_none, Option.getD_some, hkey]

variable (key label : Bytes)

theorem length_block (i : ℕ) : (sha256.block key label (i + 1)).length = 32 := by
  rw [HashFunction.block, Hmac.mac_eq, Hmac.length_digest]

/-- Each block is computed from the one before it, wherever the chain is entered. -/
theorem blocks_eq (count i : ℕ) :
    blocks key label count (i + 1) (sha256.block key label i) =
      (List.range count).flatMap fun j => sha256.block key label (i + j + 1) := by
  induction count generalizing i with
  | zero => rfl
  | succ count ih =>
    have hblock : Hmac.digest key (sha256.block key label i ++ label ++ [UInt8.ofNat (i + 1)]) =
        sha256.block key label (i + 1) := by
      rw [HashFunction.block, Hmac.mac_eq]
    rw [blocks, hblock, ih, List.range_succ_eq_map, List.flatMap_cons, List.flatMap_map]
    simp only [add_zero, Nat.succ_eq_add_one, add_assoc, add_comm 1]

theorem expand_eq (length : ℕ) : sha256.expand key label length = expand key label length := by
  have hcount : length ⌈/⌉ sha256.digestSize = (length + 31) / 32 := Nat.ceilDiv_eq_add_pred_div _ _
  have hblocks := blocks_eq key label ((length + 31) / 32) 0
  simp only [zero_add] at hblocks
  rw [HashFunction.expand, hcount, ← hblocks]
  rfl

theorem blocks_add (m n i : ℕ) (previous : Bytes) :
    ∃ rest, blocks key label (m + n) i previous = blocks key label m i previous ++ rest := by
  induction m generalizing i previous with
  | zero => exact ⟨_, rfl⟩
  | succ m ih =>
    obtain ⟨rest, hrest⟩ := ih (i + 1) (Hmac.digest key (previous ++ label ++ [UInt8.ofNat i]))
    refine ⟨rest, ?_⟩
    rw [Nat.succ_add, blocks, blocks, hrest]
    exact (List.append_assoc _ _ _).symm

/-- What is asked for beyond a length does not change what comes before it. -/
theorem take_expand {m n : ℕ} (h : m ≤ n) : (expand key label n).take m = expand key label m := by
  have hcount : (m + 31) / 32 + ((n + 31) / 32 - (m + 31) / 32) = (n + 31) / 32 := by omega
  obtain ⟨rest, hrest⟩ := blocks_add key label ((m + 31) / 32) ((n + 31) / 32 - (m + 31) / 32) 1 []
  have hroom : m ≤ (blocks key label ((m + 31) / 32) 1 []).length := by
    rw [length_blocks]
    omega
  rw [expand, List.take_take, min_eq_left h, ← hcount, hrest, List.take_append_of_le_length hroom,
    expand]

theorem expand_whole_blocks (i : ℕ) :
    expand key label (32 * i) =
      (List.range i).flatMap fun j => sha256.block key label (j + 1) := by
  have hcount : (32 * i + 31) / 32 = i := by omega
  have hblocks := blocks_eq key label i 0
  simp only [zero_add] at hblocks
  rw [expand, hcount, ← hblocks]
  apply List.take_of_length_le
  rw [length_blocks, mul_comm]

/-- The output at the place of a block is that block, cut where the output ends. -/
theorem take_drop_expand (length i : ℕ) :
    ((expand key label length).drop (32 * i)).take 32 =
      (sha256.block key label (i + 1)).take (length - 32 * i) := by
  have hsucc : expand key label (32 * (i + 1)) =
      expand key label (32 * i) ++ sha256.block key label (i + 1) := by
    rw [expand_whole_blocks, expand_whole_blocks, List.range_succ, List.flatMap_append,
      List.flatMap_singleton]
  have hblock : (expand key label (32 * (i + 1))).drop (32 * i) =
      sha256.block key label (i + 1) := by
    rw [hsucc]
    exact List.drop_left' (length_expand key label (32 * i))
  rw [List.take_drop, ← Nat.mul_succ, ← hblock]
  by_cases h : length ≤ 32 * (i + 1)
  · rw [List.take_of_length_le (by rw [length_expand]; exact h), ← take_expand key label h,
      List.drop_take]
  · rw [take_expand key label (le_of_not_ge h), List.take_of_length_le]
    rw [List.length_drop, length_expand]
    omega

end Hkdf

namespace KeySchedule

variable (ikm : Bytes) (salt : Option Bytes) (label : Bytes)

theorem derive_eq_error_iff (length : ℕ) (refusal : Refusal) :
    derive ikm salt label length = .error refusal ↔
      (length = 0 ∨ Hkdf.maxLength < length) ∧ refusal = .outputLength length := by
  rw [derive, Hkdf.derive?]
  by_cases h : length = 0 ∨ Hkdf.maxLength < length
  · simp [h, eq_comm]
  · simp [h]

theorem derive_eq_ok_iff (length : ℕ) (okm : Bytes) :
    derive ikm salt label length = .ok okm ↔
      ¬ (length = 0 ∨ Hkdf.maxLength < length) ∧
        okm = Hkdf.expand (Hkdf.extract salt ikm) label length := by
  rw [derive, Hkdf.derive?]
  by_cases h : length = 0 ∨ Hkdf.maxLength < length
  · simp [h]
  · simp [h, eq_comm]

theorem sha256_derive_eq (length : ℕ) : sha256.derive ikm salt label length =
    Hkdf.expand (Hkdf.extract salt ikm) label length := by
  rw [HashFunction.derive, Hkdf.expand_eq, Hkdf.extract_eq]

variable (secret sessionId : Bytes)

theorem length_authentication :
    (sessionKeys secret sessionId).authentication.length = 32 := by
  rw [sessionKeys, SessionKeys.split, List.length_take, List.length_drop, length_sessionBlock]
  rfl

theorem append_sessionKeys :
    (sessionKeys secret sessionId).encryption ++ (sessionKeys secret sessionId).authentication ++
      (sessionKeys secret sessionId).nonce = sessionBlock secret sessionId := by
  have hnonce : (sessionBlock secret sessionId).drop 64 =
      ((sessionBlock secret sessionId).drop 32).drop 32 := by
    rw [List.drop_drop]
  rw [sessionKeys, SessionKeys.split, hnonce, List.append_assoc, List.take_append_drop,
    List.take_append_drop]

/-- Keys are derived over SHA-256 at each length from 1 to 8160, octet for octet and block by block,
and at no other. What is asked for beyond a length does not change what comes before it, an empty
salt is no salt, and the keys of a session are the pieces of one derivation of 76 octets, the first
of them the derivation of 32. -/
theorem derives_block_by_block (ikm label : Bytes) (salt : Option Bytes) :
    (∀ length, (∃ refusal, derive ikm salt label length = .error refusal) ↔
      length = 0 ∨ 8160 < length) ∧
    (∀ length refusal, derive ikm salt label length = .error refusal →
      refusal.fault.kind = .derivation) ∧
    (∀ length, 1 ≤ length → length ≤ 8160 →
      derive ikm salt label length = .ok (sha256.derive ikm salt label length) ∧
      (sha256.derive ikm salt label length).length = length ∧
      ∀ i, ((sha256.derive ikm salt label length).drop (32 * i)).take 32 =
        (sha256.block (sha256.extract salt ikm) label (i + 1)).take (length - 32 * i)) ∧
    derive ikm salt label 32 = .ok (deriveKey ikm salt label) ∧
    (∀ m n short long, derive ikm salt label m = .ok short → derive ikm salt label n = .ok long →
      m ≤ n → short <+: long) ∧
    (∀ length, derive ikm none label length = derive ikm (some []) label length) ∧
    ∀ secret sessionId,
      let keys := sessionKeys secret sessionId
      let derived (length : ℕ) :=
        derive secret (some sessionId) (.ofString "FoxWhisper-SessionKeys") length
      (derived 76 >>= SessionKeys.ofBlock) = .ok keys ∧
      derived 76 = .ok (keys.encryption ++ keys.authentication ++ keys.nonce) ∧
      keys.encryption.length = 32 ∧ keys.authentication.length = 32 ∧ keys.nonce.length = 12 ∧
      derived 32 = .ok keys.encryption := by
  refine ⟨fun length => ?_, fun length refusal h => ?_, fun length hpos hmax => ?_,
    derive_eq_ok (by decide) (by decide) ikm salt label, ?_, fun length => ?_,
    fun secret sessionId => ?_⟩
  · simp only [derive_eq_error_iff, exists_and_left, exists_eq, and_true]
    exact Iff.rfl
  · rw [((derive_eq_error_iff ikm salt label length refusal).mp h).2]
    rfl
  · rw [sha256_derive_eq, Hkdf.extract_eq]
    exact ⟨derive_eq_ok (by omega) hmax ikm salt label, Hkdf.length_expand _ _ _,
      Hkdf.take_drop_expand _ _ _⟩
  · intro m n short long hshort hlong hmn
    rw [((derive_eq_ok_iff ikm salt label m short).mp hshort).2,
      ((derive_eq_ok_iff ikm salt label n long).mp hlong).2, ← Hkdf.take_expand _ _ hmn]
    exact List.take_prefix _ _
  · rw [derive, derive, Hkdf.derive?, Hkdf.derive?, Hkdf.extract_none]
  · intro keys derived
    refine ⟨ofBlock_derive secret sessionId, ?_, length_encryption secret sessionId,
      length_authentication secret sessionId, length_nonce secret sessionId, ?_⟩
    · rw [append_sessionKeys]
      exact derive_eq_ok (by decide) (by decide) _ _ _
    · have hfirst : keys.encryption = Hkdf.expand (Hkdf.extract (some sessionId) secret)
          (.ofString "FoxWhisper-SessionKeys") 32 :=
        Hkdf.take_expand _ _ (by decide)
      rw [hfirst]
      exact derive_eq_ok (by decide) (by decide) _ _ _

/-- Test case 1 of RFC 5869: one whole block and a part of the second. -/
example : sha256.derive (List.replicate 22 0x0b) (some [0, 1, 2, 3, 4, 5, 6, 7, 8, 9, 10, 11, 12])
    [0xf0, 0xf1, 0xf2, 0xf3, 0xf4, 0xf5, 0xf6, 0xf7, 0xf8, 0xf9] 42 =
      [0x3c, 0xb2, 0x5f, 0x25, 0xfa, 0xac, 0xd5, 0x7a, 0x90, 0x43, 0x4f, 0x64, 0xd0, 0x36, 0x2f,
        0x2a, 0x2d, 0x2d, 0x0a, 0x90, 0xcf, 0x1a, 0x5a, 0x4c, 0x5d, 0xb0, 0x2d, 0x56, 0xec, 0xc4,
        0xc5, 0xbf, 0x34, 0x00, 0x72, 0x08, 0xd5, 0xb8, 0x87, 0x18, 0x58, 0x65] := by
  decide +kernel

/-- At the last length that is taken, and at the first that is not. -/
theorem derives_all_blocks :
    let key : Bytes := [7, 7, 7]
    let longest := sha256.derive key none [1] 8160
    1 ≤ 8160 ∧ 8160 ≤ 8160 ∧ derive key none [1] 8160 = .ok longest ∧
    (longest.drop (32 * 254)).take 32 = (sha256.block (sha256.extract none key) [1] 255).take 32 ∧
    (∃ refusal, derive key none [1] 8161 = .error refusal ∧ refusal.fault.kind = .derivation) ∧
    ∃ short, derive key none [1] 33 = .ok short ∧ 33 ≤ 8160 ∧ short <+: longest := by
  intro key longest
  obtain ⟨hrefused, hkind, hok, -, hbeginning, -, -⟩ := derives_block_by_block key [1] none
  obtain ⟨hlongest, -, hblocks⟩ := hok 8160 (by norm_num) (by norm_num)
  obtain ⟨hshort, -, -⟩ := hok 33 (by norm_num) (by norm_num)
  obtain ⟨refusal, hrefusal⟩ := (hrefused 8161).mpr (by norm_num)
  exact ⟨by norm_num, by norm_num, hlongest, hblocks 254, ⟨refusal, hrefusal, hkind _ _ hrefusal⟩,
    _, hshort, by norm_num, hbeginning 33 8160 _ _ hshort hlongest (by norm_num)⟩

end KeySchedule
end Conformance
