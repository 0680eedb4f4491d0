import Conformance.Cipher.Aes
import Conformance.Proofs.Bytes

/-!
# Block lengths

Every step of the cipher takes blocks of sixteen bytes to blocks of sixteen bytes,
and the key schedule grows by words of four. A key of 32 bytes fills eight words, so
that its round keys are whole blocks.
-/
namespace Conformance.Aes
open Conformance

def blockSize : ℕ := 16

theorem length_subWord (w : Word) : (subWord w).length = w.length :=
  List.length_map _

theorem length_rotateWord (w : Word) : (rotateWord w).length = w.length := by
  cases w <;> simp [rotateWord]

theorem length_nextKeyWords (constant : UInt8) (words : List Word) :
    (nextKeyWords constant words).length = words.length := by
  unfold nextKeyWords
  split <;> rfl

theorem length_of_mem_nextKeyWords {constant : UInt8} {words : List Word}
    (h : ∀ w ∈ words, w.length = 4) : ∀ w ∈ nextKeyWords constant words, w.length = 4 := by
  unfold nextKeyWords
  split
  · simp only [List.forall_mem_cons] at h
    simp [length_subWord, length_rotateWord, h]
  · exact h

theorem length_flatten_keyWords {words : List Word} (h : ∀ w ∈ words, w.length = 4)
    (constant : UInt8) (count : ℕ) :
    (keyWords constant count words).flatten.length = count * (words.length * 4) := by
  induction count generalizing constant words with
  | zero => simp [keyWords]
  | succ count ih =>
    rw [keyWords, List.flatten_append, List.length_append, Bytes.length_flatten_of_forall h,
      ih (length_of_mem_nextKeyWords h), length_nextKeyWords, Nat.succ_mul, Nat.add_comm]

theorem length_of_mem_roundKeys {key : Bytes} (h : key.length = 32) :
    ∀ roundKey ∈ roundKeys key, roundKey.length = blockSize := by
  have hdvd : 4 ∣ key.length := h ▸ by decide
  have hwords := Bytes.length_of_mem_chunks hdvd
  have hcount : (Bytes.chunks 4 key).length * 4 = 32 := by
    rw [← Bytes.length_flatten_of_forall hwords, Bytes.flatten_chunks (by decide), h]
  have hlength : (keyWords 1 8 (Bytes.chunks 4 key)).flatten.length = 8 * 32 := by
    rw [length_flatten_keyWords hwords, hcount]
  intro roundKey hmem
  refine Bytes.length_of_mem_chunks ?_ roundKey (List.mem_of_mem_take hmem)
  rw [hlength]
  decide

theorem length_shiftRows (block : Bytes) : (shiftRows block).length = blockSize := by
  simp [shiftRows, blockSize]

theorem length_mixColumn (column : Bytes) : (mixColumn column).length = column.length := by
  unfold mixColumn
  split <;> rfl

theorem length_mixColumns (block : Bytes) : (mixColumns block).length = block.length := by
  rw [mixColumns, List.length_flatMap, List.map_congr_left fun column _ => length_mixColumn column,
    ← List.length_flatten, Bytes.flatten_chunks (by decide)]

theorem length_rounds {keys : List Bytes} (hkeys : ∀ key ∈ keys, key.length = blockSize)
    {block : Bytes} (hblock : block.length = blockSize) :
    (rounds block keys).length = blockSize := by
  fun_induction rounds block keys with
  | case1 block => exact hblock
  | case2 block key => simp [length_shiftRows, hkeys]
  | case3 block key keys _ ih =>
    refine ih (fun key hkey => hkeys key (List.mem_cons_of_mem _ hkey)) ?_
    simp [length_mixColumns, length_shiftRows, hkeys]

theorem length_encryptWith {keys : List Bytes} (hkeys : ∀ key ∈ keys, key.length = blockSize)
    {block : Bytes} (hblock : block.length = blockSize) :
    (encryptWith keys block).length = blockSize := by
  cases keys with
  | nil => exact hblock
  | cons key keys =>
    refine length_rounds (fun key hkey => hkeys key (List.mem_cons_of_mem _ hkey)) ?_
    rw [Bytes.length_xor, hblock, hkeys key List.mem_cons_self, Nat.min_self]

end Conformance.Aes
