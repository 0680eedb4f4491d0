import Conformance.Proofs.Canonical.Decoding
import Conformance.Proofs.Canonical.Duplicates
import Conformance.Proofs.Canonical.RoundTrip
import Mathlib

/-!
# Prefix-freeness

No encoding is the beginning of another, so that encodings put one after the other
are read in one way only. A reader does not see what follows the value it reads: an
accepted byte string is refused with anything after it, for that alone, and hence no
beginning of it was accepted.
-/
namespace Conformance.Canonical
open Conformance

theorem Header.read_append {total n : ℕ} {bytes rest : Bytes} {major : Major}
    (h : read total bytes = .ok (major, n, rest)) (wider : ℕ) (more : Bytes) :
    read wider (bytes ++ more) = .ok (major, n, rest ++ more) := by
  obtain ⟨hn, rfl⟩ := eq_write_append_of_read h
  rw [List.append_assoc, read_write_append wider major hn]

/-- The second step reads whatever the first one reads, also in a longer input. -/
def Extends (one wide : Step) : Prop :=
  ∀ ⦃bytes v rest⦄, one bytes = .ok (v, rest) → ∀ more, wide (bytes ++ more) = .ok (v, rest ++ more)

section Walks
variable {one wide : Step} (hone : Extends one wide) (more : Bytes)
include hone

theorem decodeItems_extends {count : ℕ} {bytes rest : Bytes} {items : List Value}
    (h : decodeItems one count bytes = .ok (items, rest)) :
    decodeItems wide count (bytes ++ more) = .ok (items, rest ++ more) := by
  induction count generalizing bytes items with
  | zero =>
    cases h
    rfl
  | succ count ih =>
    simp only [decodeItems, bind_eq_ok_iff] at h
    obtain ⟨⟨item, tail⟩, hitem, ⟨others, left⟩, hothers, hb⟩ := h
    cases hb
    rw [decodeItems, hone hitem more, ok_bind]
    dsimp only
    rw [ih hothers]
    rfl

theorem decodeEntries_extends {total wider count : ℕ} {previous : Option Bytes}
    {bytes rest : Bytes} {entries : List (Value × Value)}
    (h : decodeEntries total one count previous bytes = .ok (entries, rest)) :
    decodeEntries wider wide count previous (bytes ++ more) = .ok (entries, rest ++ more) := by
  induction count generalizing previous bytes entries with
  | zero =>
    cases h
    rfl
  | succ count ih =>
    simp only [decodeEntries, bind_eq_ok_iff] at h
    obtain ⟨⟨key, afterKey⟩, hkey, h⟩ := h
    split at h
    · rename_i hfollow
      simp only [bind_eq_ok_iff] at h
      obtain ⟨⟨value, afterValue⟩, hvalue, ⟨others, left⟩, hothers, hb⟩ := h
      cases hb
      have hkeyBytes : (bytes ++ more).take ((bytes ++ more).length - (afterKey ++ more).length) =
          bytes.take (bytes.length - afterKey.length) := by
        rw [List.length_append, List.length_append, Nat.add_sub_add_right,
          List.take_append_of_le_length (Nat.sub_le _ _)]
      rw [decodeEntries, hone hkey more, ok_bind]
      simp only [hkeyBytes, hfollow, if_true]
      rw [hone hvalue more, ok_bind]
      dsimp only
      rw [ih hothers]
      rfl
    · cases h

end Walks

theorem checkCount_append {total count least : ℕ} {bytes : Bytes}
    (h : checkCount total count least bytes = .ok ()) (wider : ℕ) (more : Bytes) :
    checkCount wider count least (bytes ++ more) = .ok () := by
  have hcount := length_le_of_checkCount h
  refine checkCount_of_le ?_
  rw [List.length_append]
  omega

theorem decodeContent_extends {total wider n : ℕ} {one wide : Step} (hone : Extends one wide)
    {major : Major} {bytes rest : Bytes} {v : Value}
    (h : decodeContent total one major n bytes = .ok (v, rest)) (more : Bytes) :
    decodeContent wider wide major n (bytes ++ more) = .ok (v, rest ++ more) := by
  cases major with
  | unsigned =>
    cases h
    rfl
  | bytes =>
    simp only [decodeContent, bind_eq_ok_iff] at h
    obtain ⟨_, hcount, hb⟩ := h
    cases hb
    have hlen : n ≤ bytes.length := by simpa using length_le_of_checkCount hcount
    rw [decodeContent, checkCount_append hcount, ok_bind, List.take_append_of_le_length hlen,
      List.drop_append_of_le_length hlen]
    rfl
  | text =>
    simp only [decodeContent, bind_eq_ok_iff] at h
    obtain ⟨_, hcount, h⟩ := h
    have hlen : n ≤ bytes.length := by simpa using length_le_of_checkCount hcount
    rw [decodeContent, checkCount_append hcount, ok_bind, List.take_append_of_le_length hlen,
      List.drop_append_of_le_length hlen]
    split at h
    · cases h
      rfl
    · cases h
  | array =>
    simp only [decodeContent, bind_eq_ok_iff] at h
    obtain ⟨_, hcount, ⟨items, left⟩, hitems, hb⟩ := h
    cases hb
    rw [decodeContent, checkCount_append hcount, ok_bind, decodeItems_extends hone more hitems]
    rfl
  | map =>
    simp only [decodeContent, bind_eq_ok_iff] at h
    obtain ⟨_, hcount, ⟨entries, left⟩, hentries, hb⟩ := h
    cases hb
    rw [decodeContent, checkCount_append hcount, ok_bind, decodeEntries_extends hone more hentries]
    rfl
  | negative | tag | simple => cases h

/-- At every depth of nesting, what is read does not depend on what follows it. -/
theorem decodeValue_extends (total wider room : ℕ) :
    Extends (decodeValue total room) (decodeValue wider room) := by
  induction room with
  | zero =>
    intro bytes v rest h
    cases h
  | succ room ih =>
    intro bytes v rest h more
    simp only [decodeValue, bind_eq_ok_iff] at h
    obtain ⟨⟨major, n, content⟩, hheader, hcontent⟩ := h
    rw [decodeValue, Header.read_append hheader, ok_bind]
    exact decodeContent_extends ih hcontent more

theorem decode_append {bytes : Bytes} {v : Value} (h : decode bytes = .ok v) (more : Bytes) :
    decode (bytes ++ more) = finish (v, more) := by
  have hread := decodeValue_extends bytes.length (bytes ++ more).length (maxDepth + 1)
    ((decode_eq_ok_iff bytes v).mp h) more
  rw [decode, hread, ok_bind, List.nil_append]

theorem decode_append_of_ne_nil {bytes more : Bytes} {v : Value} (h : decode bytes = .ok v)
    (hmore : more ≠ []) : decode (bytes ++ more) = .error (.trailing more.length) := by
  rw [decode_append h]
  cases more with
  | nil => exact absurd rfl hmore
  | cons b more => rfl

/-- Of two encodings, none is a proper beginning of the other, and where one begins the other the
values agree. Of an accepted byte string, every proper beginning is refused, and so is it with
anything after it, as trailing bytes. Lengths are machine words, which the values that a machine
can hold satisfy. -/
theorem encodings_prefix_free :
    (∀ v w : Value, v.WordSized → w.WordSized → ∀ a b, encode v = .ok a → encode w = .ok b →
      a <+: b → a = b ∧ (v == w) = true) ∧
    ∀ bytes v, decode bytes = .ok v →
      (∀ front, front <+: bytes → front ≠ bytes → ∃ refusal, decode front = .error refusal) ∧
      ∀ more, more ≠ [] → decode (bytes ++ more) = .error (.trailing more.length) := by
  refine ⟨?_, fun bytes v h => ⟨?_, fun more hmore => decode_append_of_ne_nil h hmore⟩⟩
  · rintro v w sv sw a _ hv hw ⟨rest, rfl⟩
    have hsame : a ++ rest = (a ++ rest) ++ [] := (List.append_nil _).symm
    obtain ⟨hagree, rfl⟩ := selfDelimiting v hv hw sv sw hsame
    exact ⟨(List.append_nil a).symm, (Value.beq_iff v w).mpr hagree⟩
  · rintro front ⟨more, rfl⟩ hproper
    have hmore : more ≠ [] := by
      rintro rfl
      exact hproper (List.append_nil front).symm
    cases hfront : decode front with
    | error refusal => exact ⟨refusal, rfl⟩
    | ok w =>
      rw [decode_append_of_ne_nil hfront hmore] at h
      cases h

/-- The nested map with the entries of both its maps in canonical order. -/
def nestedMapInOrder : Value :=
  .map [(.unsigned 24, .unsigned 300),
    (.map [(.unsigned 1, .text "ü"), (.unsigned 2, .unsigned 0)], .array [.bytes [255]])]

theorem encodings_prefix_free_nested :
    (nestedMap.WordSized ∧ nestedMapInOrder.WordSized ∧ encode nestedMap = .ok nestedMapBytes ∧
      encode nestedMapInOrder = .ok nestedMapBytes ∧ (nestedMap == nestedMapInOrder) = true) ∧
    decode nestedMapBytes = .ok nestedMapInOrder ∧
      (∃ refusal, decode nestedMapBytes.dropLast = .error refusal) ∧
      decode (nestedMapBytes ++ [0, 0]) = .error (.trailing 2) := by
  have htext : (Bytes.ofString "ü").length < UInt64.size := by decide
  have hsized : nestedMap.WordSized := by
    simp [nestedMap, Value.wordSized_array_iff, Value.wordSized_map_iff, Value.wordSized_bytes_iff,
      Value.wordSized_text_iff, Value.wordSized_unsigned, UInt64.size, htext]
  have hsized' : nestedMapInOrder.WordSized := by
    simp [nestedMapInOrder, Value.wordSized_array_iff, Value.wordSized_map_iff,
      Value.wordSized_bytes_iff, Value.wordSized_text_iff, Value.wordSized_unsigned, UInt64.size,
      htext]
  have hencode : encode nestedMap = .ok nestedMapBytes := by cbv
  have hencode' : encode nestedMapInOrder = .ok nestedMapBytes := by cbv
  have hdecode : decode nestedMapBytes = .ok nestedMapInOrder := by cbv
  obtain ⟨hencodings, haccepted⟩ := encodings_prefix_free
  obtain ⟨hfront, hmore⟩ := haccepted nestedMapBytes nestedMapInOrder hdecode
  refine ⟨⟨hsized, hsized', hencode, hencode', ?_⟩, hdecode, ?_, hmore [0, 0] (by decide)⟩
  · exact (hencodings nestedMap nestedMapInOrder hsized hsized' _ _ hencode hencode'
      List.prefix_rfl).2
  · exact hfront _ (List.dropLast_prefix _) (by decide)

end Conformance.Canonical
