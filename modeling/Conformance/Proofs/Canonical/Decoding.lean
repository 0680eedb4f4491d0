import Conformance.Canonical.Decoding
import Conformance.Proofs.Canonical.Encoding

/-!
# What is decoded was encoded

Whatever stands at the front of some bytes when a value is read from them is the
encoding of that value, and it is well formed. The walks over items and entries
are treated for any way of reading one value that has this property.
-/
namespace Conformance.Canonical
open Conformance

/-- Reading one value takes away the encoding of that value, and only well-formed bytes. -/
def Sound (one : Step) : Prop :=
  ∀ bytes v rest, one bytes = .ok (v, rest) →
    ∃ code, bytes = code ++ rest ∧ Encodes v code ∧ WellFormed code

theorem length_le_of_checkCount {total count least : ℕ} {bytes : Bytes}
    (h : checkCount total count least bytes = .ok ()) : count * least ≤ bytes.length := by
  unfold checkCount at h
  split at h
  · assumption
  · cases h

theorem decodeItems_sound {one : Step} (hone : Sound one) {count : ℕ} {bytes rest : Bytes}
    {items : List Value} (h : decodeItems one count bytes = .ok (items, rest)) :
    ∃ codes, codes.length = count ∧ bytes = codes.flatten ++ rest ∧
      List.Forall₂ Encodes items codes ∧ ∀ code ∈ codes, WellFormed code := by
  induction count generalizing bytes items with
  | zero =>
    cases h
    exact ⟨[], rfl, rfl, .nil, by simp⟩
  | succ count ih =>
    simp only [decodeItems, bind_eq_ok_iff] at h
    obtain ⟨⟨item, tail⟩, hitem, ⟨others, left⟩, hothers, hb⟩ := h
    cases hb
    obtain ⟨code, rfl, hcode, hform⟩ := hone _ _ _ hitem
    obtain ⟨codes, rfl, rfl, hcodes, hforms⟩ := ih hothers
    refine ⟨code :: codes, rfl, by simp, .cons hcode hcodes, ?_⟩
    intro c hc
    rcases List.mem_cons.mp hc with rfl | hc
    · exact hform
    · exact hforms c hc

theorem mayFollow_iff (previous : Option Bytes) (key : Bytes) :
    mayFollow previous key = true ↔ ∀ k, previous = some k → keyOrder k key = .lt := by
  cases previous <;> simp [mayFollow]

/-- The walk over entries keeps the last key, and every later key is above it. -/
theorem decodeEntries_sound {one : Step} (hone : Sound one) {total count : ℕ}
    {previous : Option Bytes} {bytes rest : Bytes} {entries : List (Value × Value)}
    (h : decodeEntries total one count previous bytes = .ok (entries, rest)) :
    ∃ encoded, encoded.length = count ∧ bytes = writeEntries encoded ++ rest ∧
      List.Forall₂ EncodesEntry entries encoded ∧ KeysIncrease encoded ∧
      (∀ p ∈ encoded, mayFollow previous p.1 = true) ∧
      ∀ p ∈ encoded, WellFormed p.1 ∧ WellFormed p.2 := by
  induction count generalizing previous bytes entries with
  | zero =>
    cases h
    exact ⟨[], rfl, rfl, .nil, .nil, by simp, by simp⟩
  | succ count ih =>
    simp only [decodeEntries, bind_eq_ok_iff] at h
    obtain ⟨⟨key, afterKey⟩, hkey, h⟩ := h
    obtain ⟨keyCode, rfl, hkeyCode, hkeyForm⟩ := hone _ _ _ hkey
    have htaken : (keyCode ++ afterKey).take ((keyCode ++ afterKey).length - afterKey.length) =
        keyCode := by simp
    rw [htaken] at h
    split at h
    · rename_i hfollow
      simp only [bind_eq_ok_iff] at h
      obtain ⟨⟨value, afterValue⟩, hvalue, ⟨others, left⟩, hothers, hb⟩ := h
      cases hb
      obtain ⟨valueCode, rfl, hvalueCode, hvalueForm⟩ := hone _ _ _ hvalue
      obtain ⟨encoded, rfl, rfl, hencoded, hincrease, habove, hforms⟩ := ih hothers
      have hlt : ∀ p ∈ encoded, keyOrder keyCode p.1 = .lt := fun p hp =>
        (mayFollow_iff _ _).mp (habove p hp) keyCode rfl
      refine ⟨(keyCode, valueCode) :: encoded, rfl, by simp [writeEntries],
        .cons ⟨hkeyCode, hvalueCode⟩ hencoded, List.pairwise_cons.mpr ⟨hlt, hincrease⟩, ?_, ?_⟩
      · intro p hp
        rcases List.mem_cons.mp hp with rfl | hp
        · exact hfollow
        · exact (mayFollow_iff _ _).mpr fun k hk =>
            Std.TransCmp.lt_trans ((mayFollow_iff _ _).mp hfollow k hk) (hlt p hp)
      · intro p hp
        rcases List.mem_cons.mp hp with rfl | hp
        · exact ⟨hkeyForm, hvalueForm⟩
        · exact hforms p hp
    · cases h

theorem decodeContent_sound {one : Step} (hone : Sound one) {total n : ℕ} {major : Major}
    {bytes rest : Bytes} {v : Value} (hn : n < UInt64.size)
    (h : decodeContent total one major n bytes = .ok (v, rest)) :
    ∃ code, bytes = code ++ rest ∧ Encodes v (Header.write major n ++ code) ∧
      WellFormed (Header.write major n ++ code) := by
  cases major with
  | unsigned =>
    cases h
    have htoNat : (UInt64.ofNat n).toNat = n := UInt64.toNat_ofNat_of_lt hn
    refine ⟨[], rfl, ?_, ?_⟩
    · rw [encodes_unsigned, htoNat, List.append_nil]
    · rw [List.append_nil, ← htoNat]
      exact .unsigned _
  | bytes =>
    simp only [decodeContent, bind_eq_ok_iff] at h
    obtain ⟨_, hcount, hb⟩ := h
    cases hb
    have hlen : (bytes.take n).length = n := by
      have := length_le_of_checkCount hcount
      rw [List.length_take]
      omega
    refine ⟨bytes.take n, (List.take_append_drop n bytes).symm, ?_, ?_⟩
    · rw [encodes_bytes, hlen]
    · have hform := WellFormed.bytes (bytes.take n) (hlen.symm ▸ hn)
      rwa [hlen] at hform
  | text =>
    simp only [decodeContent, bind_eq_ok_iff] at h
    obtain ⟨_, hcount, h⟩ := h
    split at h
    · rename_i text htext
      cases h
      have hoctets := Text.Utf8.ofString_of_decode htext
      have hlen : (Bytes.ofString text).length = n := by
        have := length_le_of_checkCount hcount
        rw [hoctets, List.length_take]
        omega
      refine ⟨Bytes.ofString text, ?_, ?_, ?_⟩
      · rw [hoctets, List.take_append_drop]
      · rw [encodes_text, hlen]
      · have hform := WellFormed.text text (hlen.symm ▸ hn)
        rwa [hlen] at hform
    · cases h
  | array =>
    simp only [decodeContent, bind_eq_ok_iff] at h
    obtain ⟨-, -, ⟨items, left⟩, hitems, hb⟩ := h
    cases hb
    obtain ⟨codes, rfl, hbytes, hcodes, hforms⟩ := decodeItems_sound hone hitems
    refine ⟨codes.flatten, hbytes, ?_, .array codes hn hforms⟩
    exact (encodes_array items _).mpr ⟨codes, hcodes, rfl⟩
  | map =>
    simp only [decodeContent, bind_eq_ok_iff] at h
    obtain ⟨-, -, ⟨entries, left⟩, hentries, hb⟩ := h
    cases hb
    obtain ⟨encoded, rfl, hbytes, hencoded, hincrease, -, hforms⟩ :=
      decodeEntries_sound hone hentries
    refine ⟨writeEntries encoded, hbytes, ?_, ?_⟩
    · exact (encodes_map entries _).mpr ⟨entries, encoded, .refl _, hencoded, hincrease, rfl⟩
    · exact .map encoded hn hincrease (fun e he => (hforms e he).1) fun e he => (hforms e he).2
  | negative | tag | simple => cases h

/-- At every depth of nesting, what is read was written. -/
theorem decodeValue_sound (total room : ℕ) : Sound (decodeValue total room) := by
  induction room with
  | zero =>
    intro bytes v rest h
    cases h
  | succ room ih =>
    intro bytes v rest h
    simp only [decodeValue, bind_eq_ok_iff] at h
    obtain ⟨⟨major, n, content⟩, hheader, hcontent⟩ := h
    obtain ⟨hn, rfl⟩ := Header.eq_write_append_of_read hheader
    obtain ⟨code, rfl, hcode, hform⟩ := decodeContent_sound ih hn hcontent
    exact ⟨Header.write major n ++ code, by rw [List.append_assoc], hcode, hform⟩

theorem finish_eq_ok_iff {α : Type} (p : α × Bytes) (a : α) :
    finish p = .ok a ↔ p = (a, []) := by
  obtain ⟨b, rest⟩ := p
  cases rest <;> simp [finish]

theorem decode_eq_ok_iff (bytes : Bytes) (v : Value) :
    decode bytes = .ok v ↔ decodeValue bytes.length (maxDepth + 1) bytes = .ok (v, []) := by
  simp only [decode, bind_eq_ok_iff, finish_eq_ok_iff]
  constructor
  · rintro ⟨p, hp, rfl⟩
    exact hp
  · intro h
    exact ⟨(v, []), h, rfl⟩

/-- The whole of what is decoded is the encoding of the result. -/
theorem decode_sound {bytes : Bytes} {v : Value} (h : decode bytes = .ok v) :
    Encodes v bytes ∧ WellFormed bytes := by
  obtain ⟨code, hcode, hencodes, hform⟩ :=
    decodeValue_sound _ _ bytes v [] ((decode_eq_ok_iff bytes v).mp h)
  rw [List.append_nil] at hcode
  subst hcode
  exact ⟨hencodes, hform⟩

end Conformance.Canonical
