import Conformance.Proofs.Pointwise
import Conformance.Proofs.Sequencing
import Conformance.Proofs.Canonical.Header
import Conformance.Proofs.Canonical.KeyOrder
import Conformance.Proofs.Canonical.Value

/-!
# The bytes of a value

A map is written from any arrangement of its entries in which the encoded keys
increase. Hence a value has the encoding of its arranged form, and encodings are
the byte strings of a grammar: shortest headers of definite length, increasing
keys and well-formed text at every depth.
-/
namespace Conformance.Canonical
open Conformance

def Encodes (v : Value) (bytes : Bytes) : Prop :=
  encode v = .ok bytes

def EncodesEntry (e : Value × Value) (p : EncodedEntry) : Prop :=
  Encodes e.1 p.1 ∧ Encodes e.2 p.2

theorem Encodes.unique {v : Value} {a b : Bytes} (ha : Encodes v a) (hb : Encodes v b) : a = b :=
  Except.ok.inj (ha.symm.trans hb)

theorem encodeItems_eq_ok_iff (items : List Value) (bytes : Bytes) :
    encodeItems items = .ok bytes ↔
      ∃ codes, List.Forall₂ Encodes items codes ∧ bytes = codes.flatten := by
  induction items generalizing bytes with
  | nil => simp [encodeItems, eq_comm]
  | cons item items ih =>
    simp only [encodeItems, bind_eq_ok_iff, ih, List.forall₂_cons_left_iff]
    constructor
    · rintro ⟨first, hfirst, others, ⟨codes, hcodes, rfl⟩, hb⟩
      cases hb
      exact ⟨first :: codes, ⟨first, codes, hfirst, hcodes, rfl⟩, rfl⟩
    · rintro ⟨_, ⟨first, codes, hfirst, hcodes, rfl⟩, rfl⟩
      exact ⟨first, hfirst, codes.flatten, ⟨codes, hcodes, rfl⟩, rfl⟩

theorem encodeEntries_eq_ok_iff (entries : List (Value × Value)) (encoded : List EncodedEntry) :
    encodeEntries entries = .ok encoded ↔ List.Forall₂ EncodesEntry entries encoded := by
  induction entries generalizing encoded with
  | nil => simp [encodeEntries, eq_comm]
  | cons e entries ih =>
    simp only [encodeEntries, bind_eq_ok_iff, ih, List.forall₂_cons_left_iff]
    constructor
    · rintro ⟨key, hkey, value, hvalue, others, hothers, hb⟩
      cases hb
      exact ⟨(key, value), others, ⟨hkey, hvalue⟩, hothers, rfl⟩
    · rintro ⟨p, others, ⟨hkey, hvalue⟩, hothers, rfl⟩
      exact ⟨p.1, hkey, p.2, hvalue, others, hothers, rfl⟩

theorem encodes_unsigned (n : UInt64) (bytes : Bytes) :
    Encodes (.unsigned n) bytes ↔ bytes = Header.write .unsigned n.toNat := by
  rw [Encodes, encode, Except.ok.injEq, eq_comm]

theorem encodes_bytes (b bytes : Bytes) :
    Encodes (.bytes b) bytes ↔ bytes = Header.write .bytes b.length ++ b := by
  rw [Encodes, encode, Except.ok.injEq, eq_comm]

theorem encodes_text (s : String) (bytes : Bytes) :
    Encodes (.text s) bytes ↔
      bytes = Header.write .text (Bytes.ofString s).length ++ Bytes.ofString s := by
  rw [Encodes, encode, Except.ok.injEq, eq_comm]

theorem encodes_array (items : List Value) (bytes : Bytes) :
    Encodes (.array items) bytes ↔ ∃ codes, List.Forall₂ Encodes items codes ∧
      bytes = Header.write .array codes.length ++ codes.flatten := by
  simp only [Encodes, encode, bind_eq_ok_iff, encodeItems_eq_ok_iff]
  constructor
  · rintro ⟨_, ⟨codes, hcodes, rfl⟩, hb⟩
    cases hb
    exact ⟨codes, hcodes, by rw [hcodes.length_eq]⟩
  · rintro ⟨codes, hcodes, rfl⟩
    exact ⟨codes.flatten, ⟨codes, hcodes, rfl⟩, by rw [hcodes.length_eq]; rfl⟩

theorem encodes_map_iff_writeMap (entries : List (Value × Value)) (bytes : Bytes) :
    Encodes (.map entries) bytes ↔
      ∃ encoded, List.Forall₂ EncodesEntry entries encoded ∧ writeMap encoded = .ok bytes := by
  simp only [Encodes, encode, bind_eq_ok_iff, encodeEntries_eq_ok_iff]

/-- The entries of a map are written in an arrangement in which their encoded keys increase. -/
theorem encodes_map (entries : List (Value × Value)) (bytes : Bytes) :
    Encodes (.map entries) bytes ↔ ∃ given sorted, given.Perm entries ∧
      List.Forall₂ EncodesEntry given sorted ∧ KeysIncrease sorted ∧
      bytes = Header.write .map sorted.length ++ writeEntries sorted := by
  simp only [encodes_map_iff_writeMap, writeMap_eq_ok_iff]
  constructor
  · rintro ⟨encoded, he, sorted, hp, hi, hb⟩
    obtain ⟨given, hgiven, hperm⟩ := List.perm_comp_forall₂ hp he.flip
    exact ⟨given, sorted, hperm, hgiven.flip, hi, hb⟩
  · rintro ⟨given, sorted, hp, hg, hi, hb⟩
    obtain ⟨encoded, he, hperm⟩ := List.perm_comp_forall₂ hp.symm hg
    exact ⟨encoded, he, sorted, hperm.symm, hi, hb⟩

theorem encodes_map_perm {as bs : List (Value × Value)} (h : as.Perm bs) (bytes : Bytes) :
    Encodes (.map as) bytes ↔ Encodes (.map bs) bytes := by
  rw [encodes_map, encodes_map]
  constructor
  · rintro ⟨given, sorted, hp, hrest⟩
    exact ⟨given, sorted, hp.trans h, hrest⟩
  · rintro ⟨given, sorted, hp, hrest⟩
    exact ⟨given, sorted, hp.trans h.symm, hrest⟩

theorem Encodes.length_pos {v : Value} {bytes : Bytes} (h : Encodes v bytes) :
    0 < bytes.length := by
  have hpos (major : Major) (n : ℕ) (rest : Bytes) : 0 < (Header.write major n ++ rest).length := by
    rw [Header.write_eq]
    simp
  cases v with
  | unsigned n =>
    rw [(encodes_unsigned n bytes).mp h, ← List.append_nil (Header.write _ _)]
    exact hpos _ _ _
  | bytes b =>
    rw [(encodes_bytes b bytes).mp h]
    exact hpos _ _ _
  | text s =>
    rw [(encodes_text s bytes).mp h]
    exact hpos _ _ _
  | array items =>
    obtain ⟨codes, -, rfl⟩ := (encodes_array items bytes).mp h
    exact hpos _ _ _
  | map entries =>
    obtain ⟨given, sorted, -, -, -, rfl⟩ := (encodes_map entries bytes).mp h
    exact hpos _ _ _

/-- A value is written like its arranged form. -/
theorem encodes_arranged (v : Value) (bytes : Bytes) :
    Encodes (Value.arranged v) bytes ↔ Encodes v bytes := by
  induction v using Value.induction generalizing bytes with
  | unsigned | bytes | text => rfl
  | array items ih =>
    rw [Value.arranged, Value.arrangedItems_eq_map, encodes_array, encodes_array]
    simp only [List.forall₂_map_left_iff,
      fun codes => Pointwise.congr_left (fun item hi code => ih item hi code) codes]
  | map entries ih =>
    have hperm : (Multiset.toList (entries.map Value.arrangedEntry : List _)).Perm
        (entries.map Value.arrangedEntry) := by
      rw [← Multiset.coe_eq_coe, Multiset.coe_toList]
    have hentry : ∀ e ∈ entries, ∀ p,
        EncodesEntry (Value.arrangedEntry e) p ↔ EncodesEntry e p := fun e he p =>
      and_congr ((ih e he).1 p.1) ((ih e he).2 p.2)
    rw [Value.arranged, Value.arrangedEntries_eq_map, encodes_map_perm hperm,
      encodes_map_iff_writeMap, encodes_map_iff_writeMap]
    simp only [List.forall₂_map_left_iff, Pointwise.congr_left hentry]

/-- Values that agree have the same encoding, or none. -/
theorem encodes_congr {v w : Value} (h : (v == w) = true) (bytes : Bytes) :
    Encodes v bytes ↔ Encodes w bytes := by
  rw [← encodes_arranged v, (Value.beq_iff v w).mp h, encodes_arranged]

/-- The grammar of canonical byte strings. Every header has the least width that holds its number,
the number is the length of what follows, and the keys of a map increase strictly. -/
inductive WellFormed : Bytes → Prop
  | unsigned (n : UInt64) : WellFormed (Header.write .unsigned n.toNat)
  | bytes (b : Bytes) (h : b.length < UInt64.size) : WellFormed (Header.write .bytes b.length ++ b)
  | text (s : String) (h : (Bytes.ofString s).length < UInt64.size) :
      WellFormed (Header.write .text (Bytes.ofString s).length ++ Bytes.ofString s)
  | array (codes : List Bytes) (h : codes.length < UInt64.size)
      (items : ∀ code ∈ codes, WellFormed code) :
      WellFormed (Header.write .array codes.length ++ codes.flatten)
  | map (entries : List EncodedEntry) (h : entries.length < UInt64.size)
      (increase : KeysIncrease entries) (keys : ∀ e ∈ entries, WellFormed e.1)
      (values : ∀ e ∈ entries, WellFormed e.2) :
      WellFormed (Header.write .map entries.length ++ writeEntries entries)

end Conformance.Canonical
