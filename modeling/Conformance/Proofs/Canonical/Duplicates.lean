import Conformance.Proofs.Canonical.Encoding
import Mathlib

/-!
# Which values are refused

The code of a value tells where it ends, so that it is told apart from the code of
every value that does not agree with it, whatever follows. Keys with one code are
thus keys that agree, and a value is refused exactly if a map somewhere in it has
two such keys.
-/
namespace Conformance.Canonical
open Conformance

namespace Value

def major : Value → Major
  | .unsigned _ => .unsigned
  | .bytes _ => .bytes
  | .text _ => .text
  | .array _ => .array
  | .map _ => .map

/-- What the header of a value holds: the number, or how many bytes or parts follow. -/
def headerNumber : Value → ℕ
  | .unsigned n => n.toNat
  | .bytes b => b.length
  | .text s => (Bytes.ofString s).length
  | .array items => items.length
  | .map entries => entries.length

/-- Every length in the value is a machine word, as are all lengths that a machine can hold. -/
def WordSized (v : Value) : Prop :=
  ∀ n w, Lies n w v → w.headerNumber < UInt64.size

theorem WordSized.headerNumber_lt {v : Value} (h : v.WordSized) : v.headerNumber < UInt64.size :=
  h 0 v (.root v)

theorem wordSized_unsigned (n : UInt64) : WordSized (.unsigned n) := by
  intro level w hw
  cases hw
  exact n.toNat_lt

theorem wordSized_bytes_iff (b : Bytes) : WordSized (.bytes b) ↔ b.length < UInt64.size := by
  refine ⟨WordSized.headerNumber_lt, fun h level w hw => ?_⟩
  cases hw
  exact h

theorem wordSized_text_iff (s : String) :
    WordSized (.text s) ↔ (Bytes.ofString s).length < UInt64.size := by
  refine ⟨WordSized.headerNumber_lt, fun h level w hw => ?_⟩
  cases hw
  exact h

theorem wordSized_array_iff (items : List Value) :
    WordSized (.array items) ↔ items.length < UInt64.size ∧ ∀ item ∈ items, WordSized item := by
  constructor
  · intro h
    exact ⟨h.headerNumber_lt, fun item hi level w hw => h (level + 1) w (.item hi hw)⟩
  · rintro ⟨hlen, hitems⟩ level w hw
    cases hw with
    | root => exact hlen
    | item hi below => exact hitems _ hi _ _ below

theorem wordSized_map_iff (entries : List (Value × Value)) :
    WordSized (.map entries) ↔
      entries.length < UInt64.size ∧ ∀ e ∈ entries, WordSized e.1 ∧ WordSized e.2 := by
  constructor
  · intro h
    refine ⟨h.headerNumber_lt, fun e he => ⟨fun level w hw => ?_, fun level w hw => ?_⟩⟩
    · exact h (level + 1) w (.key he hw)
    · exact h (level + 1) w (.value he hw)
  · rintro ⟨hlen, hentries⟩ level w hw
    cases hw with
    | root => exact hlen
    | key he below => exact (hentries _ he).1 _ _ below
    | value he below => exact (hentries _ he).2 _ _ below

theorem Lies.trans {m n : ℕ} {u w v : Value} (hu : Lies m u w) (hw : Lies n w v) :
    Lies (m + n) u v := by
  induction hw with
  | root => exact hu
  | item hi _ ih => exact .item hi (ih hu)
  | key he _ ih => exact .key he (ih hu)
  | value he _ ih => exact .value he (ih hu)

theorem WordSized.of_lies {n : ℕ} {v w : Value} (h : v.WordSized) (hw : Lies n w v) :
    w.WordSized := fun m u hu => h (m + n) u (hu.trans hw)

/-- Two entries, one of them further on than the other, have keys that agree. -/
def RepeatsKey (entries : List (Value × Value)) : Prop :=
  ∃ a b, [a, b].Sublist entries ∧ (a.1 == b.1) = true

end Value

theorem Encodes.exists_content {v : Value} {bytes : Bytes} (h : Encodes v bytes) :
    ∃ content, bytes = Header.write v.major v.headerNumber ++ content := by
  cases v with
  | unsigned n =>
    refine ⟨[], ?_⟩
    rw [List.append_nil]
    exact (encodes_unsigned n bytes).mp h
  | bytes b => exact ⟨b, (encodes_bytes b bytes).mp h⟩
  | text s => exact ⟨Bytes.ofString s, (encodes_text s bytes).mp h⟩
  | array items =>
    obtain ⟨codes, hcodes, rfl⟩ := (encodes_array items bytes).mp h
    exact ⟨codes.flatten, by rw [← hcodes.length_eq]; rfl⟩
  | map entries =>
    obtain ⟨given, sorted, hperm, hgiven, -, rfl⟩ := (encodes_map entries bytes).mp h
    exact ⟨writeEntries sorted, by rw [← hgiven.length_eq, hperm.length_eq]; rfl⟩

/-- Parts written one after the other are told apart if each of them is, whatever follows. -/
theorem parts_append_inj {α β γ : Type} {R : α → β → Prop} {write : β → Bytes} {form : α → γ}
    {as bs : List α} {ps qs : List β} {r s : Bytes} (hp : List.Forall₂ R as ps)
    (hq : List.Forall₂ R bs qs) (hlen : ps.length = qs.length)
    (hpart : ∀ a ∈ as, ∀ b ∈ bs, ∀ p q, R a p → R b q → ∀ r s, write p ++ r = write q ++ s →
      form a = form b ∧ r = s)
    (h : ps.flatMap write ++ r = qs.flatMap write ++ s) : as.map form = bs.map form ∧ r = s := by
  induction hp generalizing bs qs with
  | nil =>
    obtain rfl := List.length_eq_zero_iff.mp hlen.symm
    obtain rfl := List.forall₂_nil_right_iff.mp hq
    exact ⟨rfl, h⟩
  | @cons a p as ps hap _ ih =>
    cases hq with
    | nil => cases hlen
    | @cons b q bs qs hbq hq =>
      simp only [List.flatMap_cons, List.append_assoc] at h
      obtain ⟨hform, hrest⟩ :=
        hpart a List.mem_cons_self b List.mem_cons_self p q hap hbq _ _ h
      obtain ⟨hforms, hrs⟩ := ih hq (Nat.succ.inj hlen)
        (fun a ha b hb => hpart a (List.mem_cons_of_mem _ ha) b (List.mem_cons_of_mem _ hb)) hrest
      exact ⟨by rw [List.map_cons, List.map_cons, hform, hforms], hrs⟩

theorem Encodes.major_eq {v w : Value} {a b r s : Bytes} (hv : Encodes v a) (hw : Encodes w b)
    (sv : v.WordSized) (sw : w.WordSized) (h : a ++ r = b ++ s) : v.major = w.major := by
  obtain ⟨content, rfl⟩ := hv.exists_content
  obtain ⟨content', rfl⟩ := hw.exists_content
  rw [List.append_assoc, List.append_assoc] at h
  exact (Header.write_append_inj sv.headerNumber_lt sw.headerNumber_lt h).1

/-- No code of the value is the beginning of the code of another value, and it tells the value up
to agreement. -/
def SelfDelimiting (v : Value) : Prop :=
  ∀ ⦃w : Value⦄ ⦃a b r s : Bytes⦄, Encodes v a → Encodes w b → v.WordSized → w.WordSized →
    a ++ r = b ++ s → v.arranged = w.arranged ∧ r = s

theorem selfDelimiting_unsigned (n : UInt64) : SelfDelimiting (.unsigned n) := by
  intro w a b r s hv hw sv sw h
  cases w with
  | unsigned m =>
    rw [(encodes_unsigned n a).mp hv, (encodes_unsigned m b).mp hw] at h
    obtain ⟨-, hnumber, hrest⟩ := Header.write_append_inj n.toNat_lt m.toNat_lt h
    exact ⟨by rw [UInt64.toNat_inj.mp hnumber], hrest⟩
  | bytes | text | array | map => cases hv.major_eq hw sv sw h

theorem selfDelimiting_bytes (c : Bytes) : SelfDelimiting (.bytes c) := by
  intro w a b r s hv hw sv sw h
  cases w with
  | bytes d =>
    rw [(encodes_bytes c a).mp hv, (encodes_bytes d b).mp hw, List.append_assoc,
      List.append_assoc] at h
    obtain ⟨-, hlen, hrest⟩ := Header.write_append_inj sv.headerNumber_lt sw.headerNumber_lt h
    obtain ⟨rfl, hrs⟩ := List.append_inj hrest hlen
    exact ⟨rfl, hrs⟩
  | unsigned | text | array | map => cases hv.major_eq hw sv sw h

theorem selfDelimiting_text (c : String) : SelfDelimiting (.text c) := by
  intro w a b r s hv hw sv sw h
  cases w with
  | text d =>
    rw [(encodes_text c a).mp hv, (encodes_text d b).mp hw, List.append_assoc,
      List.append_assoc] at h
    obtain ⟨-, hlen, hrest⟩ := Header.write_append_inj sv.headerNumber_lt sw.headerNumber_lt h
    obtain ⟨htext, hrs⟩ := List.append_inj hrest hlen
    exact ⟨by rw [Bytes.ofString_injective htext], hrs⟩
  | unsigned | bytes | array | map => cases hv.major_eq hw sv sw h

theorem selfDelimiting_array {items : List Value} (hitems : ∀ item ∈ items, SelfDelimiting item) :
    SelfDelimiting (.array items) := by
  intro w a b r s hv hw sv sw h
  cases w with
  | array others =>
    obtain ⟨hlt, hsized⟩ := (Value.wordSized_array_iff items).mp sv
    obtain ⟨hlt', hsized'⟩ := (Value.wordSized_array_iff others).mp sw
    obtain ⟨codes, hcodes, rfl⟩ := (encodes_array items a).mp hv
    obtain ⟨codes', hcodes', rfl⟩ := (encodes_array others b).mp hw
    rw [List.append_assoc, List.append_assoc] at h
    obtain ⟨-, hlen, hrest⟩ :=
      Header.write_append_inj (hcodes.length_eq ▸ hlt) (hcodes'.length_eq ▸ hlt') h
    rw [← List.flatMap_id, ← List.flatMap_id] at hrest
    obtain ⟨hforms, hrs⟩ := parts_append_inj hcodes hcodes' hlen
      (fun item hi other ho p q hp hq r s =>
        hitems item hi hp hq (hsized item hi) (hsized' other ho)) hrest
    exact ⟨Value.arranged_array_inj.mpr hforms, hrs⟩
  | unsigned | bytes | text | map => cases hv.major_eq hw sv sw h

/-- What follows the key is the value, so the key is told apart first. -/
theorem EncodesEntry.append_inj {e f : Value × Value} {p q : EncodedEntry} {r s : Bytes}
    (hp : EncodesEntry e p) (hq : EncodesEntry f q)
    (hdelimiting : SelfDelimiting e.1 ∧ SelfDelimiting e.2)
    (se : e.1.WordSized ∧ e.2.WordSized) (sf : f.1.WordSized ∧ f.2.WordSized)
    (h : (p.1 ++ p.2) ++ r = (q.1 ++ q.2) ++ s) :
    Value.arrangedEntry e = Value.arrangedEntry f ∧ r = s := by
  rw [List.append_assoc, List.append_assoc] at h
  obtain ⟨hkey, hvalues⟩ := hdelimiting.1 hp.1 hq.1 se.1 sf.1 h
  obtain ⟨hvalue, hrs⟩ := hdelimiting.2 hp.2 hq.2 se.2 sf.2 hvalues
  exact ⟨Prod.ext hkey hvalue, hrs⟩

theorem selfDelimiting_map {entries : List (Value × Value)}
    (hentries : ∀ e ∈ entries, SelfDelimiting e.1 ∧ SelfDelimiting e.2) :
    SelfDelimiting (.map entries) := by
  intro w a b r s hv hw sv sw h
  cases w with
  | map others =>
    obtain ⟨hlt, hsized⟩ := (Value.wordSized_map_iff entries).mp sv
    obtain ⟨hlt', hsized'⟩ := (Value.wordSized_map_iff others).mp sw
    obtain ⟨given, sorted, hperm, hgiven, -, rfl⟩ := (encodes_map entries a).mp hv
    obtain ⟨given', sorted', hperm', hgiven', -, rfl⟩ := (encodes_map others b).mp hw
    rw [List.append_assoc, List.append_assoc] at h
    obtain ⟨-, hlen, hrest⟩ := Header.write_append_inj
      ((hgiven.length_eq.symm.trans hperm.length_eq) ▸ hlt)
      ((hgiven'.length_eq.symm.trans hperm'.length_eq) ▸ hlt') h
    obtain ⟨hforms, hrs⟩ := parts_append_inj hgiven hgiven' hlen
      (fun e he f hf p q hp hq r s => hp.append_inj hq (hentries e (hperm.subset he))
        (hsized e (hperm.subset he)) (hsized' f (hperm'.subset hf))) hrest
    refine ⟨Value.arranged_map_inj.mpr ?_, hrs⟩
    calc (entries.map Value.arrangedEntry).Perm (given.map Value.arrangedEntry) :=
          (hperm.map _).symm
      _ = given'.map Value.arrangedEntry := hforms
      (given'.map Value.arrangedEntry).Perm (others.map Value.arrangedEntry) := hperm'.map _
  | unsigned | bytes | text | array => cases hv.major_eq hw sv sw h

theorem selfDelimiting (v : Value) : SelfDelimiting v := by
  induction v using Value.induction with
  | unsigned n => exact selfDelimiting_unsigned n
  | bytes b => exact selfDelimiting_bytes b
  | text s => exact selfDelimiting_text s
  | array items ih => exact selfDelimiting_array ih
  | map entries ih => exact selfDelimiting_map ih

theorem Encodes.beq_of_wordSized {v w : Value} {code : Bytes} (hv : Encodes v code)
    (hw : Encodes w code) (sv : v.WordSized) (sw : w.WordSized) : (v == w) = true := by
  have hsame : code ++ [] = code ++ [] := rfl
  exact (Value.beq_iff v w).mpr (selfDelimiting v hv hw sv sw hsame).1

theorem encodeItems_eq_error {items : List Value} {refusal : EncodeRefusal}
    (h : encodeItems items = .error refusal) : ∃ item ∈ items, encode item = .error refusal := by
  induction items with
  | nil => cases h
  | cons item items ih =>
    simp only [encodeItems, bind_eq_error_iff] at h
    rcases h with hfirst | ⟨_, -, hothers | ⟨_, -, hnone⟩⟩
    · exact ⟨item, List.mem_cons_self, hfirst⟩
    · obtain ⟨other, hmem, hother⟩ := ih hothers
      exact ⟨other, List.mem_cons_of_mem item hmem, hother⟩
    · cases hnone

theorem encodeEntries_eq_error {entries : List (Value × Value)} {refusal : EncodeRefusal}
    (h : encodeEntries entries = .error refusal) :
    ∃ e ∈ entries, encode e.1 = .error refusal ∨ encode e.2 = .error refusal := by
  induction entries with
  | nil => cases h
  | cons e entries ih =>
    simp only [encodeEntries, bind_eq_error_iff] at h
    rcases h with hkey | ⟨_, -, hvalue | ⟨_, -, hothers | ⟨_, -, hnone⟩⟩⟩
    · exact ⟨e, List.mem_cons_self, .inl hkey⟩
    · exact ⟨e, List.mem_cons_self, .inr hvalue⟩
    · obtain ⟨other, hmem, hother⟩ := ih hothers
      exact ⟨other, List.mem_cons_of_mem e hmem, hother⟩
    · cases hnone

theorem repeatedKey?_sublist {entries : List EncodedEntry} {key : Bytes}
    (h : repeatedKey? entries = some key) : [key, key].Sublist (entries.map Prod.fst) := by
  induction entries with
  | nil => cases h
  | cons a entries ih =>
    cases entries with
    | nil => cases h
    | cons b entries =>
      rw [repeatedKey?] at h
      split at h
      · rename_i hab
        cases h
        rw [List.map_cons, List.map_cons, ← hab]
        exact ((List.nil_sublist _).cons_cons _).cons_cons _
      · exact (ih h).cons _

/-- A map that is not written is refused for a key that two of its entries have. -/
theorem writeMap_eq_error {entries : List EncodedEntry} {refusal : EncodeRefusal}
    (h : writeMap entries = .error refusal) :
    ∃ key, refusal = .duplicateKey key ∧ [key, key].Sublist (entries.map Prod.fst) := by
  simp only [writeMap] at h
  split at h
  · rename_i key hkey
    cases h
    have hperm := (sortEntries_perm entries).map Prod.fst
    have htwice : 2 ≤ (entries.map Prod.fst).count key := by
      rw [← hperm.count_eq]
      exact List.replicate_sublist_iff.mp (repeatedKey?_sublist hkey)
    exact ⟨key, rfl, List.replicate_sublist_iff.mpr htwice⟩
  · cases h

/-- The value has a map with two entries whose keys have the code. -/
def HoldsTwice (key : Bytes) (v : Value) : Prop :=
  ∃ n entries a b, Value.Lies n (.map entries) v ∧ [a, b].Sublist entries ∧
    Encodes a.1 key ∧ Encodes b.1 key

theorem exists_holdsTwice_of_error {v : Value} {refusal : EncodeRefusal}
    (h : encode v = .error refusal) : ∃ key, refusal = .duplicateKey key ∧ HoldsTwice key v := by
  induction v using Value.induction with
  | unsigned | bytes | text => cases h
  | array items ih =>
    simp only [encode, bind_eq_error_iff] at h
    rcases h with hitems | ⟨_, -, hnone⟩
    · obtain ⟨item, hmem, hitem⟩ := encodeItems_eq_error hitems
      obtain ⟨key, hkey, n, entries, a, b, hlies, hrest⟩ := ih item hmem hitem
      exact ⟨key, hkey, n + 1, entries, a, b, .item hmem hlies, hrest⟩
    · cases hnone
  | map entries ih =>
    simp only [encode, bind_eq_error_iff, encodeEntries_eq_ok_iff] at h
    rcases h with hentries | ⟨encoded, hencoded, hwrite⟩
    · obtain ⟨e, hmem, hkey | hvalue⟩ := encodeEntries_eq_error hentries
      · obtain ⟨key, hkey, n, others, a, b, hlies, hrest⟩ := (ih e hmem).1 hkey
        exact ⟨key, hkey, n + 1, others, a, b, .key hmem hlies, hrest⟩
      · obtain ⟨key, hkey, n, others, a, b, hlies, hrest⟩ := (ih e hmem).2 hvalue
        exact ⟨key, hkey, n + 1, others, a, b, .value hmem hlies, hrest⟩
    · obtain ⟨key, hkey, htwice⟩ := writeMap_eq_error hwrite
      obtain ⟨pair, hpair, hkeys⟩ := List.sublist_map_iff.mp htwice
      obtain ⟨p, rest, rfl, hp, hrest⟩ := List.map_eq_cons_iff.mp hkeys.symm
      obtain ⟨q, last, rfl, hq, hlast⟩ := List.map_eq_cons_iff.mp hrest
      obtain rfl := List.map_eq_nil_iff.mp hlast
      obtain ⟨a, b, hgiven, ha, hb⟩ := Pointwise.exists_pair hencoded hpair
      exact ⟨key, hkey, 0, entries, a, b, .root _, hgiven, hp ▸ ha.1, hq ▸ hb.1⟩

theorem Encodes.of_lies {n : ℕ} {v w : Value} {bytes : Bytes} (h : Encodes v bytes)
    (hw : Value.Lies n w v) : ∃ code, Encodes w code := by
  induction hw generalizing bytes with
  | root v => exact ⟨bytes, h⟩
  | item hi _ ih =>
    obtain ⟨codes, hcodes, -⟩ := (encodes_array _ bytes).mp h
    obtain ⟨code, -, hcode⟩ := Pointwise.exists_right hcodes hi
    exact ih hcode
  | key he _ ih =>
    obtain ⟨encoded, hencoded, -⟩ := (encodes_map_iff_writeMap _ bytes).mp h
    obtain ⟨p, -, hp⟩ := Pointwise.exists_right hencoded he
    exact ih hp.1
  | value he _ ih =>
    obtain ⟨encoded, hencoded, -⟩ := (encodes_map_iff_writeMap _ bytes).mp h
    obtain ⟨p, -, hp⟩ := Pointwise.exists_right hencoded he
    exact ih hp.2

theorem not_repeatsKey_of_encodes {entries : List (Value × Value)} {bytes : Bytes}
    (h : Encodes (.map entries) bytes) : ¬ Value.RepeatsKey entries := by
  rintro ⟨a, b, hpair, hagree⟩
  obtain ⟨encoded, hencoded, hwrite⟩ := (encodes_map_iff_writeMap entries bytes).mp h
  obtain ⟨sorted, hperm, hincrease, -⟩ := (writeMap_eq_ok_iff encoded bytes).mp hwrite
  have hnodup := (hperm.map Prod.fst).nodup_iff.mp hincrease.nodup_keys
  obtain ⟨p, q, hsub, ha, hb⟩ := Pointwise.exists_pair hencoded.flip hpair
  have hkeys : p.1 = q.1 := ((encodes_congr hagree p.1).mp ha.1).unique hb.1
  have htwice := hsub.map Prod.fst
  rw [List.map_cons, List.map_cons, List.map_nil, hkeys] at htwice
  exact List.nodup_iff_sublist.mp hnodup q.1 htwice

/-- A value is refused exactly if some map in it, at any level and also within keys, has two entries
whose keys agree, in whatever order these list their own entries. The refusal is a fault of encoding
that names the code of two such keys. -/
theorem encode_refuses_iff {v : Value} (h : v.WordSized) :
    ((∃ refusal, encode v = .error refusal) ↔
      ∃ n entries, Value.Lies n (.map entries) v ∧ Value.RepeatsKey entries) ∧
    ∀ refusal, encode v = .error refusal → ∃ n entries a b key,
      Value.Lies n (.map entries) v ∧ [a, b].Sublist entries ∧ (a.1 == b.1) = true ∧
      encode a.1 = .ok key ∧ encode b.1 = .ok key ∧
      refusal.fault = ⟨.encode, "duplicate map key " ++ Text.Hex.encode key⟩ := by
  have hrefusal : ∀ refusal, encode v = .error refusal → ∃ n entries a b key,
      Value.Lies n (.map entries) v ∧ [a, b].Sublist entries ∧ (a.1 == b.1) = true ∧
      encode a.1 = .ok key ∧ encode b.1 = .ok key ∧
      refusal.fault = ⟨.encode, "duplicate map key " ++ Text.Hex.encode key⟩ := by
    intro refusal hv
    obtain ⟨key, rfl, n, entries, a, b, hlies, hpair, ha, hb⟩ := exists_holdsTwice_of_error hv
    have hsized := ((Value.wordSized_map_iff entries).mp (h.of_lies hlies)).2
    have hagree := ha.beq_of_wordSized hb (hsized a (hpair.subset (by simp))).1
      (hsized b (hpair.subset (by simp))).1
    exact ⟨n, entries, a, b, key, hlies, hpair, hagree, ha, hb, rfl⟩
  refine ⟨⟨?_, ?_⟩, hrefusal⟩
  · rintro ⟨refusal, hv⟩
    obtain ⟨n, entries, a, b, -, hlies, hpair, hagree, -⟩ := hrefusal refusal hv
    exact ⟨n, entries, hlies, a, b, hpair, hagree⟩
  · rintro ⟨n, entries, hlies, hrepeats⟩
    cases hv : encode v with
    | error refusal => exact ⟨refusal, rfl⟩
    | ok bytes =>
      obtain ⟨code, hcode⟩ := Encodes.of_lies hv hlies
      exact absurd hrepeats (not_repeatsKey_of_encodes hcode)

/-- A map whose two keys are one map in two orders, within a key of a map in an array. -/
def reorderedKeys : Value :=
  .array [.map [(.map [(.map [(.unsigned 1, .text "ü"), (.unsigned 3, .bytes [4])], .unsigned 0),
    (.map [(.unsigned 3, .bytes [4]), (.unsigned 1, .text "ü")], .unsigned 1)], .array [])]]

theorem reorderedKeys_refused : reorderedKeys.WordSized ∧
    (∃ n entries, Value.Lies n (.map entries) reorderedKeys ∧ Value.RepeatsKey entries) ∧
    ∃ refusal key, encode reorderedKeys = .error refusal ∧
      refusal.fault = ⟨.encode, "duplicate map key " ++ Text.Hex.encode key⟩ := by
  have htext : (Bytes.ofString "ü").length < UInt64.size := by decide
  have hsized : reorderedKeys.WordSized := by
    simp [reorderedKeys, Value.wordSized_array_iff, Value.wordSized_map_iff,
      Value.wordSized_bytes_iff, Value.wordSized_text_iff, Value.wordSized_unsigned, UInt64.size,
      htext]
  have hlies : ∃ n entries, Value.Lies n (.map entries) reorderedKeys ∧
      Value.RepeatsKey entries :=
    ⟨2, _, .item List.mem_cons_self (.key List.mem_cons_self (.root _)), _, _, .refl _, by decide⟩
  obtain ⟨hiff, hrefusal⟩ := encode_refuses_iff hsized
  obtain ⟨refusal, hv⟩ := hiff.mpr hlies
  obtain ⟨-, -, -, -, key, -, -, -, -, -, hfault⟩ := hrefusal refusal hv
  exact ⟨hsized, hlies, refusal, key, hv, hfault⟩

end Conformance.Canonical
