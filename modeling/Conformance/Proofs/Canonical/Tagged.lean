import Conformance.Proofs.Canonical.RoundTrip
import Mathlib

/-!
# Values under a tag

A tag stands in front of a value and nowhere else. Reading what was written under a
tag recovers the tag and the value, only what was written under a tag is read, and no
byte string has both a tagged and an untagged reading. Items with tags at any place
are written by a wider grammar, of which the readers accept only the items without
tags below the top.
-/
namespace Conformance.Canonical
open Conformance

theorem encodeTagged_eq_ok_iff (tag : UInt64) (v : Value) (bytes : Bytes) :
    encodeTagged tag v = .ok bytes ↔
      ∃ code, Encodes v code ∧ bytes = Header.write .tag tag.toNat ++ code := by
  simp only [encodeTagged, bind_eq_ok_iff]
  constructor
  · rintro ⟨code, hcode, hbytes⟩
    cases hbytes
    exact ⟨code, hcode, rfl⟩
  · rintro ⟨code, hcode, rfl⟩
    exact ⟨code, hcode, rfl⟩

/-- What is read under a tag is the header of the tag, and a value up to the end. -/
theorem decodeTagged_eq_ok_iff (bytes : Bytes) (tag : UInt64) (v : Value) :
    decodeTagged bytes = .ok (tag, v) ↔
      ∃ content, bytes = Header.write .tag tag.toNat ++ content ∧
        decodeValue bytes.length (maxDepth + 1) content = .ok (v, []) := by
  simp only [decodeTagged, bind_eq_ok_iff]
  constructor
  · rintro ⟨⟨major, n, content⟩, hheader, h⟩
    obtain ⟨hn, hbytes⟩ := Header.eq_write_append_of_read hheader
    split at h
    · rename_i hmajor
      obtain rfl : major = .tag := hmajor
      simp only [bind_eq_ok_iff] at h
      obtain ⟨p, hread, value, hfinish, hresult⟩ := h
      cases hresult
      obtain rfl := (finish_eq_ok_iff p v).mp hfinish
      have htag : (UInt64.ofNat n).toNat = n := UInt64.toNat_ofNat_of_lt hn
      exact ⟨content, by rw [htag, hbytes], hread⟩
    · cases h
  · rintro ⟨content, hbytes, hread⟩
    refine ⟨(.tag, tag.toNat, content), ?_, ?_⟩
    · rw [hbytes, Header.read_write_append _ _ tag.toNat_lt]
    · rw [if_pos rfl, hread]
      change Except.ok (UInt64.ofNat tag.toNat, v) = _
      rw [UInt64.ofNat_toNat]

section Tagged
variable {tag : UInt64} {v : Value} {code : Bytes} (h : Encodes v code)
  (hlen : code.length < UInt64.size)
include h hlen

theorem decodeTagged_reads (hdepth : v.depth ≤ maxDepth) :
    ∃ w, decodeTagged (Header.write .tag tag.toNat ++ code) = .ok (tag, w) ∧ (w == v) = true := by
  obtain ⟨w, hw, hagree⟩ := decodeValue_reads (Header.write .tag tag.toNat ++ code).length h hlen
    (Nat.lt_succ_of_le hdepth)
  have hread := hw []
  rw [List.append_nil] at hread
  exact ⟨w, (decodeTagged_eq_ok_iff _ tag w).mpr ⟨code, rfl, hread⟩, (Value.beq_iff w v).mpr hagree⟩

theorem decodeTagged_refuses (hdepth : maxDepth < v.depth) :
    decodeTagged (Header.write .tag tag.toNat ++ code) = .error .tooDeep := by
  have hrefuse := decodeValue_refuses (Header.write .tag tag.toNat ++ code).length h hlen hdepth []
  rw [List.append_nil] at hrefuse
  rw [decodeTagged, Header.read_write_append _ _ tag.toNat_lt, ok_bind]
  dsimp only
  rw [if_pos rfl, hrefuse, error_bind]

end Tagged

theorem decodeTagged_sound {bytes : Bytes} {tag : UInt64} {v : Value}
    (h : decodeTagged bytes = .ok (tag, v)) :
    ∃ code, Encodes v code ∧ WellFormed code ∧ bytes = Header.write .tag tag.toNat ++ code := by
  obtain ⟨content, hbytes, hread⟩ := (decodeTagged_eq_ok_iff bytes tag v).mp h
  obtain ⟨code, hcode, hencodes, hform⟩ := decodeValue_sound _ _ content v [] hread
  rw [List.append_nil] at hcode
  exact ⟨code, hencodes, hform, hcode ▸ hbytes⟩

/-- Where a value is to be read, a tag is refused, whatever follows it. -/
theorem decodeValue_tag (total room : ℕ) (tag : UInt64) (rest : Bytes) (p : Value × Bytes) :
    decodeValue total room (Header.write .tag tag.toNat ++ rest) ≠ .ok p := by
  cases room with
  | zero => exact nofun
  | succ room =>
    rw [decodeValue_write total room .tag tag.toNat_lt]
    exact nofun

theorem not_decode_of_decodeTagged {bytes : Bytes} {p : UInt64 × Value}
    (h : decodeTagged bytes = .ok p) (v : Value) : decode bytes ≠ .ok v := by
  obtain ⟨content, hbytes, -⟩ := (decodeTagged_eq_ok_iff bytes p.1 p.2).mp h
  intro hdecode
  have hread := (decode_eq_ok_iff bytes v).mp hdecode
  rw [hbytes] at hread
  exact decodeValue_tag _ _ _ _ _ hread

/-- Items of a wider grammar, with one kind for each major type: a tag may stand in front of any
item, and the keys of a map in any order. -/
inductive Item
  | unsigned (n : UInt64)
  | negative (n : UInt64)
  | bytes (b : Bytes)
  | text (s : String)
  | array (items : List Item)
  | map (entries : List (Item × Item))
  | tagged (tag : UInt64) (item : Item)
  | simple (n : UInt64)

namespace Item

mutual

def write : Item → Bytes
  | unsigned n => Header.write .unsigned n.toNat
  | negative n => Header.write .negative n.toNat
  | bytes b => Header.write .bytes b.length ++ b
  | text s => Header.write .text (Bytes.ofString s).length ++ Bytes.ofString s
  | array items => Header.write .array items.length ++ writeItems items
  | map entries => Header.write .map entries.length ++ writeEntries entries
  | tagged tag item => Header.write .tag tag.toNat ++ write item
  | simple n => Header.write .simple n.toNat

def writeItems : List Item → Bytes
  | [] => []
  | item :: rest => write item ++ writeItems rest

def writeEntries : List (Item × Item) → Bytes
  | [] => []
  | (key, value) :: rest => write key ++ (write value ++ writeEntries rest)

end

def major : Item → Major
  | unsigned _ => .unsigned
  | negative _ => .negative
  | bytes _ => .bytes
  | text _ => .text
  | array _ => .array
  | map _ => .map
  | tagged _ _ => .tag
  | simple _ => .simple

/-- A tag stands somewhere in the item. -/
inductive HasTag : Item → Prop
  | here (tag : UInt64) (item : Item) : HasTag (.tagged tag item)
  | item {item : Item} {items : List Item} (h : item ∈ items) (below : HasTag item) :
      HasTag (.array items)
  | key {e : Item × Item} {entries : List (Item × Item)} (h : e ∈ entries) (below : HasTag e.1) :
      HasTag (.map entries)
  | value {e : Item × Item} {entries : List (Item × Item)} (h : e ∈ entries)
      (below : HasTag e.2) : HasTag (.map entries)

/-- Induction that supposes the property of everything one level below an item. -/
@[elab_as_elim]
theorem induction {motive : Item → Prop} (unsigned : ∀ n, motive (.unsigned n))
    (negative : ∀ n, motive (.negative n)) (bytes : ∀ b, motive (.bytes b))
    (text : ∀ s, motive (.text s))
    (array : ∀ items, (∀ item ∈ items, motive item) → motive (.array items))
    (map : ∀ entries, (∀ e ∈ entries, motive e.1 ∧ motive e.2) → motive (.map entries))
    (tagged : ∀ tag item, motive item → motive (.tagged tag item))
    (simple : ∀ n, motive (.simple n)) (item : Item) : motive item :=
  @Item.rec motive (fun items => ∀ item ∈ items, motive item)
    (fun entries => ∀ e ∈ entries, motive e.1 ∧ motive e.2) (fun e => motive e.1 ∧ motive e.2)
    unsigned negative bytes text array map tagged simple
    nofun (fun _ _ first others => List.forall_mem_cons.mpr ⟨first, others⟩)
    nofun (fun _ _ first others => List.forall_mem_cons.mpr ⟨first, others⟩)
    (fun _ _ key value => ⟨key, value⟩) item

theorem length_write_pos (item : Item) : 0 < item.write.length := by
  cases item <;> simp [write, Header.write_eq]

theorem length_le_writeItems (items : List Item) : items.length ≤ (writeItems items).length := by
  induction items with
  | nil => exact Nat.zero_le _
  | cons item rest ih =>
    have hitem := item.length_write_pos
    rw [writeItems, List.length_append, List.length_cons]
    omega

theorem length_le_writeEntries (entries : List (Item × Item)) :
    entries.length ≤ (writeEntries entries).length := by
  induction entries with
  | nil => exact Nat.zero_le _
  | cons e rest ih =>
    have hkey := e.1.length_write_pos
    rw [writeEntries, List.length_append, List.length_append, List.length_cons]
    omega

/-- An item that fits a byte string is written as a header of its kind and its content. -/
theorem exists_write_eq {item : Item} (hlen : item.write.length < UInt64.size) :
    ∃ n < UInt64.size, ∃ content, item.write = Header.write item.major n ++ content := by
  cases item with
  | unsigned n | negative n | simple n => exact ⟨_, n.toNat_lt, [], (List.append_nil _).symm⟩
  | tagged tag item => exact ⟨_, tag.toNat_lt, _, rfl⟩
  | bytes b =>
    rw [write, List.length_append] at hlen
    exact ⟨b.length, by omega, _, rfl⟩
  | text s =>
    rw [write, List.length_append] at hlen
    exact ⟨(Bytes.ofString s).length, by omega, _, rfl⟩
  | array items =>
    rw [write, List.length_append] at hlen
    have hcount := length_le_writeItems items
    exact ⟨items.length, by omega, _, rfl⟩
  | map entries =>
    rw [write, List.length_append] at hlen
    have hcount := length_le_writeEntries entries
    exact ⟨entries.length, by omega, _, rfl⟩

/-- One value is read in place of the item, and the item holds no tag. -/
def ReadOnlyUntagged (item : Item) : Prop :=
  item.write.length < UInt64.size → ∀ total room rest v left,
    decodeValue total room (item.write ++ rest) = .ok (v, left) → left = rest ∧ ¬ item.HasTag

theorem decodeItems_untagged {items : List Item} (h : ∀ item ∈ items, item.ReadOnlyUntagged)
    (hlen : (writeItems items).length < UInt64.size) {total room : ℕ} {rest left : Bytes}
    {values : List Value}
    (hread : decodeItems (decodeValue total room) items.length (writeItems items ++ rest) =
      .ok (values, left)) :
    left = rest ∧ ∀ item ∈ items, ¬ item.HasTag := by
  induction items generalizing values with
  | nil =>
    cases hread
    exact ⟨rfl, nofun⟩
  | cons first others ih =>
    obtain ⟨hfirst, hothers⟩ := List.forall_mem_cons.mp h
    rw [writeItems, List.length_append] at hlen
    rw [writeItems, List.append_assoc, List.length_cons] at hread
    simp only [decodeItems, bind_eq_ok_iff] at hread
    obtain ⟨⟨value, tail⟩, hvalue, ⟨more, last⟩, hmore, hresult⟩ := hread
    cases hresult
    obtain ⟨rfl, huntagged⟩ := hfirst (by omega) _ _ _ _ _ hvalue
    obtain ⟨rfl, hrest⟩ := ih hothers (by omega) hmore
    exact ⟨rfl, List.forall_mem_cons.mpr ⟨huntagged, hrest⟩⟩

theorem decodeEntries_untagged {entries : List (Item × Item)}
    (h : ∀ e ∈ entries, e.1.ReadOnlyUntagged ∧ e.2.ReadOnlyUntagged)
    (hlen : (writeEntries entries).length < UInt64.size) {total room : ℕ}
    {previous : Option Bytes} {rest left : Bytes} {values : List (Value × Value)}
    (hread : decodeEntries total (decodeValue total room) entries.length previous
      (writeEntries entries ++ rest) = .ok (values, left)) :
    left = rest ∧ ∀ e ∈ entries, ¬ e.1.HasTag ∧ ¬ e.2.HasTag := by
  induction entries generalizing previous values with
  | nil =>
    cases hread
    exact ⟨rfl, nofun⟩
  | cons first others ih =>
    obtain ⟨⟨hkey, hvalue⟩, hothers⟩ := List.forall_mem_cons.mp h
    rw [writeEntries, List.length_append, List.length_append] at hlen
    rw [writeEntries, List.append_assoc, List.append_assoc, List.length_cons] at hread
    simp only [decodeEntries, bind_eq_ok_iff] at hread
    obtain ⟨⟨readKey, afterKey⟩, hreadKey, hread⟩ := hread
    obtain ⟨rfl, huntaggedKey⟩ := hkey (by omega) _ _ _ _ _ hreadKey
    split at hread
    · simp only [bind_eq_ok_iff] at hread
      obtain ⟨⟨readValue, afterValue⟩, hreadValue, ⟨more, last⟩, hmore, hresult⟩ := hread
      cases hresult
      obtain ⟨rfl, huntaggedValue⟩ := hvalue (by omega) _ _ _ _ _ hreadValue
      obtain ⟨rfl, hrest⟩ := ih hothers (by omega) hmore
      exact ⟨rfl, List.forall_mem_cons.mpr ⟨⟨huntaggedKey, huntaggedValue⟩, hrest⟩⟩
    · cases hread

/-- It is enough to treat what follows the header of an item. -/
theorem readOnlyUntagged_of_content {item : Item} {major : Major} {n : ℕ} {content : Bytes}
    (hwrite : item.write = Header.write major n ++ content)
    (h : item.write.length < UInt64.size → n < UInt64.size ∧ ∀ total room rest v left,
      decodeContent total (decodeValue total room) major n (content ++ rest) = .ok (v, left) →
        left = rest ∧ ¬ item.HasTag) : item.ReadOnlyUntagged := by
  intro hlen total room rest v left hread
  obtain ⟨hn, hcontent⟩ := h hlen
  cases room with
  | zero => cases hread
  | succ room =>
    rw [hwrite, List.append_assoc, decodeValue_write total room major hn] at hread
    exact hcontent _ _ _ _ _ hread

/-- By the levels of the item: each part is read by itself or not at all. -/
theorem readOnlyUntagged (item : Item) : item.ReadOnlyUntagged := by
  induction item using Item.induction with
  | unsigned n =>
    refine readOnlyUntagged_of_content (List.append_nil _).symm fun _ => ⟨n.toNat_lt, ?_⟩
    intro total room rest v left h
    cases h
    exact ⟨rfl, nofun⟩
  | negative n =>
    refine readOnlyUntagged_of_content (List.append_nil _).symm fun _ => ⟨n.toNat_lt, ?_⟩
    exact fun _ _ _ _ _ h => nomatch h
  | simple n =>
    refine readOnlyUntagged_of_content (List.append_nil _).symm fun _ => ⟨n.toNat_lt, ?_⟩
    exact fun _ _ _ _ _ h => nomatch h
  | bytes b =>
    refine readOnlyUntagged_of_content rfl fun hlen => ⟨?_, ?_⟩
    · rw [write, List.length_append] at hlen
      omega
    · intro total room rest v left h
      rw [decodeContent_bytes] at h
      cases h
      exact ⟨rfl, nofun⟩
  | text s =>
    refine readOnlyUntagged_of_content rfl fun hlen => ⟨?_, ?_⟩
    · rw [write, List.length_append] at hlen
      omega
    · intro total room rest v left h
      rw [decodeContent_text] at h
      cases h
      exact ⟨rfl, nofun⟩
  | array items ih =>
    refine readOnlyUntagged_of_content rfl fun hlen => ?_
    rw [write, List.length_append] at hlen
    have hcount := length_le_writeItems items
    refine ⟨by omega, fun total room rest v left h => ?_⟩
    simp only [decodeContent, bind_eq_ok_iff] at h
    obtain ⟨-, -, ⟨values, last⟩, hvalues, hresult⟩ := h
    cases hresult
    obtain ⟨rfl, huntagged⟩ := decodeItems_untagged ih (by omega) hvalues
    refine ⟨rfl, fun htag => ?_⟩
    cases htag with
    | item hitem below => exact huntagged _ hitem below
  | map entries ih =>
    refine readOnlyUntagged_of_content rfl fun hlen => ?_
    rw [write, List.length_append] at hlen
    have hcount := length_le_writeEntries entries
    refine ⟨by omega, fun total room rest v left h => ?_⟩
    simp only [decodeContent, bind_eq_ok_iff] at h
    obtain ⟨-, -, ⟨values, last⟩, hvalues, hresult⟩ := h
    cases hresult
    obtain ⟨rfl, huntagged⟩ := decodeEntries_untagged ih (by omega) hvalues
    refine ⟨rfl, fun htag => ?_⟩
    cases htag with
    | key hentry below => exact (huntagged _ hentry).1 below
    | value hentry below => exact (huntagged _ hentry).2 below
  | tagged tag item ih =>
    intro hlen total room rest v left h
    rw [write, List.append_assoc] at h
    exact absurd h (decodeValue_tag _ _ _ _ _)

theorem not_hasTag_of_decode {item : Item} (hlen : item.write.length < UInt64.size) {v : Value}
    (h : decode item.write = .ok v) : ¬ item.HasTag := by
  have hread := (decode_eq_ok_iff _ v).mp h
  nth_rewrite 2 [← List.append_nil item.write] at hread
  exact (item.readOnlyUntagged hlen _ _ _ _ _ hread).2

theorem exists_tagged_of_decodeTagged {item : Item} (hlen : item.write.length < UInt64.size)
    {tag : UInt64} {v : Value} (h : decodeTagged item.write = .ok (tag, v)) :
    ∃ inner, item = .tagged tag inner ∧ ¬ inner.HasTag := by
  obtain ⟨content, hbytes, hread⟩ := (decodeTagged_eq_ok_iff _ tag v).mp h
  obtain ⟨n, hn, other, hwrite⟩ := exists_write_eq hlen
  obtain ⟨hmajor, -, -⟩ := Header.write_append_inj hn tag.toNat_lt (hwrite.symm.trans hbytes)
  cases item with
  | tagged first inner =>
    rw [write] at hbytes
    obtain ⟨-, htag, rfl⟩ := Header.write_append_inj first.toNat_lt tag.toNat_lt hbytes
    obtain rfl := UInt64.toNat_inj.mp htag
    rw [← List.append_nil inner.write] at hread
    rw [write, List.length_append] at hlen
    exact ⟨inner, rfl, (inner.readOnlyUntagged (by omega) _ _ _ _ _ hread).2⟩
  | unsigned | negative | bytes | text | array | map | simple => cases hmajor

theorem writeItems_eq_flatten {items : List Item} {codes : List Bytes}
    (h : List.Forall₂ (fun code item => item.write = code) codes items) :
    writeItems items = codes.flatten := by
  induction h with
  | nil => rfl
  | cons hitem _ ih => rw [writeItems, hitem, ih, List.flatten_cons]

theorem writeEntries_eq {entries : List (Item × Item)} {encoded : List EncodedEntry}
    (h : List.Forall₂ (fun p e => e.1.write = p.1 ∧ e.2.write = p.2) encoded entries) :
    writeEntries entries = Canonical.writeEntries encoded := by
  induction h with
  | nil => rfl
  | @cons p e encoded entries hentry _ ih =>
    have hsplit := writeEntries_cons p encoded []
    simp only [List.append_nil] at hsplit
    rw [writeEntries, hentry.1, hentry.2, ih, hsplit]

/-- Well-formed byte strings are items of the wider grammar. -/
theorem exists_write_of_wellFormed {bytes : Bytes} (h : WellFormed bytes) :
    ∃ item : Item, item.write = bytes := by
  induction h with
  | unsigned n => exact ⟨.unsigned n, rfl⟩
  | bytes b _ => exact ⟨.bytes b, rfl⟩
  | text s _ => exact ⟨.text s, rfl⟩
  | array codes _ _ ih =>
    obtain ⟨items, hitems⟩ := Pointwise.exists_forall₂_iff.mpr ih
    refine ⟨.array items, ?_⟩
    rw [write, writeItems_eq_flatten hitems, hitems.length_eq]
  | map encoded _ _ _ _ ihkeys ihvalues =>
    have hboth : ∀ p ∈ encoded, ∃ e : Item × Item, e.1.write = p.1 ∧ e.2.write = p.2 := by
      intro p hp
      obtain ⟨key, hkey⟩ := ihkeys p hp
      obtain ⟨value, hvalue⟩ := ihvalues p hp
      exact ⟨(key, value), hkey, hvalue⟩
    obtain ⟨entries, hentries⟩ := Pointwise.exists_forall₂_iff.mpr hboth
    refine ⟨.map entries, ?_⟩
    rw [write, writeEntries_eq hentries, hentries.length_eq]

end Item

/-- A value is written under a tag exactly if it is written by itself. What is written is read back
as the tag and a value that agrees, if the value keeps within the depth that the decoder allows,
and nothing else is read under the tag. No byte string is read both with a tag and without one.
What is read is of the wider grammar, and however it is taken apart, no tag stands below the top. -/
theorem tagged_exact (tag : UInt64) (v : Value) :
    ((∃ bytes, encodeTagged tag v = .ok bytes) ↔ ∃ code, encode v = .ok code) ∧
    (∀ bytes, encodeTagged tag v = .ok bytes → bytes.length < UInt64.size →
      ((∀ n w, Value.Lies n w v → n ≤ 64) →
        ∃ w, decodeTagged bytes = .ok (tag, w) ∧ (w == v) = true) ∧
      ((∃ n w, Value.Lies n w v ∧ 64 < n) → decodeTagged bytes = .error .tooDeep)) ∧
    (∀ bytes, decodeTagged bytes = .ok (tag, v) → encodeTagged tag v = .ok bytes) ∧
    (∀ bytes, decode bytes = .ok v → ∀ p, decodeTagged bytes ≠ .ok p) ∧
    (∀ bytes, decode bytes = .ok v → bytes.length < UInt64.size →
      (∃ item : Item, item.write = bytes) ∧ ∀ item : Item, item.write = bytes → ¬ item.HasTag) ∧
    ∀ bytes, decodeTagged bytes = .ok (tag, v) → bytes.length < UInt64.size →
      (∃ item : Item, item.write = bytes) ∧
        ∀ item : Item, item.write = bytes → ∃ inner, item = .tagged tag inner ∧ ¬ inner.HasTag := by
  refine ⟨?_, ?_, ?_, ?_, ?_, ?_⟩
  · simp only [encodeTagged_eq_ok_iff]
    constructor
    · rintro ⟨-, code, hcode, -⟩
      exact ⟨code, hcode⟩
    · rintro ⟨code, hcode⟩
      exact ⟨_, code, hcode, rfl⟩
  · intro bytes h hlen
    obtain ⟨code, hcode, rfl⟩ := (encodeTagged_eq_ok_iff tag v bytes).mp h
    have hshort : code.length < UInt64.size := by
      rw [List.length_append] at hlen
      omega
    constructor
    · intro hlies
      exact decodeTagged_reads hcode hshort ((v.depth_le_iff 64).mpr hlies)
    · rintro ⟨n, w, hw, hn⟩
      exact decodeTagged_refuses hcode hshort (hn.trans_le hw.le_depth)
  · intro bytes h
    obtain ⟨code, hcode, -, hbytes⟩ := decodeTagged_sound h
    exact (encodeTagged_eq_ok_iff tag v bytes).mpr ⟨code, hcode, hbytes⟩
  · intro bytes h p hp
    exact not_decode_of_decodeTagged hp v h
  · intro bytes h hlen
    refine ⟨Item.exists_write_of_wellFormed (decode_sound h).2, ?_⟩
    rintro item rfl
    exact Item.not_hasTag_of_decode hlen h
  · intro bytes h hlen
    obtain ⟨code, -, hform, hbytes⟩ := decodeTagged_sound h
    obtain ⟨inner, rfl⟩ := Item.exists_write_of_wellFormed hform
    refine ⟨⟨.tagged tag inner, hbytes.symm⟩, ?_⟩
    rintro item rfl
    exact Item.exists_tagged_of_decodeTagged hlen h

/-- The map out of order under the greatest tag. -/
def taggedMapBytes : Bytes :=
  0xdb :: (List.replicate 8 0xff ++ nestedMapBytes)

set_option maxRecDepth 4000 in
theorem tagged_exact_nested_and_tower :
    (∃ w, decodeTagged taggedMapBytes = .ok (18446744073709551615, w) ∧ (w == nestedMap) = true ∧
      encodeTagged 18446744073709551615 w = .ok taggedMapBytes ∧
      (∀ u, decode taggedMapBytes ≠ .ok u) ∧
      ∀ item : Item, item.write = taggedMapBytes →
        ∃ inner, item = .tagged 18446744073709551615 inner ∧ ¬ inner.HasTag) ∧
    decodeTagged (0xc0 :: (List.replicate 65 0x81 ++ [0])) = .error .tooDeep ∧
    (Item.array [.tagged 1 (.unsigned 0)]).write = [0x81, 0xc1, 0] ∧
      ∀ u, decode [0x81, 0xc1, 0] ≠ .ok u := by
  have hmap : encodeTagged 18446744073709551615 nestedMap = .ok taggedMapBytes := by cbv
  have htower : encodeTagged 0 (tower 65) = .ok (0xc0 :: (List.replicate 65 0x81 ++ [0])) := rfl
  have hlies := (nestedMap.depth_le_iff 64).mp (by decide)
  have hitem : (Item.array [.tagged 1 (.unsigned 0)]).write = [0x81, 0xc1, 0] := by decide
  refine ⟨?_, ?_, hitem, fun u hu => ?_⟩
  · obtain ⟨w, hw, hagree⟩ := ((tagged_exact _ nestedMap).2.1 _ hmap (by decide)).1 hlies
    obtain ⟨-, -, hwritten, -, -, hitems⟩ := tagged_exact 18446744073709551615 w
    refine ⟨w, hw, hagree, hwritten _ hw, fun u hu => ?_, (hitems _ hw (by decide)).2⟩
    exact (tagged_exact 0 u).2.2.2.1 _ hu _ hw
  · exact ((tagged_exact 0 (tower 65)).2.1 _ htower (by decide)).2
      ⟨65, .unsigned 0, lies_tower 65, by decide⟩
  · obtain ⟨-, -, -, -, hitems, -⟩ := tagged_exact 0 u
    exact (hitems _ hu (by decide)).2 _ hitem (.item List.mem_cons_self (.here 1 _))

end Conformance.Canonical
