import Conformance.Proofs.Canonical.MessageEncoding
import Conformance.Proofs.Canonical.Tagged
import Conformance.Proofs.Handshake
import Conformance.Proofs.Message.Validation
import Conformance.Proofs.Text.Base64.Exact
import Mathlib

/-!
# Hashing of messages

A message that is valid and has no warnings holds its declared fields and nothing
else, and every value that a field may hold has a canonical encoding. The bounds on
the fields bound the encoding of the whole, far below what a byte string can hold,
so the message can be hashed, its tagged form is read back, and no other message
without violations or warnings has its bytes.
-/
namespace Conformance

namespace Json

theorem Plain.depth_eq {j : Json} (h : j.Plain) : j.depth = 0 := by
  cases h <;> rfl

theorem depthEntries_le {entries : Object} (h : ∀ e ∈ entries, e.2.Plain) :
    depthEntries entries ≤ 1 := by
  induction entries with
  | nil => exact Nat.zero_le 1
  | cons e rest ih =>
    obtain ⟨hfirst, hrest⟩ := List.forall_mem_cons.mp h
    have hle := ih hrest
    rw [depthEntries, hfirst.depth_eq]
    omega

/-- What has a leaf and is plain is that leaf. -/
theorem Leaf.plain {leaf j : Json} (h : Leaf leaf j) (hj : j.Plain) : leaf.Plain := by
  cases hj with
  | text s =>
    cases h
    exact .text s
  | whole n hn =>
    cases h
    exact .whole n hn

end Json

namespace Text.Base64

/-- A decoded text is not much longer than four symbols for each three bytes. -/
theorem length_le_of_decode {text : String} {bytes : Bytes} (h : decode text = .ok bytes) :
    3 * (Bytes.ofString text).length ≤ 4 * bytes.length + 21 := by
  obtain ⟨form, hform, htext⟩ := (decode_eq_ok_iff text bytes).mp h
  have hpads := form.2.pads_le bytes.length
  rw [(eq_written_iff hform text bytes).mp htext, length_encodeWith]
  omega

end Text.Base64

namespace Canonical

theorem length_header_le (major : Major) (n : ℕ) : (Header.write major n).length ≤ 9 := by
  have hwidth := Header.width_le n
  rw [Header.write_eq, List.length_cons, Bytes.length_ofNat]
  omega

theorem length_textCode_le (s : String) : (textCode s).length ≤ s.utf8ByteSize + 9 := by
  have hheader := length_header_le .text (Bytes.ofString s).length
  have hsize : (Bytes.ofString s).length = s.utf8ByteSize := rfl
  rw [textCode, List.length_append]
  omega

theorem length_writeEntries_le {entries : List EncodedEntry} {most : ℕ}
    (h : ∀ p ∈ entries, p.1.length + p.2.length ≤ most) :
    (writeEntries entries).length ≤ entries.length * most := by
  induction entries with
  | nil => simp [writeEntries]
  | cons p entries ih =>
    obtain ⟨hfirst, hrest⟩ := List.forall_mem_cons.mp h
    have hle := ih hrest
    have hsplit := writeEntries_cons p entries []
    simp only [List.append_nil] at hsplit
    rw [hsplit, List.length_append, List.length_append, List.length_cons, Nat.succ_mul]
    omega

/-- An object with few entries, each of a short key and value, has a short encoding. -/
theorem length_le_of_encodes_object {entries : Json.Object} {v : Value} {code : Bytes} {most : ℕ}
    (hv : Represents (.object entries) v) (hcode : Encodes v code)
    (h : ∀ e ∈ entries, ∀ w bytes, Represents e.2 w → Encodes w bytes →
      (textCode e.1).length + bytes.length ≤ most) :
    code.length ≤ entries.length * most + 9 := by
  obtain ⟨values, hvalues, rfl⟩ := (represents_object_iff entries v).mp hv
  obtain ⟨encoded, hencoded, hwrite⟩ := (encodes_map_iff_writeMap values code).mp hcode
  obtain ⟨sorted, hperm, -, rfl⟩ := (writeMap_eq_ok_iff encoded code).mp hwrite
  have hcount : sorted.length = entries.length := by
    rw [hperm.length_eq, ← hencoded.length_eq, hvalues.length_eq]
  have hshort : ∀ p ∈ sorted, p.1.length + p.2.length ≤ most := by
    intro p hp
    obtain ⟨m, hm, hkey, hvalue⟩ := Pointwise.exists_left hencoded (hperm.subset hp)
    obtain ⟨e, he, hname, hrep⟩ := Pointwise.exists_left hvalues hm
    rw [hname] at hkey
    have hkeyCode : p.1 = textCode e.1 := (encodes_text e.1 p.1).mp hkey
    rw [hkeyCode]
    exact h e he m.2 p.2 hrep hvalue
  have hentries := length_writeEntries_le hshort
  have hheader := length_header_le .map sorted.length
  rw [List.length_append]
  rw [hcount] at hentries hheader ⊢
  omega

end Canonical

namespace Message
open Canonical

namespace FieldKind

/-- The texts that the kind allows are no longer than names, and its byte strings no longer than
the longest ciphertext. -/
def Modest : FieldKind → Prop
  | .text allowed => ∀ s ∈ allowed, s.utf8ByteSize ≤ maxNameLength
  | .integer _ _ => True
  | .binary _ max => max ≤ 65536

instance : DecidablePred Modest
  | .text allowed => inferInstanceAs (Decidable (∀ s ∈ allowed, s.utf8ByteSize ≤ maxNameLength))
  | .integer _ _ => inferInstanceAs (Decidable True)
  | .binary _ max => inferInstanceAs (Decidable (max ≤ 65536))

/-- What a field may hold is a string, or a number that fits 64 bits without a sign. -/
theorem Meets.plain {kind : FieldKind} {value : Json} (h : kind.Meets value) : value.Plain := by
  cases h with
  | name | choice | binary => exact .text _
  | integer fits => exact .whole _ fits

/-- The longest is the text of the longest byte string, of four symbols for each three bytes. -/
theorem Meets.length_le {kind : FieldKind} {value : Json} (h : kind.Meets value)
    (hkind : kind.Modest) {v : Value} {code : Bytes} (hv : Represents value v)
    (hcode : Encodes v code) : code.length ≤ 90000 := by
  have htext (s : String) (hs : s.utf8ByteSize ≤ 89991) (hrep : Represents (.text s) v) :
      code.length ≤ 90000 := by
    obtain rfl := (represents_text_iff s v).mp hrep
    obtain rfl : code = textCode s := (encodes_text s code).mp hcode
    have hle := length_textCode_le s
    omega
  cases h with
  | name nonempty short => exact htext _ (by omega) hv
  | choice hallowed =>
    have hshort := hkind _ hallowed
    rw [maxNameLength] at hshort
    exact htext _ (by omega) hv
  | integer =>
    obtain ⟨k, -, -, rfl⟩ := (represents_number_iff _ v).mp hv
    obtain rfl := (encodes_unsigned _ code).mp hcode
    exact (length_header_le _ _).trans (by omega)
  | @binary min max s bytes hdecode least greatest =>
    have hmax : max ≤ 65536 := hkind
    have hlength := Text.Base64.length_le_of_decode hdecode
    have hsize : (Bytes.ofString s).length = s.utf8ByteSize := rfl
    exact htext s (by omega) hv

end FieldKind

namespace Kind

theorem modest_of_mem_fields {kind : Kind} {field : Field} (h : field ∈ kind.fields) :
    field.kind.Modest := by
  have hall : ∀ f ∈ kind.fields, f.kind.Modest := by
    cases kind <;> decide
  exact hall field h

/-- The keys that a message of the kind has. -/
def keys (kind : Kind) : List String :=
  "type" :: kind.fields.map Field.name

theorem mem_keys_iff (kind : Kind) (key : String) : key ∈ kind.keys ↔ ¬ kind.Undeclared key := by
  simp only [keys, List.mem_cons, List.mem_map, Undeclared, not_and_or, not_not, not_forall,
    exists_prop]

theorem length_keys_le (kind : Kind) : kind.keys.length ≤ 7 := by
  cases kind <;> decide

theorem utf8ByteSize_le_of_mem_keys {kind : Kind} {key : String} (h : key ∈ kind.keys) :
    key.utf8ByteSize ≤ 32 := by
  have hall : ∀ k ∈ kind.keys, k.utf8ByteSize ≤ 32 := by
    cases kind <;> decide
  exact hall key h

theorem utf8ByteSize_name_le (kind : Kind) : kind.name.utf8ByteSize ≤ 32 := by
  cases kind <;> decide

end Kind

/-- The message is of the kind, and holds nothing but what its fields may hold. -/
structure Complete (kind : Kind) (entries : Json.Object) : Prop where
  increasing : entries.Increasing
  type : entries.get? "type" = some (.text kind.name)
  fields : ∀ field ∈ kind.fields, field.Satisfied (entries.get? field.name)
  declared : ∀ e ∈ entries, e.1 ∈ kind.keys

theorem exists_complete {m : Json} (hm : m.Ordered) (hvalid : (validate m).valid = true)
    (hwarnings : (validate m).warnings = []) :
    ∃ kind entries, m = .object entries ∧ (validate m).kind = some kind ∧
      Complete kind entries := by
  have herrors := (verdict_validate m).valid_iff.mp hvalid
  have hverdict := verdict_validate m
  generalize hresult : validate m = verdict at *
  cases hverdict with
  | notAnObject | missingType | typeNotText | unknownType => cases herrors
  | @checked entries kind errors _ htype hcollects =>
    have hconforms := (conforms_iff kind (.object entries)).mpr
      ⟨hresult.symm ▸ hvalid, hresult.symm ▸ rfl⟩
    obtain ⟨_, hentries, -, hfields⟩ := hconforms
    cases hentries
    refine ⟨kind, entries, rfl, rfl, hm.increasing, htype, hfields, fun e he => ?_⟩
    have hnone : kind.undeclaredKeys entries = [] := List.map_eq_nil_iff.mp hwarnings
    have hkey := List.filter_eq_nil_iff.mp hnone e.1 (List.mem_map_of_mem he)
    exact (kind.mem_keys_iff e.1).mpr fun hundeclared => hkey (decide_eq_true hundeclared)

namespace Complete
variable {kind : Kind} {entries : Json.Object} (h : Complete kind entries)
include h

/-- An entry is the type of the message, or what one of its fields may hold. -/
theorem entry_cases {e : String × Json} (he : e ∈ entries) :
    e.2 = .text kind.name ∨ ∃ field ∈ kind.fields, field.kind.Meets e.2 := by
  have hget := (h.increasing.get?_eq_some_iff e.1 e.2).mpr he
  rcases List.mem_cons.mp (h.declared e he) with hkey | hkey
  · rw [hkey, h.type] at hget
    exact .inl (Option.some.inj hget).symm
  · obtain ⟨field, hfield, hname⟩ := List.mem_map.mp hkey
    obtain ⟨value, hvalue, hmeets⟩ := h.fields field hfield
    rw [hname, hget] at hvalue
    obtain rfl := Option.some.inj hvalue
    exact .inr ⟨field, hfield, hmeets⟩

theorem plain {e : String × Json} (he : e ∈ entries) : e.2.Plain := by
  rcases h.entry_cases he with htype | ⟨field, -, hmeets⟩
  · rw [htype]
    exact .text _
  · exact hmeets.plain

theorem length_le : entries.length ≤ 7 := by
  have hsubset : entries.map Prod.fst ⊆ kind.keys := by
    intro key hkey
    obtain ⟨e, he, rfl⟩ := List.mem_map.mp hkey
    exact h.declared e he
  have hle := (h.increasing.nodup_keys.subperm hsubset).length_le
  rw [List.length_map] at hle
  exact hle.trans kind.length_keys_le

theorem exists_represents : ∃ v, Represents (.object entries) v := by
  refine (exists_represents_iff _).mpr fun leaf hleaf => ?_
  cases hleaf with
  | value he below => exact below.plain (h.plain he)

theorem depth_le : (Json.object entries).depth ≤ 1 :=
  Json.depthEntries_le fun _ he => h.plain he

theorem code_length_lt {v : Value} {code : Bytes} (hv : Represents (.object entries) v)
    (hcode : Encodes v code) : code.length < 2 ^ 20 := by
  have hentry : ∀ e ∈ entries, ∀ w bytes, Represents e.2 w → Encodes w bytes →
      (textCode e.1).length + bytes.length ≤ 90041 := by
    intro e he w bytes hw hbytes
    have hkey := Kind.utf8ByteSize_le_of_mem_keys (h.declared e he)
    have hkeyCode := length_textCode_le e.1
    have hvalue : bytes.length ≤ 90000 := by
      rcases h.entry_cases he with htype | ⟨field, hfield, hmeets⟩
      · rw [htype] at hw
        obtain rfl := (represents_text_iff _ w).mp hw
        obtain rfl : bytes = textCode kind.name := (encodes_text _ bytes).mp hbytes
        have hname := kind.utf8ByteSize_name_le
        have hnameCode := length_textCode_le kind.name
        omega
      · exact hmeets.length_le (Kind.modest_of_mem_fields hfield) hw hbytes
    omega
  have hle := length_le_of_encodes_object hv hcode hentry
  have hcount := h.length_le
  omega

end Complete

/-- A message in order without violations or warnings has a canonical value and an encoding, which
no other such message has. Under the tag of its kind the value is written and read back. So the
digest of the message is defined, and whatever a handshake derives from it. -/
theorem hashable (m : Json) (hm : m.Ordered) (hvalid : (validate m).valid = true)
    (hwarnings : (validate m).warnings = []) :
    ∃ kind v code, (validate m).kind = some kind ∧ ofJson m = .ok v ∧ encode v = .ok code ∧
      (∃ bytes, encodeTagged (UInt64.ofNat kind.tag) v = .ok bytes ∧
        ∃ w, decodeTagged bytes = .ok (UInt64.ofNat kind.tag, w) ∧ (w == v) = true) ∧
      (∀ k, k.Ordered → (validate k).valid = true → (validate k).warnings = [] →
        ∃ w other, ofJson k = .ok w ∧ encode w = .ok other ∧
          (other = code ↔ (k == m) = true)) ∧
      Handshake.derive m =
        .ok ⟨Sha256.digest code, KeySchedule.sessionId (Sha256.digest code)⟩ := by
  have hcodes : ∀ k : Json, k.Ordered → (validate k).valid = true → (validate k).warnings = [] →
      ∃ kind v code, (validate k).kind = some kind ∧ Represents k v ∧ Encodes v code ∧
        code.length < UInt64.size ∧ v.depth ≤ maxDepth := by
    intro k hk hkvalid hkwarnings
    obtain ⟨kind, entries, rfl, hkind, hcomplete⟩ := exists_complete hk hkvalid hkwarnings
    obtain ⟨v, hv⟩ := hcomplete.exists_represents
    obtain ⟨code, hcode⟩ := exists_encodes hk hv
    have hlength := hcomplete.code_length_lt hv hcode
    have hdepth : v.depth = (Json.object entries).depth := depth_of_represents hv
    have hshallow := hcomplete.depth_le
    exact ⟨kind, v, code, hkind, hv, hcode, hlength.trans (by decide), by rw [maxDepth]; omega⟩
  obtain ⟨kind, v, code, hkind, hv, hcode, hlength, hdepth⟩ := hcodes m hm hvalid hwarnings
  refine ⟨kind, v, code, hkind, hv, hcode, ⟨_, (encodeTagged_eq_ok_iff _ v _).mpr
    ⟨code, hcode, rfl⟩, decodeTagged_reads hcode hlength hdepth⟩, ?_, ?_⟩
  · intro k hk hkvalid hkwarnings
    obtain ⟨-, w, other, -, hw, hother, hshort, -⟩ := hcodes k hk hkvalid hkwarnings
    refine ⟨w, other, hw, hother, fun hsame => ?_, fun hsame => ?_⟩
    · subst hsame
      have hagree := (Value.beq_iff w v).mp (Encodes.beq hother hcode hshort)
      exact (beq_iff_eq_of_represents m hw).mpr
        (Arranges.unique hk hm ⟨w, hw, rfl⟩ ⟨v, hv, hagree.symm⟩)
    · obtain rfl := (beq_iff_eq_of_represents m hw).mp hsame
      obtain rfl : w = v := Except.ok.inj (hw.symm.trans hv)
      exact hother.unique hcode
  · exact (Handshake.derive_eq_ok_iff m _).mpr ⟨v, code, hv, hcode, rfl⟩

/-- A message to reset a device, at some time. -/
def resetAt (time : ℕ) : Json :=
  .ofEntries [("type", .text "DR_RESET"), ("version", .ofNat 1),
    ("device_id", .text (Text.Base64.encode (Bytes.zeros 32))),
    ("reset_reason", .text "device_lost"), ("timestamp", .ofNat time)]

theorem ordered_resetAt (time : ℕ) : (resetAt time).Ordered :=
  Json.ordered_ofEntries (by simp)

theorem hashable_resets :
    validate (resetAt 0) = ⟨true, some .reset, [], []⟩ ∧
    validate (resetAt 18446744073709551615) = ⟨true, some .reset, [], []⟩ ∧
    ∃ v code, ofJson (resetAt 0) = .ok v ∧ encode v = .ok code ∧
      (∃ bytes w, encodeTagged 0xD6 v = .ok bytes ∧ decodeTagged bytes = .ok (0xD6, w) ∧
        (w == v) = true) ∧
      (∃ w other, ofJson (resetAt 18446744073709551615) = .ok w ∧ encode w = .ok other ∧
        other ≠ code) ∧
      ∃ derived, Handshake.derive (resetAt 0) = .ok derived := by
  have hfirst : validate (resetAt 0) = ⟨true, some .reset, [], []⟩ := by cbv
  have hlast : validate (resetAt 18446744073709551615) = ⟨true, some .reset, [], []⟩ := by cbv
  have hdiffer : (resetAt 18446744073709551615 == resetAt 0) = false := by cbv
  obtain ⟨kind, v, code, hkind, hv, hcode, ⟨bytes, hbytes, w, hw, hagree⟩, hothers, hderive⟩ :=
    hashable (resetAt 0) (ordered_resetAt 0) (by rw [hfirst]) (by rw [hfirst])
  rw [hfirst] at hkind
  cases hkind
  obtain ⟨u, other, hu, hother, hequal⟩ := hothers _ (ordered_resetAt 18446744073709551615)
    (by rw [hlast]) (by rw [hlast])
  refine ⟨hfirst, hlast, v, code, hv, hcode, ⟨bytes, w, hbytes, hw, hagree⟩,
    ⟨u, other, hu, hother, fun hsame => ?_⟩, _, hderive⟩
  rw [hequal.mp hsame] at hdiffer
  cases hdiffer

end Message
end Conformance
