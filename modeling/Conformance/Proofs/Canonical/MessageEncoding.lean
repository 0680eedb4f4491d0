import Conformance.Proofs.Canonical.OfJson
import Conformance.Proofs.Canonical.RoundTrip
import Mathlib

/-!
# Encodings of messages

The keys of an object are distinct, and so are their encodings: a message that
has a canonical value always has an encoding. Two such messages have one encoding
exactly when they are equal, and decoding recovers the value of a message that is
not too deep.
-/
namespace Conformance

namespace Json

theorem sameItems_iff {items : List Json} (others : List Json)
    (h : ∀ item ∈ items, ∀ other, same item other = true ↔ item = other) :
    sameItems items others = true ↔ items = others := by
  induction items generalizing others with
  | nil => cases others <;> simp [sameItems]
  | cons item items ih =>
    cases others with
    | nil => simp [sameItems]
    | cons other others =>
      rw [sameItems, Bool.and_eq_true, h item List.mem_cons_self,
        ih others fun a ha => h a (List.mem_cons_of_mem item ha), List.cons.injEq]

theorem sameEntries_iff {entries : Object} (others : Object)
    (h : ∀ e ∈ entries, ∀ other, same e.2 other = true ↔ e.2 = other) :
    sameEntries entries others = true ↔ entries = others := by
  induction entries generalizing others with
  | nil => cases others <;> simp [sameEntries]
  | cons e entries ih =>
    cases others with
    | nil => simp [sameEntries]
    | cons other others =>
      rw [sameEntries, Bool.and_eq_true, Bool.and_eq_true, beq_iff_eq,
        h e List.mem_cons_self, ih others fun a ha => h a (List.mem_cons_of_mem e ha),
        List.cons.injEq, Prod.ext_iff]
end Json

namespace Canonical

/-- Without doubles, equality of messages is sameness of all their parts. -/
theorem beq_iff_eq_of_represents {j : Json} (k : Json) {v : Value} (h : Represents j v) :
    (j == k) = true ↔ j = k := by
  change Json.same j k = true ↔ j = k
  induction j using Json.induction generalizing k v with
  | null | boolean => cases h
  | number n =>
    obtain ⟨a, -, rfl, -⟩ := (represents_number_iff n v).mp h
    cases k with
    | number m => cases m <;> simp [Json.same, Json.Number.same]
    | null | boolean | text | array | object => simp [Json.same]
  | text s => cases k <;> simp [Json.same]
  | array items ih =>
    obtain ⟨values, hvalues, -⟩ := (represents_array_iff items v).mp h
    cases k with
    | array others =>
      rw [Json.same, Json.array.injEq]
      refine Json.sameItems_iff others fun item hitem other => ?_
      obtain ⟨value, -, hvalue⟩ := Pointwise.exists_right hvalues hitem
      exact ih item hitem other hvalue
    | null | boolean | number | text | object => simp [Json.same]
  | object entries ih =>
    obtain ⟨values, hvalues, -⟩ := (represents_object_iff entries v).mp h
    cases k with
    | object others =>
      rw [Json.same, Json.object.injEq]
      refine Json.sameEntries_iff others fun e he other => ?_
      obtain ⟨m, -, hm⟩ := Pointwise.exists_right hvalues he
      exact ih e he other hm.2
    | null | boolean | number | text | array => simp [Json.same]
/-- The encoding of a text. -/
def textCode (s : String) : Bytes :=
  Header.write .text (Bytes.ofString s).length ++ Bytes.ofString s

/-- A longer text has a longer encoding, so the length of an encoding gives that of its header. -/
theorem textCode_injective : Function.Injective textCode := by
  intro s t h
  have hwidth : ∀ m n : ℕ, m + Header.width m = n + Header.width n → m = n := by
    intro m n
    unfold Header.width
    simp only [UInt8.size, UInt16.size, UInt32.size]
    split_ifs <;> omega
  have hlength := congrArg List.length h
  simp only [textCode, Header.write_eq, List.length_append, List.length_cons,
    Bytes.length_ofNat] at hlength
  have hsame : (Bytes.ofString s).length = (Bytes.ofString t).length := hwidth _ _ (by omega)
  rw [textCode, textCode, hsame] at h
  exact Bytes.ofString_injective (List.append_cancel_left h)

theorem exists_encodes {j : Json} {v : Value} (hj : j.Ordered) (hv : Represents j v) :
    ∃ bytes, Encodes v bytes := by
  induction j using Json.induction generalizing v with
  | null => cases hv
  | boolean b => cases hv
  | number n =>
    obtain ⟨k, -, -, rfl⟩ := (represents_number_iff n v).mp hv
    exact ⟨_, (encodes_unsigned _ _).mpr rfl⟩
  | text s =>
    obtain rfl := (represents_text_iff s v).mp hv
    exact ⟨_, (encodes_text s _).mpr rfl⟩
  | array items ih =>
    obtain ⟨values, hvalues, rfl⟩ := (represents_array_iff items v).mp hv
    have hcodes : ∃ codes, List.Forall₂ Encodes values codes := by
      refine Pointwise.exists_forall₂_iff.mpr fun value hmem => ?_
      obtain ⟨item, hitem, hrep⟩ := Pointwise.exists_left hvalues hmem
      exact ih item hitem (hj.items item hitem) hrep
    obtain ⟨codes, hcodes⟩ := hcodes
    exact ⟨_, (encodes_array values _).mpr ⟨codes, hcodes, rfl⟩⟩
  | object entries ih =>
    obtain ⟨values, hvalues, rfl⟩ := (represents_object_iff entries v).mp hv
    have hthird : List.Forall₂ (fun e m => ∃ p : EncodedEntry, EncodesEntry m p ∧
        textCode e.1 = p.1) entries values := by
      refine (Pointwise.with_mem hvalues).imp ?_
      rintro e m ⟨he, -, hkey, hvalue⟩
      obtain ⟨code, hcode⟩ := ih e he (hj.values e he) hvalue
      refine ⟨(textCode e.1, code), ⟨?_, hcode⟩, rfl⟩
      rw [hkey]
      exact (encodes_text e.1 _).mpr rfl
    obtain ⟨encoded, hencoded, hkeys⟩ := Pointwise.exists_third hthird
    have hnodup : (encoded.map Prod.fst).Nodup := by
      rw [← Pointwise.map_eq_of hkeys]
      have hdistinct := (Json.Object.Increasing.nodup_keys hj.increasing).map textCode_injective
      rwa [List.map_map] at hdistinct
    have hwrite := (writeMap_eq_ok_iff encoded _).mpr
      ⟨sortEntries encoded, sortEntries_perm encoded, sortEntries_increase hnodup, rfl⟩
    exact ⟨_, (encodes_map_iff_writeMap values _).mpr ⟨encoded, hencoded, hwrite⟩⟩
/-- A message that is refused is refused for a leaf. One that is accepted has an encoding, which
no other accepted message has, and which is decoded to its canonical value if the message keeps
within the depth that the decoder allows. -/
theorem encode_ofJson (j : Json) :
    ((∃ v, ofJson j = .ok v) ↔ ∀ leaf, Json.Leaf leaf j → leaf.Plain) ∧
    ((∃ leaf, Json.Leaf leaf j ∧ ¬ leaf.Plain) →
      ∃ leaf refusal, Json.Leaf leaf j ∧ ¬ leaf.Plain ∧ ofJson leaf = .error refusal ∧
        ofJson j = .error refusal ∧ refusal.fault.kind = .encode) ∧
    (j.Ordered → ∀ v, ofJson j = .ok v → ∃ bytes, encode v = .ok bytes ∧
      (∀ k w code, k.Ordered → ofJson k = .ok w → encode w = .ok code →
        ((j == k) = true → bytes = code) ∧
        (bytes.length < UInt64.size → bytes = code → (j == k) = true)) ∧
      (bytes.length < UInt64.size →
        (j.depth ≤ 64 → ∃ w, decode bytes = .ok w ∧ (w == v) = true) ∧
        (64 < j.depth → decode bytes = .error .tooDeep))) := by
  refine ⟨exists_represents_iff j, ?_, fun hj v hv => ?_⟩
  · rintro ⟨bad, hbad, hplain⟩
    cases hresult : ofJson j with
    | ok v => exact absurd ((exists_represents_iff j).mp ⟨v, hresult⟩ bad hbad) hplain
    | error refusal =>
      obtain ⟨leaf, hleaf, hrefused⟩ := exists_refused_leaf hresult
      refine ⟨leaf, refusal, hleaf, fun hp => ?_, hrefused, rfl, rfl⟩
      obtain ⟨v, hv⟩ := represents_of_plain hp
      cases hv.symm.trans hrefused
  · obtain ⟨bytes, hbytes⟩ := exists_encodes hj hv
    have hdepth : v.depth = j.depth := depth_of_represents hv
    refine ⟨bytes, hbytes, fun k w code hk hw hcode => ⟨fun hsame => ?_, ?_⟩,
      fun hlen => ⟨fun hshallow => ?_, fun hdeep => ?_⟩⟩
    · obtain rfl := (beq_iff_eq_of_represents k hv).mp hsame
      obtain rfl : v = w := Except.ok.inj (hv.symm.trans hw)
      exact hbytes.unique hcode
    · rintro hlen rfl
      have hagree := (Value.beq_iff v w).mp (Encodes.beq hbytes hcode hlen)
      exact (beq_iff_eq_of_represents k hv).mpr
        (Arranges.unique hj hk ⟨v, hv, rfl⟩ ⟨w, hw, hagree.symm⟩)
    · exact decode_reads hbytes hlen (hdepth.trans_le hshallow)
    · exact decode_refuses hbytes hlen (hdepth.symm ▸ hdeep)

/-- An object with a nested object and the greatest number that has a canonical value. -/
def nestedMessage : Json :=
  .ofEntries [("parts", .array [.text "ü", .ofEntries [("n", .ofNat 24), ("", .array [])]]),
    ("id", .ofNat 18446744073709551615)]

def nestedMessageBytes : Bytes :=
  [0xa2, 0x62, 0x69, 0x64, 0x1b, 0xff, 0xff, 0xff, 0xff, 0xff, 0xff, 0xff, 0xff,
    0x65, 0x70, 0x61, 0x72, 0x74, 0x73, 0x82, 0x62, 0xc3, 0xbc,
    0xa2, 0x60, 0x80, 0x61, 0x6e, 0x18, 0x18]

theorem ordered_nestedMessage : nestedMessage.Ordered :=
  Json.ordered_ofEntries (by simp [Json.ordered_ofEntries])

/-- So many arrays, each the only item of the one around it. -/
def messageTower : ℕ → Json
  | 0 => .ofNat 0
  | n + 1 => .array [messageTower n]

theorem ordered_messageTower (n : ℕ) : (messageTower n).Ordered := by
  induction n with
  | zero => exact Json.ordered_ofNat 0
  | succ n ih => simpa [messageTower] using ih

set_option maxRecDepth 4000 in
theorem encode_ofJson_nested_and_tower :
    (∃ leaf refusal, Json.Leaf leaf (.array [.text "a", .ofInt (-1)]) ∧ ¬ leaf.Plain ∧
      ofJson leaf = .error refusal ∧
      ofJson (.array [.text "a", .ofInt (-1)]) = .error refusal ∧ refusal.fault.kind = .encode) ∧
    (∃ v, ofJson nestedMessage = .ok v ∧ encode v = .ok nestedMessageBytes ∧
      (∃ w, decode nestedMessageBytes = .ok w ∧ (w == v) = true) ∧
      ∀ k w, k.Ordered → ofJson k = .ok w → encode w = .ok nestedMessageBytes →
        (nestedMessage == k) = true) ∧
    ∃ v, ofJson (messageTower 65) = .ok v ∧ encode v = .ok (List.replicate 65 0x81 ++ [0]) ∧
      decode (List.replicate 65 0x81 ++ [0]) = .error .tooDeep := by
  have hnested : ∃ v, ofJson nestedMessage = .ok v ∧ encode v = .ok nestedMessageBytes :=
    ⟨_, by cbv, by cbv⟩
  obtain ⟨v, hv, hcode⟩ := hnested
  have htower : ∃ v, ofJson (messageTower 65) = .ok v ∧
      encode v = .ok (List.replicate 65 0x81 ++ [0]) := ⟨_, rfl, rfl⟩
  obtain ⟨t, ht, htcode⟩ := htower
  have hnegative : Json.Leaf (.ofInt (-1)) (.array [.text "a", .ofInt (-1)]) :=
    .item (List.mem_cons_of_mem _ List.mem_cons_self) (.number _)
  refine ⟨(encode_ofJson _).2.1 ⟨_, hnegative, fun h => by cases h⟩, ⟨v, hv, hcode, ?_⟩,
    t, ht, htcode, ?_⟩
  · obtain ⟨bytes, hbytes, hequal, hread⟩ :=
      (encode_ofJson nestedMessage).2.2 ordered_nestedMessage v hv
    have hdepth : nestedMessage.depth ≤ 64 := by
      cbv
    obtain rfl : nestedMessageBytes = bytes := Except.ok.inj (hcode.symm.trans hbytes)
    refine ⟨(hread (by decide)).1 hdepth, fun k w hk hw hk' => ?_⟩
    exact (hequal k w _ hk hw hk').2 (by decide) rfl
  · obtain ⟨bytes, hbytes, -, hread⟩ :=
      (encode_ofJson (messageTower 65)).2.2 (ordered_messageTower 65) t ht
    obtain rfl := Except.ok.inj (htcode.symm.trans hbytes)
    exact (hread (by decide)).2 (by decide)

end Canonical
end Conformance
