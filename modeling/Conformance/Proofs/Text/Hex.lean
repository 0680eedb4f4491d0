import Conformance.Poisoning.Checks
import Conformance.Proofs.Sequencing
import Mathlib

/-!
# Hexadecimal text read exactly

A pair of characters is read as a number in base sixteen, and numbers may begin with a
plus sign. So the texts that are read are an even number of digits of either case, where
a plus sign may take the place of a zero that stands first in its pair, and the digits of
the bytes read are those of the text in lower case. Without a plus sign in the text this
is hexadecimal text and nothing else.
-/
namespace Conformance.Text.Hex
open Conformance

/-- The digits of either case. -/
def digits : List Char :=
  ['0', '1', '2', '3', '4', '5', '6', '7', '8', '9', 'a', 'b', 'c', 'd', 'e', 'f',
    'A', 'B', 'C', 'D', 'E', 'F']

/-- A plus sign read as the digit zero. -/
def plusAsZero (c : Char) : Char :=
  if c = '+' then '0' else c

theorem mem_digits_of_digit? {c : Char} {n : ℕ} (h : digit? c = some n) : c ∈ digits := by
  have hascii : c.toNat < 128 := by
    have hle {a b : Char} : a ≤ b ↔ a.toNat ≤ b.toNat := Iff.rfl
    unfold digit? at h
    split_ifs at h with hdecimal hlower hupper
    · exact (hle.mp hdecimal.2).trans_lt (by decide)
    · exact (hle.mp hlower.2).trans_lt (by decide)
    · exact (hle.mp hupper.2).trans_lt (by decide)
  have hall : ∀ k < 128, (digit? (Char.ofNat k)).isSome → Char.ofNat k ∈ digits := by decide
  have hc := hall c.toNat hascii
  rw [Char.ofNat_toNat, h] at hc
  exact hc rfl

theorem exists_digit?_of_mem : ∀ c ∈ digits, ∃ n ∈ digit? c, n < 16 ∧ digit n = c.toLower :=
  List.all_iff_forall_prop.mp (by decide)

theorem digit_injective : ∀ m < 16, ∀ n < 16, digit m = digit n → m = n := by
  decide

theorem digit?_eq_some_iff {c : Char} {n : ℕ} :
    digit? c = some n ↔ c ∈ digits ∧ n < 16 ∧ digit n = c.toLower := by
  constructor
  · intro h
    have hc := mem_digits_of_digit? h
    obtain ⟨m, hread, hm, hdigit⟩ := exists_digit?_of_mem c hc
    obtain rfl : m = n := Option.some.inj (hread.symm.trans h)
    exact ⟨hc, hm, hdigit⟩
  · rintro ⟨hc, hn, hlower⟩
    obtain ⟨m, hread, hm, hdigit⟩ := exists_digit?_of_mem c hc
    rw [hread, digit_injective m hm n hn (hdigit.trans hlower.symm)]

theorem digit_mem_digits : ∀ n < 16, digit n ∈ digits ∧ (digit n).toLower = digit n := by
  decide

theorem mem_digits_of_toLower {c : Char} (h : c.toLower ∈ digits) : c ∈ digits := by
  rcases Nat.lt_or_ge c.toNat 128 with hascii | hother
  · have hall : ∀ k < 128, (Char.ofNat k).toLower ∈ digits → Char.ofNat k ∈ digits := by decide
    have hc := hall c.toNat hascii
    rw [Char.ofNat_toNat] at hc
    exact hc h
  · have hlower : c.toLower = c := by
      unfold Char.toLower
      refine dif_neg fun hupper => ?_
      have hle := UInt32.le_iff_toNat_le.mp hupper.2
      change 128 ≤ c.val.toNat at hother
      have hz : ('Z').val.toNat = 90 := rfl
      omega
    rwa [hlower] at h

theorem ofByte_eq_iff {h l : ℕ} (hh : h < 16) (hl : l < 16) (b : UInt8) :
    ofByte b = [digit h, digit l] ↔ UInt8.ofNat (16 * h + l) = b := by
  have hb := b.toNat_lt
  constructor
  · intro heq
    simp only [ofByte, List.cons.injEq, and_true] at heq
    have hhigh := digit_injective _ (by omega) _ hh heq.1
    have hlow := digit_injective _ (by omega) _ hl heq.2
    have hvalue : 16 * h + l = b.toNat := by omega
    rw [hvalue, UInt8.ofNat_toNat]
  · rintro rfl
    have hvalue : (UInt8.ofNat (16 * h + l)).toNat = 16 * h + l := by
      rw [UInt8.toNat_ofNat', Nat.mod_eq_of_lt (by omega)]
    have hhigh : (16 * h + l) / 16 = h := by omega
    have hlow : (16 * h + l) % 16 = l := by omega
    rw [ofByte, hvalue, hhigh, hlow]

theorem pair?_eq (high low : Char) : pair? high low = (do
    let h ← digit? (plusAsZero high)
    let l ← digit? low
    return UInt8.ofNat (16 * h + l)) := by
  unfold pair? plusAsZero
  split
  · have hzero : digit? '0' = some 0 := by decide
    rw [hzero]
    cases digit? low <;> simp
  · rfl

theorem plus_not_mem_digits : '+' ∉ digits := by
  decide

theorem plusAsZero_of_ne {c : Char} (h : c ≠ '+') : plusAsZero c = c :=
  if_neg h

theorem pair?_eq_some_iff {high low : Char} {b : UInt8} : pair? high low = some b ↔
    low ≠ '+' ∧ plusAsZero high ∈ digits ∧ plusAsZero low ∈ digits ∧
      ofByte b = [(plusAsZero high).toLower, (plusAsZero low).toLower] := by
  simp only [pair?_eq, Option.bind_eq_bind, Option.bind_eq_some_iff, Option.pure_def,
    Option.some.injEq, digit?_eq_some_iff]
  constructor
  · rintro ⟨h, ⟨hhigh, hh, hhighLower⟩, l, ⟨hlow, hl, hlowLower⟩, hb⟩
    have hplus : low ≠ '+' := ne_of_mem_of_not_mem hlow plus_not_mem_digits
    rw [plusAsZero_of_ne hplus, ← hhighLower, ← hlowLower]
    exact ⟨hplus, hhigh, hlow, (ofByte_eq_iff hh hl b).mpr hb⟩
  · rintro ⟨hplus, hhigh, hlow, hb⟩
    rw [plusAsZero_of_ne hplus] at hlow hb
    obtain ⟨h, -, hh, hhighLower⟩ := exists_digit?_of_mem _ hhigh
    obtain ⟨l, -, hl, hlowLower⟩ := exists_digit?_of_mem _ hlow
    rw [← hhighLower, ← hlowLower, ofByte_eq_iff hh hl] at hb
    exact ⟨h, ⟨hhigh, hh, hhighLower⟩, l, ⟨hlow, hl, hlowLower⟩, hb⟩

theorem pairs_cons_cons_eq_ok_iff {offset : ℕ} {high low : Char} {rest : List Char}
    {bytes : Bytes} : pairs offset (high :: low :: rest) = .ok bytes ↔
      ∃ b others, bytes = b :: others ∧ pair? high low = some b ∧
        pairs (offset + 2) rest = .ok others := by
  rw [pairs]
  cases pair? high low with
  | none => simp
  | some b =>
    dsimp only
    rw [map_eq_ok_iff]
    constructor
    · rintro ⟨others, hothers, rfl⟩
      exact ⟨b, others, rfl, rfl, hothers⟩
    · rintro ⟨b, others, rfl, hb, hothers⟩
      cases hb
      exact ⟨others, hothers, rfl⟩

theorem flatMap_ofByte_eq_cons_cons_iff {bytes : Bytes} {x y : Char} {rest : List Char} :
    bytes.flatMap ofByte = x :: y :: rest ↔
      ∃ b others, bytes = b :: others ∧ ofByte b = [x, y] ∧ others.flatMap ofByte = rest := by
  cases bytes with
  | nil => simp
  | cons b others => simp [ofByte, and_assoc]

theorem length_flatMap_ofByte (bytes : Bytes) :
    (bytes.flatMap ofByte).length = 2 * bytes.length := by
  induction bytes with
  | nil => rfl
  | cons b others ih =>
    rw [List.flatMap_cons, List.length_append, ih, List.length_cons, ofByte]
    simp only [List.length_cons, List.length_nil]
    omega

theorem exists_digit_of_mem_flatMap {bytes : Bytes} {c : Char} (h : c ∈ bytes.flatMap ofByte) :
    ∃ n < 16, c = digit n := by
  obtain ⟨b, -, hc⟩ := List.mem_flatMap.mp h
  have hb := b.toNat_lt
  simp only [ofByte, List.mem_cons, List.not_mem_nil, or_false] at hc
  rcases hc with rfl | rfl
  · exact ⟨_, by omega, rfl⟩
  · exact ⟨_, by omega, rfl⟩

/-- In a row of pairs each plus sign stands first in its own. -/
def PlusesFirst (chars : List Char) : Prop :=
  ∀ i, chars[2 * i + 1]? ≠ some '+'

theorem plusesFirst_cons_cons {high low : Char} {rest : List Char} :
    PlusesFirst (high :: low :: rest) ↔ low ≠ '+' ∧ PlusesFirst rest := by
  constructor
  · intro h
    exact ⟨by simpa using h 0, fun i => h (i + 1)⟩
  · rintro ⟨hlow, hrest⟩ (_ | i)
    · simpa using hlow
    · exact hrest i

theorem pairs_eq_ok_iff {offset : ℕ} {chars : List Char} {bytes : Bytes}
    (heven : chars.length % 2 = 0) : pairs offset chars = .ok bytes ↔
      PlusesFirst chars ∧ (∀ c ∈ chars.map plusAsZero, c ∈ digits) ∧
        bytes.flatMap ofByte = (chars.map plusAsZero).map Char.toLower := by
  induction chars using List.twoStepInduction generalizing offset bytes with
  | nil => 
    cases bytes <;> simp [pairs, PlusesFirst, ofByte]
  | singleton c => simp at heven
  | cons_cons high low rest ih =>
    have hrest : rest.length % 2 = 0 := by
      simp only [List.length_cons] at heven
      omega
    simp only [pairs_cons_cons_eq_ok_iff, pair?_eq_some_iff, ih hrest, plusesFirst_cons_cons,
      List.map_cons, List.forall_mem_cons, flatMap_ofByte_eq_cons_cons_iff]
    constructor
    · rintro ⟨b, others, hbytes, ⟨hplus, hhigh, hlow, hb⟩, hpluses, hdigits, hothers⟩
      exact ⟨⟨hplus, hpluses⟩, ⟨hhigh, hlow, hdigits⟩, b, others, hbytes, hb, hothers⟩
    · rintro ⟨⟨hplus, hpluses⟩, ⟨hhigh, hlow, hdigits⟩, b, others, hbytes, hb, hothers⟩
      exact ⟨b, others, hbytes, ⟨hplus, hhigh, hlow, hb⟩, hpluses, hdigits, hothers⟩

/-- The text with its plus signs read as zeros. -/
def zeroed (text : String) : String :=
  text.map plusAsZero

/-- An even number of digits of either case. -/
def Digital (text : String) : Prop :=
  text.toList.length % 2 = 0 ∧ ∀ c ∈ text.toList, c ∈ digits

/-- Hexadecimal text, where a plus sign may stand for a zero that is first in its pair. -/
def Legible (text : String) : Prop :=
  PlusesFirst text.toList ∧ Digital (zeroed text)

theorem digital_zeroed_iff (text : String) : Digital (zeroed text) ↔
    text.toList.length % 2 = 0 ∧ ∀ c ∈ text.toList.map plusAsZero, c ∈ digits := by
  rw [Digital, zeroed, String.toList_map, List.length_map]

theorem encode_eq_toLower_iff (text : String) (bytes : Bytes) :
    encode bytes = text.toLower ↔ bytes.flatMap ofByte = text.toList.map Char.toLower := by
  rw [← String.toList_inj, encode, String.toList_ofList, String.toLower, String.toList_map]

theorem ascii_of_digits {chars : List Char} (h : ∀ c ∈ chars.map plusAsZero, c ∈ digits) :
    chars.any (127 < ·.toNat) = false := by
  have hdigits : ∀ c ∈ digits, c.toNat ≤ 127 := List.all_iff_forall_prop.mp (by decide)
  rw [List.any_eq_false]
  intro c hc
  have hread := hdigits _ (h _ (List.mem_map_of_mem hc))
  by_cases hplus : c = '+'
  · subst hplus
    decide
  · rw [plusAsZero_of_ne hplus] at hread
    simpa using hread

theorem decode_eq_ok_iff (text : String) (bytes : Bytes) :
    decode text = .ok bytes ↔ Legible text ∧ encode bytes = (zeroed text).toLower := by
  rw [encode_eq_toLower_iff, Legible, digital_zeroed_iff, zeroed, String.toList_map, decode]
  constructor
  · intro h
    split_ifs at h with hascii hodd
    have heven : text.toList.length % 2 = 0 := by omega
    obtain ⟨hpluses, hdigits, hbytes⟩ := (pairs_eq_ok_iff heven).mp h
    exact ⟨⟨hpluses, heven, hdigits⟩, hbytes⟩
  · rintro ⟨⟨hpluses, heven, hdigits⟩, hbytes⟩
    have hodd : ¬ text.toList.length % 2 = 1 := by omega
    simp only [ascii_of_digits hdigits, Bool.false_eq_true, if_false, hodd]
    exact (pairs_eq_ok_iff heven).mpr ⟨hpluses, hdigits, hbytes⟩

theorem exists_flatMap_ofByte {chars : List Char} (heven : chars.length % 2 = 0)
    (h : ∀ c ∈ chars, c ∈ digits) :
    ∃ bytes : Bytes, bytes.flatMap ofByte = chars.map Char.toLower := by
  induction chars using List.twoStepInduction with
  | nil => exact ⟨[], rfl⟩
  | singleton c => simp at heven
  | cons_cons high low rest ih =>
    simp only [List.forall_mem_cons] at h
    obtain ⟨hhigh, hlow, hrest⟩ := h
    obtain ⟨m, -, hm, hhighLower⟩ := exists_digit?_of_mem high hhigh
    obtain ⟨n, -, hn, hlowLower⟩ := exists_digit?_of_mem low hlow
    have heven : rest.length % 2 = 0 := by
      simp only [List.length_cons] at heven
      omega
    obtain ⟨others, hothers⟩ := ih heven hrest
    refine ⟨UInt8.ofNat (16 * m + n) :: others, ?_⟩
    rw [List.flatMap_cons, (ofByte_eq_iff hm hn _).mpr rfl, hothers, hhighLower, hlowLower]
    rfl

theorem exists_decode_eq_ok {text : String} (h : Legible text) :
    ∃ bytes, decode text = .ok bytes := by
  obtain ⟨bytes, hbytes⟩ := exists_flatMap_ofByte h.2.1 h.2.2
  exact ⟨bytes, (decode_eq_ok_iff text bytes).mpr ⟨h, (encode_eq_toLower_iff _ _).mpr hbytes⟩⟩

theorem zeroed_of_no_plus {text : String} (h : '+' ∉ text.toList) : zeroed text = text := by
  have hmap : text.toList.map plusAsZero = text.toList.map id :=
    List.map_congr_left fun c hc => plusAsZero_of_ne (ne_of_mem_of_not_mem hc h)
  rw [← String.toList_inj, zeroed, String.toList_map, hmap, List.map_id]

theorem legible_iff_of_no_plus {text : String} (h : '+' ∉ text.toList) :
    Legible text ↔ Digital text := by
  rw [Legible, zeroed_of_no_plus h]
  exact and_iff_right fun i hplus => h (List.mem_of_getElem? hplus)

theorem read_eq_ok_iff (text : String) (bytes : Bytes) :
    read text = .ok bytes ↔ decode text = .ok bytes :=
  mapError_eq_ok_iff

theorem encode_toLower (bytes : Bytes) : (encode bytes).toLower = encode bytes := by
  have hmap : (bytes.flatMap ofByte).map Char.toLower = (bytes.flatMap ofByte).map id := by
    refine List.map_congr_left fun c hc => ?_
    obtain ⟨n, hn, rfl⟩ := exists_digit_of_mem_flatMap hc
    exact (digit_mem_digits n hn).2
  rw [eq_comm, encode_eq_toLower_iff, encode, String.toList_ofList, hmap, List.map_id]

/-- A text in the digits of some bytes, of either case, is read as these. -/
theorem read_of_encode_eq {text : String} {bytes : Bytes} (h : encode bytes = text.toLower) :
    read text = .ok bytes := by
  have hchars := (encode_eq_toLower_iff text bytes).mp h
  have hdigital : Digital text := by
    constructor
    · have hlength := congrArg List.length hchars
      rw [List.length_map, length_flatMap_ofByte] at hlength
      omega
    · intro c hc
      have hlower := List.mem_map_of_mem (f := Char.toLower) hc
      rw [← hchars] at hlower
      obtain ⟨n, hn, hdigit⟩ := exists_digit_of_mem_flatMap hlower
      exact mem_digits_of_toLower (hdigit ▸ (digit_mem_digits n hn).1)
  have hplus : '+' ∉ text.toList := fun hmem => plus_not_mem_digits (hdigital.2 _ hmem)
  rw [read_eq_ok_iff, decode_eq_ok_iff, legible_iff_of_no_plus hplus, zeroed_of_no_plus hplus]
  exact ⟨hdigital, h⟩

theorem readExact_eq_ok_iff (size : ℕ) (text : String) (bytes : Bytes) :
    readExact size text = .ok bytes ↔ read text = .ok bytes ∧ bytes.length = size := by
  rw [readExact, mapError_eq_ok_iff, decodeExact, bind_eq_ok_iff, read_eq_ok_iff]
  constructor
  · rintro ⟨found, hfound, hsize⟩
    split at hsize
    · cases hsize
      exact ⟨hfound, ‹_›⟩
    · cases hsize
  · rintro ⟨hfound, hsize⟩
    exact ⟨bytes, hfound, if_pos hsize⟩

/-- A text has no bytes: it is refused as undecodable whatever their number is to be, and a hash of
this text has length zero. -/
structure Refused (text : String) : Prop where
  refusal : ∃ fault, fault.kind = .decode ∧ read text = .error fault ∧
    ∀ size, readExact size text = .error fault
  hash : ∀ record : Poisoning.EpochRecord, record.hashBytes.filter (· ≠ 0) = none →
    Json.Object.get? "hash" record.fields = some (.text text) → record.hashLength = 0

theorem refused_of_decode {text : String} {refusal : Refusal} (h : decode text = .error refusal) :
    Refused text where
  refusal := ⟨refusal.fault, rfl, by rw [read, h]; rfl, fun size => by
    rw [readExact, decodeExact, h]; rfl⟩
  hash record hstated htext := by
    rw [Poisoning.EpochRecord.hashLength, hstated, htext]
    simp only [h]
    rfl

theorem refused_of_not_legible {text : String} (h : ¬ Legible text) : Refused text := by
  cases hdecode : decode text with
  | error refusal => exact refused_of_decode hdecode
  | ok bytes => exact absurd ((decode_eq_ok_iff text bytes).mp hdecode).1 h

/-- A text is read exactly if it is hexadecimal but for the plus signs that stand for a zero first
in its pair, the digits of what is read are its own in lower case, and every other text is refused.
Without a plus sign the text that is read is hexadecimal. -/
theorem reads_hexadecimal_unless_plus (text : String) :
    (∀ bytes, read text = .ok bytes ↔ Legible text ∧ encode bytes = (zeroed text).toLower) ∧
    (∀ size bytes, readExact size text = .ok bytes ↔ read text = .ok bytes ∧ bytes.length = size) ∧
    (Legible text → ∃ bytes, read text = .ok bytes) ∧
    (¬ Legible text → Refused text) ∧
    ('+' ∉ text.toList →
      (∀ bytes, read text = .ok bytes ↔ Digital text ∧ encode bytes = text.toLower) ∧
      (¬ Digital text → Refused text)) := by
  have hread : ∀ bytes, read text = .ok bytes ↔
      Legible text ∧ encode bytes = (zeroed text).toLower := fun bytes =>
    (read_eq_ok_iff text bytes).trans (decode_eq_ok_iff text bytes)
  refine ⟨hread, fun size => readExact_eq_ok_iff size text, fun hlegible => ?_,
    refused_of_not_legible, fun hplus => ⟨fun bytes => ?_, fun hdigital => ?_⟩⟩
  · obtain ⟨bytes, hbytes⟩ := exists_decode_eq_ok hlegible
    exact ⟨bytes, (read_eq_ok_iff text bytes).mpr hbytes⟩
  · rw [hread, legible_iff_of_no_plus hplus, zeroed_of_no_plus hplus]
  · exact refused_of_not_legible (mt (legible_iff_of_no_plus hplus).mp hdigital)

theorem read_mixed_case : read "DEADbeef" = .ok [0xde, 0xad, 0xbe, 0xef] ∧ Refused "0x1f" ∧
    (∃ bytes, read "+f" = .ok bytes) ∧ Refused "f+" := by
  have hdigits : Digital "DEADbeef" := ⟨by decide, List.all_iff_forall_prop.mp (by decide)⟩
  have hlower : encode [0xde, 0xad, 0xbe, 0xef] = "DEADbeef".toLower :=
    (encode_eq_toLower_iff _ _).mpr (by decide)
  have hmarked : ¬ Digital "0x1f" := fun h => absurd (h.2 'x' (by decide)) (by decide)
  have hfirst : Legible "+f" := by
    refine ⟨fun i => ?_, (digital_zeroed_iff _).mpr
      ⟨by decide, List.all_iff_forall_prop.mp (by decide)⟩⟩
    cases i <;> simp
  have hsecond : ¬ Legible "f+" := fun h => h.1 0 (by decide)
  exact ⟨(((reads_hexadecimal_unless_plus _).2.2.2.2 (by decide)).1 _).mpr ⟨hdigits, hlower⟩,
    ((reads_hexadecimal_unless_plus _).2.2.2.2 (by decide)).2 hmarked,
    (reads_hexadecimal_unless_plus _).2.2.1 hfirst, (reads_hexadecimal_unless_plus _).2.2.2.1 hsecond⟩

theorem plus_read_as_zero : read "+f" = .ok [0x0f] ∧ ¬ Digital "+f" :=
  ⟨by decide, fun h => plus_not_mem_digits (h.2 '+' (by decide))⟩

end Conformance.Text.Hex
