import Conformance.Proofs.Bytes
import Conformance.Proofs.Text.Base64.Form
import Mathlib

/-!
# Base64 text read exactly

What two forms both accept they read alike, for the two alphabets disagree on no symbol
that both have. So the order in which the forms are tried cannot be seen in what is
read, and a text is read exactly if it is written in one of them.
-/
namespace Conformance.Text.Base64
open Conformance

/-- The value of a symbol of either alphabet. -/
def sextet? (b : UInt8) : Option ℕ :=
  (standard.value? b).or (urlSafe.value? b)

/-- An alphabet of characters that disagrees with neither of the two on a symbol. -/
structure Alphabet.Known (a : Alphabet) : Prop extends a.Distinct where
  sextet?_symbol : ∀ v < 64, sextet? (a.symbol v) = some v
  symbol_ascii : ∀ v < 64, (a.symbol v).toNat < 128

theorem known_of_mem {a : Alphabet} (h : a ∈ [standard, urlSafe]) : a.Known := by
  simp only [List.mem_cons, List.not_mem_nil, or_false] at h
  rcases h with rfl | rfl
  · exact ⟨standard_distinct, by decide, by decide⟩
  · exact ⟨urlSafe_distinct, by decide, by decide⟩

theorem alphabet_of_mem_forms {form : Alphabet × Padding} (h : form ∈ forms) :
    form.1 ∈ [standard, urlSafe] := by
  revert form
  decide

theorem known_of_mem_forms {form : Alphabet × Padding} (h : form ∈ forms) : form.1.Known :=
  known_of_mem (alphabet_of_mem_forms h)

theorem filterMap_sextet? {a : Alphabet} (ha : a.Known) {values : List ℕ}
    (h : ∀ v ∈ values, v < 64) (pads : ℕ) :
    (values.map a.symbol ++ List.replicate pads pad).filterMap sextet? = values := by
  have hpads : (List.replicate pads pad).filterMap sextet? = [] :=
    List.filterMap_replicate_of_none (by decide)
  have hvalues : values.filterMap (sextet? ∘ a.symbol) = values.filterMap some :=
    List.filterMap_congr fun v hv => ha.sextet?_symbol v (h v hv)
  rw [List.filterMap_append, List.filterMap_map, hpads, hvalues, List.filterMap_some,
    List.append_nil]

theorem sextets_injective : Function.Injective sextets := by
  intro b c h
  have hsame : encodeWith standard .absent b = encodeWith standard .absent c := by
    rw [encodeWith_eq, encodeWith_eq, h]
    rfl
  have hread := decodeWith_encodeWith standard_distinct .absent b
  rw [hsame, decodeWith_encodeWith standard_distinct .absent c] at hread
  exact (Except.ok.inj hread).symm

theorem filterMap_encodeWith {form : Alphabet × Padding} (h : form ∈ forms) (bytes : Bytes) :
    (encodeWith form.1 form.2 bytes).filterMap sextet? = sextets bytes := by
  rw [encodeWith_eq, filterMap_sextet? (known_of_mem_forms h) lt_of_mem_sextets]

/-- What two forms both accept they read alike. -/
theorem eq_of_encodeWith_eq {form other : Alphabet × Padding} (h : form ∈ forms)
    (hother : other ∈ forms) {b c : Bytes}
    (heq : encodeWith form.1 form.2 b = encodeWith other.1 other.2 c) : b = c := by
  apply sextets_injective
  rw [← filterMap_encodeWith h, heq, filterMap_encodeWith hother]

/-- Forms tried in any order find what one of them reads. -/
theorem findSome?_eq_some_iff {order : List (Alphabet × Padding)} (horder : order ⊆ forms)
    (text bytes : Bytes) :
    order.findSome? (fun form => (decodeWith form.1 form.2 text).toOption) = some bytes ↔
      ∃ form ∈ order, text = encodeWith form.1 form.2 bytes := by
  have hreads : ∀ form ∈ order, ∀ c, (decodeWith form.1 form.2 text).toOption = some c ↔
      text = encodeWith form.1 form.2 c := fun form hform c => by
    rw [toOption_eq_some_iff, decodeWith_eq_ok_iff (known_of_mem_forms (horder hform)).toDistinct]
  constructor
  · intro h
    obtain ⟨form, hform, hread⟩ := List.exists_of_findSome?_eq_some h
    exact ⟨form, hform, (hreads form hform bytes).mp hread⟩
  · rintro ⟨form, hform, htext⟩
    cases hfound : order.findSome? fun form => (decodeWith form.1 form.2 text).toOption with
    | none =>
      have hnone := List.findSome?_eq_none_iff.mp hfound form hform
      rw [(hreads form hform bytes).mpr htext] at hnone
      cases hnone
    | some found =>
      obtain ⟨other, hother, hread⟩ := List.exists_of_findSome?_eq_some hfound
      have hsame := (hreads other hother found).mp hread
      rw [htext] at hsame
      rw [eq_of_encodeWith_eq (horder hform) (horder hother) hsame]

/-- Symbols as characters. -/
def ofSymbols (symbols : Bytes) : String :=
  String.ofList (symbols.map fun b => Char.ofNat b.toNat)

/-- The text of some bytes in one of the forms. -/
def written (form : Alphabet × Padding) (bytes : Bytes) : String :=
  ofSymbols (encodeWith form.1 form.2 bytes)

theorem encode_eq_written (bytes : Bytes) : encode bytes = written (standard, .canonical) bytes :=
  rfl

theorem ofString_ofSymbols {symbols : Bytes} (h : ∀ b ∈ symbols, b.toNat < 128) :
    Bytes.ofString (ofSymbols symbols) = symbols := by
  have hone : ∀ n < 128, String.utf8EncodeChar (Char.ofNat n) = [UInt8.ofNat n] := by decide
  rw [ofSymbols, Bytes.ofString_ofList, List.flatMap_map]
  induction symbols with
  | nil => rfl
  | cons b symbols ih =>
    obtain ⟨hb, hrest⟩ := List.forall_mem_cons.mp h
    rw [List.flatMap_cons, hone b.toNat hb, UInt8.ofNat_toNat, ih hrest]
    rfl

theorem ofString_spelled {a : Alphabet} (ha : a.Known) {values : List ℕ}
    (h : ∀ v ∈ values, v < 64) (pads : ℕ) :
    Bytes.ofString (ofSymbols (values.map a.symbol ++ List.replicate pads pad)) =
      values.map a.symbol ++ List.replicate pads pad := by
  refine ofString_ofSymbols fun b hb => ?_
  rcases List.mem_append.mp hb with hb | hb
  · obtain ⟨v, hv, rfl⟩ := List.mem_map.mp hb
    exact ha.symbol_ascii v (h v hv)
  · obtain rfl := List.eq_of_mem_replicate hb
    decide

theorem eq_written_iff {form : Alphabet × Padding} (h : form ∈ forms) (text : String)
    (bytes : Bytes) :
    text = written form bytes ↔ Bytes.ofString text = encodeWith form.1 form.2 bytes := by
  have hoctets : Bytes.ofString (written form bytes) = encodeWith form.1 form.2 bytes := by
    rw [written, encodeWith_eq]
    exact ofString_spelled (known_of_mem_forms h) lt_of_mem_sextets _
  rw [← hoctets, Bytes.ofString_injective.eq_iff]

theorem toOption_decode (text : String) : (decode text).toOption =
    forms.findSome? fun form => (decodeWith form.1 form.2 (Bytes.ofString text)).toOption := by
  cases hfound : forms.findSome? fun form =>
      (decodeWith form.1 form.2 (Bytes.ofString text)).toOption with
  | some found =>
    rw [decode]
    simp only [hfound]
    rfl
  | none =>
    rw [decode]
    simp only [hfound]
    exact List.findSome?_eq_none_iff.mp hfound (standard, .canonical) (by decide)

theorem decode_eq_ok_iff (text : String) (bytes : Bytes) :
    decode text = .ok bytes ↔ ∃ form ∈ forms, text = written form bytes := by
  rw [← toOption_eq_some_iff, toOption_decode, findSome?_eq_some_iff (List.Subset.refl forms)]
  exact exists_congr fun form => and_congr_right fun hform =>
    (eq_written_iff hform text bytes).symm

/-- The character of a symbol. -/
def Alphabet.letter (a : Alphabet) (v : ℕ) : Char :=
  Char.ofNat (a.symbol v).toNat

/-- Both alphabets are used. -/
def Mixed (text : String) : Prop :=
  (∃ c ∈ text.toList, c = '+' ∨ c = '/') ∧ ∃ c ∈ text.toList, c = '-' ∨ c = '_'

/-- The pads are more than two, or leave the last group of four incomplete or begin another. -/
def Mispadded (text : String) : Prop :=
  ∃ symbols n, text.toList = symbols ++ List.replicate n '=' ∧ '=' ∉ symbols ∧
    0 < n ∧ (2 < n ∨ (symbols.length + n) % 4 ≠ 0)

/-- The last symbol has bits, beyond those of the last byte, that are not zero. -/
def HasUnusedBits (text : String) : Prop :=
  ∃ a ∈ [standard, urlSafe], ∃ values last pads, (∀ v ∈ values ++ [last], v < 64) ∧
    text = ofSymbols ((values ++ [last]).map a.symbol ++ List.replicate pads pad) ∧
    (values.length % 4 = 1 ∧ last % 16 ≠ 0 ∨ values.length % 4 = 2 ∧ last % 4 ≠ 0)

theorem toList_written (form : Alphabet × Padding) (bytes : Bytes) :
    (written form bytes).toList =
      (sextets bytes).map form.1.letter ++ List.replicate (form.2.pads bytes.length) '=' := by
  rw [written, ofSymbols, String.toList_ofList, encodeWith_eq, List.map_append, List.map_map,
    List.map_replicate]
  rfl

/-- What the characters of a written text are. -/
theorem letter_cases {form : Alphabet × Padding} {bytes : Bytes} {c : Char}
    (hc : c ∈ (written form bytes).toList) : c = '=' ∨ ∃ v < 64, c = form.1.letter v := by
  rw [toList_written] at hc
  rcases List.mem_append.mp hc with hc | hc
  · obtain ⟨v, hv, rfl⟩ := List.mem_map.mp hc
    exact .inr ⟨v, lt_of_mem_sextets v hv, rfl⟩
  · exact .inl (List.eq_of_mem_replicate hc)

theorem letters_of_mem {a : Alphabet} (h : a ∈ [standard, urlSafe]) :
    (∀ v < 64, a.letter v ≠ '=') ∧
      ((∀ v < 64, a.letter v ≠ '-' ∧ a.letter v ≠ '_') ∨
        ∀ v < 64, a.letter v ≠ '+' ∧ a.letter v ≠ '/') := by
  simp only [List.mem_cons, List.not_mem_nil, or_false] at h
  rcases h with rfl | rfl
  · exact ⟨by decide, .inl (by decide)⟩
  · exact ⟨by decide, .inr (by decide)⟩

theorem not_mixed_written {form : Alphabet × Padding} (h : form ∈ forms) (bytes : Bytes) :
    ¬ Mixed (written form bytes) := by
  rintro ⟨⟨c, hc, hstandard⟩, d, hd, hurlSafe⟩
  obtain ⟨-, hnone | hnone⟩ := letters_of_mem (alphabet_of_mem_forms h)
  · rcases letter_cases hd with rfl | ⟨v, hv, rfl⟩
    · revert hurlSafe
      decide
    · exact hurlSafe.elim (hnone v hv).1 (hnone v hv).2
  · rcases letter_cases hc with rfl | ⟨v, hv, rfl⟩
    · revert hstandard
      decide
    · exact hstandard.elim (hnone v hv).1 (hnone v hv).2

theorem takeWhile_ne_pad {symbols : List Char} (h : '=' ∉ symbols) (n : ℕ) :
    (symbols ++ List.replicate n '=').takeWhile (· != '=') = symbols := by
  have hpads : (List.replicate n '=').takeWhile (· != '=') = [] := by
    cases n <;> simp [List.replicate_succ]
  have hsymbols : ∀ c ∈ symbols, (c != '=') = true := fun c hc =>
    bne_iff_ne.mpr (ne_of_mem_of_not_mem hc h)
  rw [List.takeWhile_append_of_pos hsymbols, hpads, List.append_nil]

theorem not_mispadded_written {form : Alphabet × Padding} (h : form ∈ forms) (bytes : Bytes) :
    ¬ Mispadded (written form bytes) := by
  rintro ⟨symbols, n, htext, hsymbols, hpos, hbad⟩
  have hletters : '=' ∉ (sextets bytes).map form.1.letter := by
    intro hmem
    obtain ⟨v, hv, hpad⟩ := List.mem_map.mp hmem
    exact (letters_of_mem (alphabet_of_mem_forms h)).1 v (lt_of_mem_sextets v hv) hpad
  rw [toList_written] at htext
  have hfront : (sextets bytes).map form.1.letter = symbols := by
    rw [← takeWhile_ne_pad hletters, htext, takeWhile_ne_pad hsymbols]
  subst hfront
  obtain rfl : form.2.pads bytes.length = n := by
    simpa using congrArg List.length htext
  rw [List.length_map, length_sextets] at hbad
  obtain ⟨a, p⟩ := form
  cases p with
  | absent => exact absurd hpos (Nat.lt_irrefl 0)
  | canonical =>
    simp only [Padding.pads] at hbad
    have hthree : bytes.length % 3 = 0 ∨ bytes.length % 3 = 1 ∨ bytes.length % 3 = 2 := by omega
    rcases hthree with hrest | hrest | hrest <;> rw [hrest] at hbad <;> omega

theorem unused_of_sextets {bytes : Bytes} {last : ℕ} (h : (sextets bytes).getLast? = some last) :
    ((sextets bytes).length % 4 = 2 → last % 16 = 0) ∧
      ((sextets bytes).length % 4 = 3 → last % 4 = 0) := by
  fun_induction sextets bytes with
  | case1 => cases h
  | case2 x =>
    obtain rfl := Option.some.inj h
    exact ⟨fun _ => Nat.mul_mod_left _ _, by simp⟩
  | case3 x y =>
    obtain rfl := Option.some.inj h
    exact ⟨by simp, fun _ => Nat.mul_mod_left _ _⟩
  | case4 x y z rest ih =>
    simp only [List.length_cons]
    rcases List.eq_nil_or_concat (sextets rest) with hnone | ⟨others, v, hv⟩
    · rw [hnone]
      exact ⟨by simp, by simp⟩
    · have hlast : (sextets rest).getLast? = some last := by
        rw [List.concat_eq_append] at hv
        rw [hv, List.getLast?_concat]
        rw [hv, ← List.cons_append, ← List.cons_append, ← List.cons_append, ← List.cons_append,
          List.getLast?_concat] at h
        exact h
      obtain ⟨htwo, hthree⟩ := ih hlast
      exact ⟨fun hcount => htwo (by omega), fun hcount => hthree (by omega)⟩

theorem not_hasUnusedBits_written {form : Alphabet × Padding} (h : form ∈ forms) (bytes : Bytes) :
    ¬ HasUnusedBits (written form bytes) := by
  rintro ⟨a, ha, values, last, pads, hlt, htext, hunused⟩
  have hsame := (eq_written_iff h _ bytes).mp htext.symm
  rw [ofString_spelled (known_of_mem ha) hlt] at hsame
  have hvalues : values ++ [last] = sextets bytes := by
    rw [← filterMap_encodeWith h bytes, ← hsame, filterMap_sextet? (known_of_mem ha) hlt]
  have hlast : (sextets bytes).getLast? = some last := by rw [← hvalues, List.getLast?_concat]
  obtain ⟨htwo, hthree⟩ := unused_of_sextets hlast
  rw [← hvalues, List.length_append, List.length_singleton] at htwo hthree
  rcases hunused with ⟨hcount, hbits⟩ | ⟨hcount, hbits⟩
  · exact hbits (htwo (by omega))
  · exact hbits (hthree (by omega))

/-- A text is decoded to some bytes exactly if it is one of the four texts that these have, in the
standard or the URL-safe alphabet, with canonical padding or with none. So what was written is read
back, readers tried in any order read the same, and texts that mix the alphabets, have too many or
too few pads or leave unused bits that are not zero are refused. -/
theorem decode_exact (text : String) :
    (∀ bytes, decode text = .ok bytes ↔ ∃ form ∈ forms, text = written form bytes) ∧
    (∀ bytes, decode (encode bytes) = .ok bytes) ∧
    (∀ order : List (Alphabet × Padding), order.Perm forms →
      order.findSome? (fun form => (decodeWith form.1 form.2 (Bytes.ofString text)).toOption) =
        (decode text).toOption) ∧
    (Mixed text ∨ Mispadded text ∨ HasUnusedBits text →
      ∃ refusal, decode text = .error refusal) := by
  refine ⟨decode_eq_ok_iff text, fun bytes => ?_, fun order horder => ?_, fun hbad => ?_⟩
  · exact (decode_eq_ok_iff _ bytes).mpr ⟨(standard, .canonical), by decide, encode_eq_written bytes⟩
  · rw [toOption_decode]
    ext bytes
    rw [findSome?_eq_some_iff horder.subset, findSome?_eq_some_iff (List.Subset.refl forms)]
    simp only [horder.mem_iff]
  · cases hdecode : decode text with
    | error refusal => exact ⟨refusal, rfl⟩
    | ok bytes =>
      obtain ⟨form, hform, rfl⟩ := (decode_eq_ok_iff text bytes).mp hdecode
      rcases hbad with hmixed | hpads | hbits
      · exact absurd hmixed (not_mixed_written hform bytes)
      · exact absurd hpads (not_mispadded_written hform bytes)
      · exact absurd hbits (not_hasUnusedBits_written hform bytes)

theorem decode_exact_two_bytes :
    decode "-_8=" = .ok [0xfb, 0xff] ∧ decode "+/8" = .ok [0xfb, 0xff] ∧
    forms.reverse.findSome? (fun form =>
      (decodeWith form.1 form.2 (Bytes.ofString "+/8")).toOption) = some [0xfb, 0xff] ∧
    (∃ refusal, decode "+_8=" = .error refusal) ∧ (∃ refusal, decode "+/8==" = .error refusal) ∧
    ∃ refusal, decode "+/9=" = .error refusal := by
  have hpadded : decode "-_8=" = .ok [0xfb, 0xff] :=
    ((decode_exact _).1 _).mpr ⟨(urlSafe, .canonical), by decide, by decide⟩
  have hbare : decode "+/8" = .ok [0xfb, 0xff] :=
    ((decode_exact _).1 _).mpr ⟨(standard, .absent), by decide, by decide⟩
  have hmixed : Mixed "+_8=" := ⟨⟨'+', by decide, by decide⟩, '_', by decide, by decide⟩
  have hpads : Mispadded "+/8==" :=
    ⟨['+', '/', '8'], 2, by decide, by decide, by decide, .inr (by decide)⟩
  have hbits : HasUnusedBits "+/9=" :=
    ⟨standard, by decide, [62, 63], 61, 1, by decide, by decide, .inr (by decide)⟩
  refine ⟨hpadded, hbare, ?_, (decode_exact _).2.2.2 (.inl hmixed),
    (decode_exact _).2.2.2 (.inr (.inl hpads)), (decode_exact _).2.2.2 (.inr (.inr hbits))⟩
  rw [(decode_exact "+/8").2.2.1 _ (List.reverse_perm forms), hbare]
  rfl

end Conformance.Text.Base64
