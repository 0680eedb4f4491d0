import Conformance.Text.Base64
import Conformance.Proofs.Sequencing
import Mathlib

/-!
# One written form of Base64

The reader of one alphabet and one padding accepts the texts that are written with them
and no others: the values of six bits that the symbols stand for determine the bytes,
and the pads and the unused bits leave no choice. Whole groups of four symbols and the
last group are treated apart, as they are read.
-/
namespace Conformance.Text.Base64
open Conformance

/-- The values of the symbols that some bytes are written with. -/
def sextets : Bytes → List ℕ
  | [] => []
  | [x] => [x.toNat / 4, x.toNat % 4 * 16]
  | [x, y] => [x.toNat / 4, x.toNat % 4 * 16 + y.toNat / 16, y.toNat % 16 * 4]
  | x :: y :: z :: rest =>
    x.toNat / 4 :: (x.toNat % 4 * 16 + y.toNat / 16) :: (y.toNat % 16 * 4 + z.toNat / 64) ::
      z.toNat % 64 :: sextets rest

/-- How many pads follow the symbols of so many bytes. -/
def Padding.pads (length : ℕ) : Padding → ℕ
  | .canonical => (3 - length % 3) % 3
  | .absent => 0

theorem Padding.pads_le (p : Padding) (length : ℕ) : p.pads length ≤ 2 := by
  cases p with
  | canonical => exact Nat.le_of_lt_succ (Nat.mod_lt _ (by decide))
  | absent => exact Nat.zero_le 2

theorem encodeWith_eq (a : Alphabet) (p : Padding) (bytes : Bytes) :
    encodeWith a p bytes =
      (sextets bytes).map a.symbol ++ List.replicate (p.pads bytes.length) pad := by
  fun_induction sextets bytes with
  | case1 | case2 | case3 => cases p <;> rfl
  | case4 x y z rest ih =>
    have hpads : p.pads (x :: y :: z :: rest).length = p.pads rest.length := by
      cases p with
      | canonical =>
        simp only [Padding.pads, List.length_cons]
        omega
      | absent => rfl
    rw [encodeWith, ih, hpads]
    rfl

theorem length_sextets (bytes : Bytes) : (sextets bytes).length = (bytes.length * 4 + 2) / 3 := by
  fun_induction sextets bytes with
  | case1 | case2 | case3 => simp
  | case4 x y z rest ih =>
    simp only [List.length_cons, ih]
    omega

theorem length_encodeWith (a : Alphabet) (p : Padding) (bytes : Bytes) :
    (encodeWith a p bytes).length = (bytes.length * 4 + 2) / 3 + p.pads bytes.length := by
  rw [encodeWith_eq, List.length_append, List.length_map, List.length_replicate, length_sextets]

theorem lt_of_mem_sextets {bytes : Bytes} : ∀ v ∈ sextets bytes, v < 64 := by
  fun_induction sextets bytes with
  | case1 => exact nofun
  | case2 x =>
    have hx := x.toNat_lt
    simp only [List.forall_mem_cons]
    exact ⟨by omega, by omega, nofun⟩
  | case3 x y =>
    have hx := x.toNat_lt
    have hy := y.toNat_lt
    simp only [List.forall_mem_cons]
    exact ⟨by omega, by omega, by omega, nofun⟩
  | case4 x y z rest ih =>
    have hx := x.toNat_lt
    have hy := y.toNat_lt
    have hz := z.toNat_lt
    simp only [List.forall_mem_cons]
    exact ⟨by omega, by omega, by omega, by omega, ih⟩

theorem sextets_append {whole : Bytes} (h : 3 ∣ whole.length) (last : Bytes) :
    sextets (whole ++ last) = sextets whole ++ sextets last := by
  fun_induction sextets whole with
  | case1 => rfl
  | case2 x => simp at h
  | case3 x y => simp at h
  | case4 x y z rest ih =>
    have hrest : 3 ∣ rest.length := by
      simp only [List.length_cons] at h
      omega
    simp only [List.cons_append, sextets, ih hrest]

private theorem ofNat_eq {n : ℕ} {b : UInt8} (h : n = b.toNat) : UInt8.ofNat n = b := by
  rw [h, UInt8.ofNat_toNat]

/-- Three bytes are put together from their four values. -/
theorem join_sextets (x y z : UInt8) :
    UInt8.ofNat (x.toNat / 4 * 4 + (x.toNat % 4 * 16 + y.toNat / 16) / 16) = x ∧
    UInt8.ofNat ((x.toNat % 4 * 16 + y.toNat / 16) % 16 * 16 +
      (y.toNat % 16 * 4 + z.toNat / 64) / 4) = y ∧
    UInt8.ofNat ((y.toNat % 16 * 4 + z.toNat / 64) % 4 * 64 + z.toNat % 64) = z := by
  have hx := x.toNat_lt
  have hy := y.toNat_lt
  have hz := z.toNat_lt
  exact ⟨ofNat_eq (by omega), ofNat_eq (by omega), ofNat_eq (by omega)⟩

theorem sextets_join {u v w x : ℕ} (hu : u < 64) (hv : v < 64) (hw : w < 64) (hx : x < 64)
    (rest : Bytes) :
    sextets (UInt8.ofNat (u * 4 + v / 16) :: UInt8.ofNat (v % 16 * 16 + w / 4) ::
      UInt8.ofNat (w % 4 * 64 + x) :: rest) = u :: v :: w :: x :: sextets rest := by
  simp only [sextets, UInt8.toNat_ofNat', List.cons.injEq, and_true]
  omega

theorem symbol_of_value? {a : Alphabet} {b : UInt8} {v : ℕ} (h : a.value? b = some v) :
    v < 64 ∧ a.symbol v = b := by
  unfold Alphabet.value? at h
  simp only [Bool.and_eq_true, decide_eq_true_eq, UInt8.le_iff_toNat_le, beq_iff_eq,
    UInt8.reduceToNat] at h
  split_ifs at h with hupper hlower hdigit h62 h63
  · obtain rfl := Option.some.inj h
    refine ⟨by omega, ?_⟩
    rw [Alphabet.symbol, if_pos (by omega)]
    exact ofNat_eq (by omega)
  · obtain rfl := Option.some.inj h
    refine ⟨by omega, ?_⟩
    rw [Alphabet.symbol, if_neg (by omega), if_pos (by omega)]
    exact ofNat_eq (by omega)
  · obtain rfl := Option.some.inj h
    refine ⟨by omega, ?_⟩
    rw [Alphabet.symbol, if_neg (by omega), if_neg (by omega), if_pos (by omega)]
    exact ofNat_eq (by omega)
  · obtain rfl := Option.some.inj h
    exact ⟨by decide, h62.symm⟩
  · obtain rfl := Option.some.inj h
    exact ⟨by decide, h63.symm⟩

/-- Each value has a symbol of its own, and the pad is none of them. -/
structure Alphabet.Distinct (a : Alphabet) : Prop where
  value?_symbol : ∀ v < 64, a.value? (a.symbol v) = some v
  value?_pad : a.value? pad = none

theorem standard_distinct : standard.Distinct := ⟨by decide, by decide⟩

theorem urlSafe_distinct : urlSafe.Distinct := ⟨by decide, by decide⟩

theorem Alphabet.Distinct.symbol_ne_pad {a : Alphabet} (ha : a.Distinct) {v : ℕ} (hv : v < 64) :
    a.symbol v ≠ pad := by
  intro h
  have hvalue := ha.value?_symbol v hv
  rw [h, ha.value?_pad] at hvalue
  cases hvalue

theorem groups_sextets {a : Alphabet} (ha : a.Distinct) {bytes : Bytes} (h : 3 ∣ bytes.length)
    (offset : ℕ) : groups a offset ((sextets bytes).map a.symbol) = .ok bytes := by
  have hlt : ∀ v ∈ sextets bytes, v < 64 := lt_of_mem_sextets
  fun_induction sextets bytes generalizing offset with
  | case1 => rfl
  | case2 x => simp at h
  | case3 x y => simp at h
  | case4 x y z rest ih =>
    have hrest : 3 ∣ rest.length := by
      simp only [List.length_cons] at h
      omega
    simp only [List.forall_mem_cons] at hlt
    obtain ⟨hs, ht, hu, hv, hothers⟩ := hlt
    obtain ⟨hx, hy, hz⟩ := join_sextets x y z
    simp only [List.map_cons, groups, ha.value?_symbol _ hs, ha.value?_symbol _ ht,
      ha.value?_symbol _ hu, ha.value?_symbol _ hv, ih hrest _ hothers, hx, hy, hz]
    rfl

theorem sextets_of_groups {a : Alphabet} {offset : ℕ} {text bytes : Bytes}
    (h : groups a offset text = .ok bytes) (hwhole : 4 ∣ text.length) :
    text = (sextets bytes).map a.symbol ∧ 3 ∣ bytes.length := by
  fun_induction groups a offset text generalizing bytes with
  | case1 | case2 | case3 | case4 => cases h
  | case5 offset s t u v rest w x y z hv hu ht hs ih =>
    obtain ⟨others, hothers, rfl⟩ := map_eq_ok_iff.mp h
    have hrest : 4 ∣ rest.length := by
      simp only [List.length_cons] at hwhole
      omega
    obtain ⟨rfl, hlen⟩ := ih hothers hrest
    obtain ⟨hw, rfl⟩ := symbol_of_value? hs
    obtain ⟨hx, rfl⟩ := symbol_of_value? ht
    obtain ⟨hy, rfl⟩ := symbol_of_value? hu
    obtain ⟨hz, rfl⟩ := symbol_of_value? hv
    refine ⟨by rw [sextets_join hw hx hy hz]; rfl, ?_⟩
    simp only [List.length_cons]
    omega
  | case6 text offset hshort =>
    cases h
    match text, hshort with
    | [], _ => exact ⟨rfl, by simp⟩
    | [_], _ | [_, _], _ | [_, _, _], _ => simp at hwhole
    | s :: t :: u :: v :: rest, hshort => exact absurd rfl (hshort s t u v rest)

theorem lastGroup_pads (a : Alphabet) {position pads : ℕ} (h : pads = 0 ∨ 2 ≤ position)
    (offset : ℕ) (firstPad : Option ℕ) :
    lastGroup a position offset firstPad (List.replicate pads pad) = .ok ([], pads) := by
  induction pads generalizing position offset firstPad with
  | zero => rfl
  | succ pads ih =>
    have hposition : ¬ position < 2 := by omega
    rw [List.replicate_succ, lastGroup.eq_def]
    dsimp only
    rw [if_pos (by rfl), if_neg hposition, ih (.inr (by omega))]
    rfl

/-- Symbols and then pads are sorted out, where no pad stands among the first two. -/
theorem lastGroup_symbols {a : Alphabet} (ha : a.Distinct) {values : List ℕ}
    (hvalues : ∀ v ∈ values, v < 64) {position pads : ℕ}
    (h : pads = 0 ∨ 2 ≤ position + values.length) (offset : ℕ) :
    lastGroup a position offset none (values.map a.symbol ++ List.replicate pads pad) =
      .ok (values, pads) := by
  induction values generalizing position offset with
  | nil => exact lastGroup_pads a h offset none
  | cons v values ih =>
    obtain ⟨hv, hrest⟩ := List.forall_mem_cons.mp hvalues
    have hsymbol : ¬ (a.symbol v == pad) = true := by simpa using ha.symbol_ne_pad hv
    rw [List.length_cons] at h
    rw [List.map_cons, List.cons_append, lastGroup.eq_def]
    dsimp only
    rw [if_neg hsymbol, ha.value?_symbol v hv]
    dsimp only
    rw [ih hrest (by omega)]
    rfl

/-- No symbol stands after a pad. -/
theorem eq_of_lastGroup {a : Alphabet} {position offset : ℕ} {firstPad : Option ℕ} {text : Bytes}
    {values : List ℕ} {pads : ℕ}
    (h : lastGroup a position offset firstPad text = .ok (values, pads)) :
    text = values.map a.symbol ++ List.replicate pads pad ∧ (∀ v ∈ values, v < 64) ∧
      (firstPad.isSome → values = []) := by
  induction text generalizing position offset firstPad values pads with
  | nil =>
    cases h
    exact ⟨rfl, nofun, fun _ => rfl⟩
  | cons b text ih =>
    rw [lastGroup.eq_def] at h
    dsimp only at h
    split at h
    · rename_i hpad
      obtain rfl := eq_of_beq hpad
      split at h
      · cases h
      · obtain ⟨⟨values, more⟩, hrest, hresult⟩ := map_eq_ok_iff.mp h
        cases hresult
        obtain ⟨rfl, -, hnone⟩ := ih hrest
        have hsome : (firstPad.or (some offset)).isSome := by cases firstPad <;> rfl
        obtain rfl : values = [] := hnone hsome
        exact ⟨List.replicate_succ.symm, nofun, fun _ => rfl⟩
    · split at h
      · cases h
      · split at h
        · cases h
        · rename_i v hv
          obtain ⟨⟨rest, more⟩, hrest, hresult⟩ := map_eq_ok_iff.mp h
          cases hresult
          obtain ⟨rfl, hlt, -⟩ := ih hrest
          obtain ⟨hfirst, rfl⟩ := symbol_of_value? hv
          exact ⟨rfl, List.forall_mem_cons.mpr ⟨hfirst, hlt⟩, nofun⟩

theorem lastBytes_sextets {bytes : Bytes} (h : bytes.length ≤ 3) :
    lastBytes (sextets bytes) = some bytes := by
  match bytes, h with
  | [], _ => rfl
  | [x], _ =>
    have hx := x.toNat_lt
    have hbyte : UInt8.ofNat (x.toNat / 4 * 4 + x.toNat % 4 * 16 / 16) = x := ofNat_eq (by omega)
    rw [sextets, lastBytes, if_pos (by omega), hbyte]
  | [x, y], _ =>
    obtain ⟨hx, -, -⟩ := join_sextets x y 0
    have hy := y.toNat_lt
    have hbyte : UInt8.ofNat ((x.toNat % 4 * 16 + y.toNat / 16) % 16 * 16 + y.toNat % 16 * 4 / 4) =
        y := ofNat_eq (by omega)
    rw [sextets, lastBytes, if_pos (by omega), hx, hbyte]
  | [x, y, z], _ =>
    obtain ⟨hx, hy, hz⟩ := join_sextets x y z
    rw [sextets, sextets, lastBytes, hx, hy, hz]

theorem sextets_of_lastBytes {values : List ℕ} {bytes : Bytes} (h : lastBytes values = some bytes)
    (hlt : ∀ v ∈ values, v < 64) : sextets bytes = values ∧ bytes.length ≤ 3 := by
  match values with
  | [] =>
    cases h
    exact ⟨rfl, by decide⟩
  | [w, x] =>
    simp only [List.forall_mem_cons] at hlt
    rw [lastBytes] at h
    split at h
    · cases h
      refine ⟨?_, by simp⟩
      simp only [sextets, UInt8.toNat_ofNat', List.cons.injEq, and_true]
      omega
    · cases h
  | [w, x, y] =>
    simp only [List.forall_mem_cons] at hlt
    rw [lastBytes] at h
    split at h
    · cases h
      refine ⟨?_, by simp⟩
      simp only [sextets, UInt8.toNat_ofNat', List.cons.injEq, and_true]
      omega
    · cases h
  | [w, x, y, z] =>
    simp only [List.forall_mem_cons] at hlt
    obtain ⟨hw, hx, hy, hz, -⟩ := hlt
    cases h
    exact ⟨sextets_join hw hx hy hz [], by simp⟩
  | [_] | _ :: _ :: _ :: _ :: _ :: _ => cases h

/-- The symbols and pads of at most three bytes, which are one group or none. -/
theorem Padding.pads_of_short (p : Padding) {length : ℕ} (h : length ≤ 3) :
    (p.pads length = 0 ∨ 2 ≤ (length * 4 + 2) / 3) ∧
      p.accepts ((length * 4 + 2) / 3) (p.pads length) = true := by
  interval_cases length <;> cases p <;> decide

theorem Padding.eq_pads_of_short {p : Padding} {length pads : ℕ} (h : length ≤ 3)
    (hfour : (length * 4 + 2) / 3 + pads ≤ 4) (hnone : length = 0 → pads = 0)
    (haccepts : p.accepts ((length * 4 + 2) / 3) pads = true) : pads = p.pads length := by
  cases p with
  | canonical =>
    simp only [accepts, beq_iff_eq] at haccepts
    interval_cases length <;> simp only [Padding.pads] <;> omega
  | absent => simpa [accepts, Padding.pads] using haccepts

theorem decodeLastGroup_encodeWith {a : Alphabet} (ha : a.Distinct) (p : Padding) {bytes : Bytes}
    (h : bytes.length ≤ 3) (start : ℕ) :
    decodeLastGroup a p start (encodeWith a p bytes) = .ok bytes := by
  have hlength := length_sextets bytes
  obtain ⟨hpads, haccepts⟩ := p.pads_of_short h
  rw [← hlength] at hpads haccepts
  have hlong : ¬ (encodeWith a p bytes ≠ [] ∧ (sextets bytes).length < 2) := by
    rintro ⟨hne, hfew⟩
    obtain rfl : bytes = [] := List.length_eq_zero_iff.mp (by omega)
    cases p <;> exact hne rfl
  have hgroup : lastGroup a 0 start none (encodeWith a p bytes) =
      .ok (sextets bytes, p.pads bytes.length) := by
    rw [encodeWith_eq]
    exact lastGroup_symbols ha lt_of_mem_sextets (by rwa [Nat.zero_add]) start
  rw [decodeLastGroup, hgroup, ok_bind]
  simp only [if_neg hlong, haccepts, if_true, lastBytes_sextets h]

theorem eq_encodeWith_of_decodeLastGroup {a : Alphabet} {p : Padding} {start : ℕ}
    {text bytes : Bytes} (hshort : text.length ≤ 4)
    (h : decodeLastGroup a p start text = .ok bytes) :
    text = encodeWith a p bytes ∧ bytes.length ≤ 3 := by
  simp only [decodeLastGroup, bind_eq_ok_iff] at h
  obtain ⟨⟨values, pads⟩, hgroup, h⟩ := h
  obtain ⟨htext, hlt, -⟩ := eq_of_lastGroup hgroup
  split at h
  · cases h
  · rename_i hlong
    split at h
    · rename_i haccepts
      split at h
      · rename_i found hfound
        cases h
        obtain ⟨rfl, hthree⟩ := sextets_of_lastBytes hfound hlt
        have hlength : text.length = (bytes.length * 4 + 2) / 3 + pads := by
          rw [htext, List.length_append, List.length_map, List.length_replicate, length_sextets]
        rw [length_sextets] at haccepts hlong
        have hnone : bytes.length = 0 → pads = 0 := by
          intro hzero
          have hempty : text = [] := by
            by_contra hne
            exact hlong ⟨hne, by omega⟩
          rw [hempty, List.length_nil] at hlength
          omega
        have hpads := Padding.eq_pads_of_short hthree (by omega) hnone haccepts
        rw [encodeWith_eq, ← hpads]
        exact ⟨htext, hthree⟩
      · cases h
    · cases h

/-- Bytes are whole groups of three and at most three last ones, of which some are there if any. -/
theorem exists_eq_append_last (bytes : Bytes) : ∃ whole last, bytes = whole ++ last ∧
    3 ∣ whole.length ∧ last.length ≤ 3 ∧ (last = [] → whole = []) := by
  refine ⟨bytes.take ((bytes.length - 1) / 3 * 3), bytes.drop ((bytes.length - 1) / 3 * 3),
    (List.take_append_drop _ _).symm, ?_, ?_, ?_⟩
  · rw [List.length_take, min_eq_left (by omega)]
    exact Nat.dvd_mul_left 3 _
  · rw [List.length_drop]
    omega
  · intro hlast
    have hlength := congrArg List.length hlast
    rw [List.length_drop, List.length_nil] at hlength
    rw [← List.length_eq_zero_iff, List.length_take]
    omega

theorem encodeWith_append (a : Alphabet) (p : Padding) {whole : Bytes} (h : 3 ∣ whole.length)
    (last : Bytes) :
    encodeWith a p (whole ++ last) = (sextets whole).map a.symbol ++ encodeWith a p last := by
  have hpads : p.pads (whole ++ last).length = p.pads last.length := by
    cases p with
    | canonical =>
      simp only [Padding.pads, List.length_append]
      omega
    | absent => rfl
  rw [encodeWith_eq, encodeWith_eq, sextets_append h, hpads, List.map_append, List.append_assoc]

theorem lastGroupSize_bounds (length : ℕ) :
    4 ∣ length - lastGroupSize length ∧ lastGroupSize length ≤ 4 ∧ lastGroupSize length ≤ length := by
  unfold lastGroupSize
  split <;> omega

theorem decodeWith_encodeWith {a : Alphabet} (ha : a.Distinct) (p : Padding) (bytes : Bytes) :
    decodeWith a p (encodeWith a p bytes) = .ok bytes := by
  obtain ⟨whole, last, rfl, hwhole, hlast, hnone⟩ := exists_eq_append_last bytes
  have hempty : last.length = 0 → whole.length = 0 := by
    simpa only [List.length_eq_zero_iff] using hnone
  have hlength := length_encodeWith a p last
  have hsextets := length_sextets whole
  have hpads : p.pads last.length = (3 - last.length % 3) % 3 ∨ p.pads last.length = 0 := by
    cases p with
    | canonical => exact .inl rfl
    | absent => exact .inr rfl
  have htotal : (encodeWith a p (whole ++ last)).length =
      (sextets whole).length + (encodeWith a p last).length := by
    rw [encodeWith_append a p hwhole, List.length_append, List.length_map]
  have hstray : strayByte? a (encodeWith a p (whole ++ last)) = none := by
    have hone : ¬ (encodeWith a p (whole ++ last)).length % 4 = 1 := by omega
    unfold strayByte?
    split <;> simp [hone]
  have hstart : (encodeWith a p (whole ++ last)).length -
      lastGroupSize (encodeWith a p (whole ++ last)).length = (sextets whole).length := by
    unfold lastGroupSize
    split <;> omega
  have htake : (encodeWith a p (whole ++ last)).take (sextets whole).length =
      (sextets whole).map a.symbol := by
    rw [encodeWith_append a p hwhole, List.take_left' (List.length_map _)]
  have hdrop : (encodeWith a p (whole ++ last)).drop (sextets whole).length =
      encodeWith a p last := by
    rw [encodeWith_append a p hwhole, List.drop_left' (List.length_map _)]
  rw [decodeWith, hstray]
  simp only [hstart, htake, hdrop, groups_sextets ha hwhole,
    decodeLastGroup_encodeWith ha p hlast, ok_bind]
  rfl

theorem eq_encodeWith_of_decodeWith {a : Alphabet} {p : Padding} {text bytes : Bytes}
    (h : decodeWith a p text = .ok bytes) : text = encodeWith a p bytes := by
  unfold decodeWith at h
  split at h
  · cases h
  · simp only [bind_eq_ok_iff] at h
    obtain ⟨whole, hwhole, last, hlast, hbytes⟩ := h
    cases hbytes
    obtain ⟨hmultiple, hfour, hle⟩ := lastGroupSize_bounds text.length
    obtain ⟨hfront, hthree⟩ := sextets_of_groups hwhole (by
      rwa [List.length_take, min_eq_left (Nat.sub_le _ _)])
    obtain ⟨hback, -⟩ := eq_encodeWith_of_decodeLastGroup (by
      rw [List.length_drop]
      omega) hlast
    rw [encodeWith_append a p hthree, ← hfront, ← hback, List.take_append_drop]

/-- The reader of a form accepts the texts of that form and no others. -/
theorem decodeWith_eq_ok_iff {a : Alphabet} (ha : a.Distinct) (p : Padding) (text bytes : Bytes) :
    decodeWith a p text = .ok bytes ↔ text = encodeWith a p bytes := by
  refine ⟨eq_encodeWith_of_decodeWith, ?_⟩
  rintro rfl
  exact decodeWith_encodeWith ha p bytes

end Conformance.Text.Base64
