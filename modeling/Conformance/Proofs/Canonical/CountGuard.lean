import Conformance.Proofs.Canonical.CursorSafety

/-!
# The guard of counts

A count that the input cannot hold is refused before anything is read, but without
this guard it would be refused as well: an item takes at least one byte and an entry
two, so that the input ends before the items do. The guard changes no result.
-/
namespace Conformance.Canonical
open Conformance

namespace Reader

variable {α β : Type}

/-- From the cursor, the readers have the same results and leave the same cursors. -/
def SameAt (p : ℕ) (x y : Reader α) : Prop := ∀ a q, x.Leads p a q ↔ y.Leads p a q

namespace SameAt

variable {p : ℕ} {x y : Reader α} {f g : α → Reader β}

theorem refl (p : ℕ) (x : Reader α) : SameAt p x x := fun _ _ => Iff.rfl

theorem bind (h : SameAt p x y) (hnext : ∀ a q, y.Leads p a q → SameAt q (f a) (g a)) :
    SameAt p (x >>= f) (y >>= g) := by
  intro b last
  rw [leads_bind, leads_bind]
  refine exists₂_congr fun a q => ?_
  rw [h a q]
  exact and_congr_right fun hlead => hnext a q hlead b last

theorem call (h : SameAt p x y) (operation : Operation) :
    SameAt p (call operation x) (call operation y) := fun a q => by
  rw [leads_call, leads_call, h a q]

theorem position_bind {f g : ℕ → Reader β} (h : SameAt p (f p) (g p)) :
    SameAt p (position >>= f) (position >>= g) :=
  h

end SameAt

section
variable {input : Bytes} {p q : ℕ}

theorem leads_position_bind {f : ℕ → Reader β} {b : β} :
    (position >>= f).Leads p b q ↔ (f p).Leads p b q :=
  Iff.rfl

theorem leads_ite {c : Prop} [Decidable c] {x y : Reader α} {a : α} :
    (if c then x else y).Leads p a q ↔ if c then x.Leads p a q else y.Leads p a q := by
  split <;> rfl

theorem leads_slice {first last : ℕ} {bytes : Bytes} :
    (slice input first last).Leads p bytes q ↔
      (first ≤ last ∧ last ≤ input.length) ∧ bytes = (input.take last).drop first ∧ q = p := by
  simp [slice, leads_ite]

theorem leads_count_unguarded {arg least n : ℕ} :
    (count input false arg least).Leads p n q ↔ n = arg ∧ q = p := by
  simp [count]

theorem leads_count_guarded (hp : p ≤ input.length) {arg least n : ℕ} :
    (count input true arg least).Leads p n q ↔
      arg * least ≤ input.length - p ∧ n = arg ∧ q = p := by
  simp [count, remaining, leads_ite, hp]

/-- The guard does not matter where what follows it needs the bytes that it asks for. -/
theorem SameAt.count_bind (hp : p ≤ input.length) {arg least : ℕ} {f g : ℕ → Reader β}
    (h : SameAt p (f arg) (g arg))
    (hneeds : ∀ b q, (g arg).Leads p b q → arg * least ≤ input.length - p) :
    SameAt p (count input false arg least >>= f) (count input true arg least >>= g) := by
  intro b last
  simp only [leads_bind, leads_count_unguarded, leads_count_guarded hp]
  constructor
  · rintro ⟨_, _, ⟨rfl, rfl⟩, hf⟩
    have hg := (h b last).mp hf
    exact ⟨_, _, ⟨hneeds b last hg, rfl, rfl⟩, hg⟩
  · rintro ⟨_, _, ⟨-, rfl, rfl⟩, hg⟩
    exact ⟨_, _, ⟨rfl, rfl⟩, (h b last).mpr hg⟩

theorem le_of_leads_take (hp : p ≤ input.length) {n : ℕ} {bytes : Bytes}
    (h : (take input n).Leads p bytes q) : n ≤ input.length - p := by
  have htake := (follows_take hp n).eq_ok_of_leads h
  unfold Header.take at htake
  split at htake
  · cases htake
  · rename_i hshort
    rw [List.length_drop] at hshort
    exact Nat.le_of_not_lt hshort

/-- Two ways of reading a value that have the same results within the input, each of them of at
least one byte. -/
structure SameReads (input : Bytes) (wide one : Reader Value) : Prop where
  same : ∀ p ≤ input.length, SameAt p wide one
  consumes : ∀ p ≤ input.length, ∀ v q, one.Leads p v q → p < q ∧ q ≤ input.length

namespace SameReads

variable {wide one : Reader Value} (h : SameReads input wide one)
include h

theorem items {start index count : ℕ} (hp : p ≤ input.length) :
    SameAt p (items wide start index count) (items one start index count) := by
  induction count generalizing index p with
  | zero => exact .refl p _
  | succ count ih =>
    refine ((h.same p hp).call _).bind fun item q hitem => ?_
    exact (ih (h.consumes p hp item q hitem).2).bind fun others m _ => .refl m _

theorem le_of_leads_items {start index count : ℕ} (hp : p ≤ input.length) {vs : List Value}
    (hlead : (Reader.items one start index count).Leads p vs q) :
    p + count ≤ q ∧ q ≤ input.length := by
  induction count generalizing index p vs with
  | zero =>
    obtain ⟨-, rfl⟩ := leads_pure.mp hlead
    exact ⟨le_rfl, hp⟩
  | succ count ih =>
    obtain ⟨item, m, hitem, hrest⟩ := leads_bind.mp hlead
    obtain ⟨others, last, hothers, hpure⟩ := leads_bind.mp hrest
    obtain ⟨-, rfl⟩ := leads_pure.mp hpure
    have hfirst := h.consumes p hp item m hitem
    have := ih hfirst.2 hothers
    omega

theorem entry (hp : p ≤ input.length) (previous : Option Bytes) :
    SameAt p (entry input wide previous) (entry input one previous) := by
  refine .position_bind ((h.same p hp).bind fun key q hkey => .position_bind ?_)
  refine (SameAt.refl q _).bind fun keyBytes _ hslice => ?_
  obtain ⟨-, -, rfl⟩ := leads_slice.mp hslice
  split
  · exact (h.same _ (h.consumes p hp key _ hkey).2).bind fun v m _ => .refl m _
  · exact .refl _ _

theorem le_of_leads_entry (hp : p ≤ input.length) {previous : Option Bytes}
    {r : (Value × Value) × Bytes} (hlead : (Reader.entry input one previous).Leads p r q) :
    p + 2 ≤ q ∧ q ≤ input.length := by
  simp only [Reader.entry, leads_bind, leads_position, leads_slice, leads_ite] at hlead
  obtain ⟨_, _, ⟨rfl, rfl⟩, key, m, hkey, _, _, ⟨rfl, rfl⟩, _, _, ⟨-, -, rfl⟩, hlead⟩ := hlead
  split at hlead
  · obtain ⟨v, last, hvalue, hpure⟩ := hlead
    obtain ⟨-, rfl⟩ := leads_pure.mp hpure
    have hfirst := h.consumes _ hp key _ hkey
    have := h.consumes _ hfirst.2 v _ hvalue
    omega
  · exact absurd hlead not_leads_refuse

theorem entries {start index count : ℕ} (hp : p ≤ input.length) (previous : Option Bytes) :
    SameAt p (entries input wide start index count previous)
      (entries input one start index count previous) := by
  induction count generalizing index p previous with
  | zero => exact .refl p _
  | succ count ih =>
    refine ((h.entry hp previous).call _).bind fun first q hfirst => ?_
    refine (ih (h.le_of_leads_entry hp hfirst).2 _).bind fun others m _ => .refl m _

theorem le_of_leads_entries {start index count : ℕ} (hp : p ≤ input.length)
    {previous : Option Bytes} {entries : List (Value × Value)}
    (hlead : (Reader.entries input one start index count previous).Leads p entries q) :
    p + count * 2 ≤ q ∧ q ≤ input.length := by
  induction count generalizing index p previous entries with
  | zero =>
    obtain ⟨-, rfl⟩ := leads_pure.mp hlead
    exact ⟨le_rfl, hp⟩
  | succ count ih =>
    obtain ⟨first, m, hfirst, hrest⟩ := leads_bind.mp hlead
    obtain ⟨others, last, hothers, hpure⟩ := leads_bind.mp hrest
    obtain ⟨-, rfl⟩ := leads_pure.mp hpure
    have hentry := h.le_of_leads_entry hp hfirst
    have := ih hentry.2 hothers
    omega

theorem content (hp : p ≤ input.length) (major : Major) (arg : ℕ) :
    SameAt p (content input false wide major arg) (content input true one major arg) := by
  have htake (f : Bytes → Reader Value) (v : Value) (q : ℕ)
      (hlead : (take input arg >>= f).Leads p v q) : arg * 1 ≤ input.length - p := by
    obtain ⟨bytes, m, htake, -⟩ := leads_bind.mp hlead
    rw [Nat.mul_one]
    exact le_of_leads_take hp htake
  cases major with
  | unsigned | negative | tag | simple => exact .refl p _
  | bytes => exact .count_bind hp (.refl p _) (htake _)
  | text => exact .count_bind hp (.refl p _) (htake _)
  | array =>
    refine .count_bind hp (.position_bind ?_) fun v q hlead => ?_
    · exact (h.items hp).bind fun items m _ => .refl m _
    · obtain ⟨items, m, hitems, -⟩ := leads_bind.mp (leads_position_bind.mp hlead)
      have := h.le_of_leads_items hp hitems
      omega
  | map =>
    refine .count_bind hp (.position_bind ?_) fun v q hlead => ?_
    · exact (h.entries hp none).bind fun entries m _ => .refl m _
    · obtain ⟨entries, m, hentries, -⟩ := leads_bind.mp (leads_position_bind.mp hlead)
      have := h.le_of_leads_entries hp hentries
      omega

end SameReads

theorem lt_of_leads_value {room depth : ℕ} (hroom : room + depth = maxDepth + 1)
    (hp : p ≤ input.length) {v : Value} (hlead : (value input true depth).Leads p v q) :
    p < q ∧ q ≤ input.length := by
  have hvalue := follows_value hroom p hp
  obtain ⟨hanswer, rfl⟩ := hlead
  exact ⟨hvalue.lt_of_isOk (by rw [hanswer]; rfl), hvalue.between.inside⟩

/-- At every depth that a reader reaches, a value is read without the guard exactly if it is read
with it. -/
theorem sameReads_value {room depth : ℕ} (hroom : room + depth = maxDepth + 1) :
    SameReads input (value input false depth) (value input true depth) := by
  refine ⟨?_, fun p hp v q hlead => lt_of_leads_value hroom hp hlead⟩
  induction room generalizing depth with
  | zero =>
    intro p hp
    rw [value_of_too_deep input false (by omega), value_of_too_deep input true (by omega)]
    exact .refl p _
  | succ room ih =>
    intro p hp
    have hroom : room + (depth + 1) = maxDepth + 1 := by omega
    have hnested : SameReads input (value input false (depth + 1)) (value input true (depth + 1)) :=
      ⟨ih hroom, fun m hm v q hlead => lt_of_leads_value hroom hm hlead⟩
    rw [value_of_le input false (by omega), value_of_le input true (by omega)]
    refine SameAt.call (.bind (.refl p _) fun r q hheader => ?_) _
    obtain ⟨-, rfl⟩ := hheader
    exact hnested.content (follows_header hp).between.inside _ _

variable (input)

theorem sameAt_decode : SameAt 0 (decode input false) (decode input true) := by
  have hvalue : SameReads input (value input false 0) (value input true 0) :=
    sameReads_value (show maxDepth + 1 + 0 = maxDepth + 1 from rfl)
  exact (hvalue.same 0 (Nat.zero_le _)).bind fun v q _ => .refl q _

theorem sameAt_decodeTagged : SameAt 0 (decodeTagged input false) (decodeTagged input true) := by
  have hvalue : SameReads input (value input false 0) (value input true 0) :=
    sameReads_value (show maxDepth + 1 + 0 = maxDepth + 1 from rfl)
  refine (SameAt.refl 0 (header input)).bind fun r q hheader => ?_
  obtain ⟨-, rfl⟩ := hheader
  have hinside := (follows_header (Nat.zero_le input.length)).between.inside
  obtain ⟨major, tag⟩ := r
  by_cases htag : major = .tag
  · simp only [if_pos htag]
    exact (hvalue.same _ hinside).bind fun v m _ => .refl m _
  · simp only [if_neg htag]
    exact .refl _ _

variable {input}

/-- Where the reader is the decoder with the guard, it has the decoder's results without the guard. -/
theorem answer_eq_ok_iff_decoded {x y : Reader α} {e : Except DecodeRefusal α} (h : SameAt 0 x y)
    (hy : (y 0).answer = e.mapError .refused) (a : α) : (x 0).answer = .ok a ↔ e = .ok a := by
  rw [answer_eq_ok_iff, exists_congr (h a), ← answer_eq_ok_iff, hy, mapError_eq_ok_iff]

/-- On every input the reader at a cursor comes to what the input is decoded to, so it never leaves
the input, and all its calls are safe: the cursor never goes back and never passes the end, values
take bytes, and depth and turns are bounded. It accepts the same without the guard of counts. -/
theorem safe_on_every_input (input : Bytes) :
    let plain := decode input true 0
    let tagged := decodeTagged input true 0
    plain.answer = (Canonical.decode input).mapError .refused ∧
    tagged.answer = (Canonical.decodeTagged input).mapError .refused ∧
    (∀ calls ∈ [plain.calls, tagged.calls],
      (∀ call ∈ calls, call.Safe input.length) ∧ calls.Pairwise (·.stop ≤ ·.stop)) ∧
    (∀ v, (decode input false 0).answer = .ok v ↔ Canonical.decode input = .ok v) ∧
    ∀ tag v, (decodeTagged input false 0).answer = .ok (tag, v) ↔
      Canonical.decodeTagged input = .ok (tag, v) := by
  intro plain tagged
  refine ⟨decode_answer input, decodeTagged_answer input, ?_, fun v => ?_, fun tag v => ?_⟩
  · have hplain := (follows_decode input).between
    have htagged := (follows_decodeTagged input).between
    simp only [List.forall_mem_cons, List.not_mem_nil, false_imp_iff, implies_true, and_true]
    exact ⟨⟨fun call h => (hplain.each call h).2.2, hplain.order⟩,
      fun call h => (htagged.each call h).2.2, htagged.order⟩
  · exact answer_eq_ok_iff_decoded (sameAt_decode input) (decode_answer input) v
  · exact answer_eq_ok_iff_decoded (sameAt_decodeTagged input) (decodeTagged_answer input) (tag, v)

/-- An array of two, of which the second says that it holds as many items as a word can count. -/
def endlessArray : Bytes := [0x82, 0x00, 0x9b, 0xff, 0xff, 0xff, 0xff, 0xff, 0xff, 0xff, 0xff]

/-- A map of one entry, from a text to an array. -/
def smallMap : Bytes := [0xa1, 0x61, 0x61, 0x81, 0x07]

/-- The second turn of the first array is made with the last nine bytes and fails at the end; the
array in the map is read two levels deep. -/
theorem safe_on_endlessArray_and_smallMap :
    (⟨.turn 1 1, 2, 11, false⟩ ∈ (decode endlessArray true 0).calls ∧
      (⟨.turn 1 1, 2, 11, false⟩ : Call).Safe 11) ∧
    (⟨.value 2, 4, 5, true⟩ ∈ (decode smallMap true 0).calls ∧
      (⟨.value 2, 4, 5, true⟩ : Call).Safe 5) ∧
    (decode smallMap false 0).answer = .ok (.map [(.text "a", .array [.unsigned 7])]) := by
  have hendless : (decode endlessArray true 0).calls[18]? = some ⟨.turn 1 1, 2, 11, false⟩ := by cbv
  have hsmall : (decode smallMap true 0).calls[21]? = some ⟨.value 2, 4, 5, true⟩ := by cbv
  have hdecoded : Canonical.decode smallMap = .ok (.map [(.text "a", .array [.unsigned 7])]) := by
    cbv
  obtain ⟨-, -, hcalls, -, -⟩ := safe_on_every_input endlessArray
  obtain ⟨-, -, hothers, hvalue, -⟩ := safe_on_every_input smallMap
  have hturn := List.mem_of_getElem? hendless
  have hitem := List.mem_of_getElem? hsmall
  have hturnSafe := (hcalls _ List.mem_cons_self).1 _ hturn
  have hitemSafe := (hothers _ List.mem_cons_self).1 _ hitem
  exact ⟨⟨hturn, hturnSafe⟩, ⟨hitem, hitemSafe⟩, (hvalue _).mpr hdecoded⟩

end
end Reader
end Conformance.Canonical
