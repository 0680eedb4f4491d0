import Conformance.Proofs.Canonical.Cursor
import Conformance.Proofs.Canonical.Reading
import Mathlib

/-!
# The reader keeps to the input

From every cursor in the input, each operation of the reader moves the cursor
forward and not past the end, its calls are safe, and it comes to what the decoder
comes to on the bytes from the cursor on. One rule for sequences carries all of
this from the operations on bytes up to nested values.
-/
namespace Conformance.Canonical
open Conformance

/-- The cursor did not go back and stayed in the input. The reader does not go deeper than one level
below the deepest that it reads, and a value that it has read takes at least one byte. A loop makes
fewer turns before this one than there were bytes left at its start. -/
structure Call.Safe (length : ℕ) (call : Call) : Prop where
  forward : call.start ≤ call.stop
  inside : call.stop ≤ length
  value : ∀ depth, call.operation = .value depth →
    depth ≤ 65 ∧ (call.succeeded = true → call.start < call.stop)
  turn : ∀ start index, call.operation = .turn start index → index < length - start

/-- The calls of a run from one cursor to another: each is safe and keeps between the two, and over
all of them the cursor never goes back. -/
structure Between (length first last : ℕ) (calls : List Call) : Prop where
  forward : first ≤ last
  inside : last ≤ length
  each : ∀ call ∈ calls, first ≤ call.start ∧ call.stop ≤ last ∧ call.Safe length
  order : calls.Pairwise (·.stop ≤ ·.stop)

namespace Between

variable {length p q m : ℕ} {calls later : List Call}

theorem nil (h : p ≤ q) (hq : q ≤ length) : Between length p q [] :=
  ⟨h, hq, by simp, .nil⟩

theorem append (h : Between length p m calls) (hlater : Between length m q later) :
    Between length p q (calls ++ later) where
  forward := h.forward.trans hlater.forward
  inside := hlater.inside
  each call hcall := by
    rcases List.mem_append.mp hcall with hmem | hmem
    · obtain ⟨hstart, hstop, hsafe⟩ := h.each call hmem
      exact ⟨hstart, hstop.trans hlater.forward, hsafe⟩
    · obtain ⟨hstart, hstop, hsafe⟩ := hlater.each call hmem
      exact ⟨h.forward.trans hstart, hstop, hsafe⟩
  order := by
    refine List.pairwise_append.mpr ⟨h.order, hlater.order, fun a ha b hb => ?_⟩
    obtain ⟨-, hstop, -⟩ := h.each a ha
    obtain ⟨hstart, -, hsafe⟩ := hlater.each b hb
    exact hstop.trans (hstart.trans hsafe.forward)

/-- A call is noted after those that were made in it. -/
theorem note (h : Between length p q calls) {call : Call} (hsafe : call.Safe length)
    (hstart : call.start = p) (hstop : call.stop = q) : Between length p q (calls ++ [call]) where
  forward := h.forward
  inside := h.inside
  each c hc := by
    rcases List.mem_append.mp hc with hmem | hmem
    · exact h.each c hmem
    · rw [List.mem_singleton.mp hmem]
      exact ⟨hstart.ge, hstop.le, hsafe⟩
  order := by
    refine List.pairwise_append.mpr ⟨h.order, List.pairwise_singleton _ _, fun a ha b hb => ?_⟩
    rw [List.mem_singleton.mp hb, hstop]
    exact (h.each a ha).2.1

end Between

namespace Reader

variable {α β : Type}

/-- A run of a reader from a cursor is safe and comes to what is decoded of the bytes from there. -/
structure Follows (input : Bytes) (p : ℕ) (o : Outcome α)
    (decoded : Except DecodeRefusal (α × Bytes)) : Prop where
  between : Between input.length p o.stop o.calls
  answer : o.answer = (decoded.map Prod.fst).mapError .refused
  rest : ∀ a left, decoded = .ok (a, left) → left = input.drop o.stop

namespace Follows

variable {input : Bytes} {p q : ℕ} {x : Reader α} {f : α → Reader β} {a : α}
  {decoded : Except DecodeRefusal (α × Bytes)}

theorem eq_ok_of_leads (h : Follows input p (x p) decoded) (hlead : x.Leads p a q) :
    decoded = .ok (a, input.drop q) := by
  obtain ⟨hanswer, rfl⟩ := hlead
  cases decoded with
  | error r => cases h.answer.symm.trans hanswer
  | ok pair =>
    obtain ⟨b, left⟩ := pair
    cases h.answer.symm.trans hanswer
    rw [h.rest b left rfl]

theorem halt {r : DecodeRefusal} (h : Follows input p (x p) (.error r)) (f : α → Reader β) :
    Follows input p ((x >>= f) p) (.error r) := by
  rw [bind_of_stop h.answer]
  exact ⟨h.between, rfl, nofun⟩

theorem bind {k : α × Bytes → Except DecodeRefusal (β × Bytes)}
    (h : Follows input p (x p) decoded)
    (hnext : ∀ a q, x.Leads p a q → p ≤ q → q ≤ input.length →
      Follows input q (f a q) (k (a, input.drop q))) :
    Follows input p ((x >>= f) p) (decoded >>= k) := by
  cases hdecoded : decoded with
  | error r =>
    rw [hdecoded] at h
    exact h.halt f
  | ok pair =>
    obtain ⟨a, left⟩ := pair
    rw [hdecoded] at h
    have hlead : x.Leads p a (x p).stop := ⟨h.answer, rfl⟩
    obtain ⟨hbetween, hanswer, hrest⟩ := hnext a _ hlead h.between.forward h.between.inside
    rw [← h.rest a left rfl] at hanswer hrest
    rw [bind_of_leads hlead]
    exact ⟨h.between.append hbetween, hanswer, hrest⟩

theorem pure (hp : p ≤ input.length) (a : α) :
    Follows input p ((pure a : Reader α) p) (.ok (a, input.drop p)) where
  between := .nil le_rfl hp
  answer := rfl
  rest _ _ h := by
    cases h
    rfl

theorem refuse (hp : p ≤ input.length) (refusal : DecodeRefusal) :
    Follows input p ((refuse refusal : Reader α) p) (.error refusal) :=
  ⟨.nil le_rfl hp, rfl, nofun⟩

theorem call {operation : Operation} (h : Follows input p (x p) decoded)
    (hvalue : ∀ depth, operation = .value depth →
      depth ≤ 65 ∧ ((x p).answer.isOk = true → p < (x p).stop))
    (hturn : ∀ start index, operation = .turn start index → index < input.length - start) :
    Follows input p (call operation x p) decoded :=
  ⟨h.between.note ⟨h.between.forward, h.between.inside, hvalue, hturn⟩ rfl rfl, h.answer, h.rest⟩

/-- A step whose answer and whose new cursor are known. -/
theorem andThen {m : ℕ} {e : Except DecodeRefusal (β × Bytes)}
    (h : Follows input p (x p) (.ok (a, input.drop m))) (hm : m ≤ input.length)
    (hnext : Follows input m (f a m) e) : Follows input p ((x >>= f) p) e := by
  refine bind (k := fun _ => e) h fun b q hlead _ hq => ?_
  obtain ⟨rfl, hrest⟩ := Prod.mk.inj (Except.ok.inj (h.eq_ok_of_leads hlead))
  have hlength := congrArg List.length hrest
  rw [List.length_drop, List.length_drop] at hlength
  obtain rfl : q = m := by omega
  exact hnext

end Follows

section Operations
variable {input : Bytes} {p q : ℕ}

theorem position_bind (f : ℕ → Reader β) (p : ℕ) : (position >>= f) p = f p p := rfl

theorem follows_remaining (hp : p ≤ input.length) :
    Follows input p (remaining input p) (.ok (input.length - p, input.drop p)) := by
  refine .call ?_ (by simp) (by simp)
  rw [position_bind, if_pos hp]
  exact .pure hp _

theorem follows_remaining_bind (hp : p ≤ input.length) {f : ℕ → Reader β}
    {e : Except DecodeRefusal (β × Bytes)} (h : Follows input p (f (input.length - p) p) e) :
    Follows input p ((remaining input >>= f) p) e :=
  (follows_remaining hp).andThen hp h

theorem slice_bind {first last : ℕ} (h : first ≤ last) (hlast : last ≤ input.length)
    (f : Bytes → Reader β) (p : ℕ) :
    (slice input first last >>= f) p = f ((input.drop first).take (last - first)) p := by
  rw [slice, if_pos ⟨h, hlast⟩, List.drop_take]
  rfl

theorem follows_take (hp : p ≤ input.length) (n : ℕ) :
    Follows input p (take input n p) (Header.take input.length n (input.drop p)) := by
  refine .call ?_ (by simp) (by simp)
  refine follows_remaining_bind hp ?_
  rw [position_bind, Header.take, List.length_drop]
  by_cases hshort : input.length - p < n
  · rw [if_pos hshort, if_pos hshort, Nat.sub_sub_self hp]
    exact .refuse hp _
  · have hend : p + n ≤ input.length := by omega
    rw [if_neg hshort, if_neg hshort, slice_bind (Nat.le_add_right p n) hend, Nat.add_sub_cancel_left]
    refine ⟨.nil (Nat.le_add_right p n) hend, rfl, fun a left h => ?_⟩
    cases h
    exact List.drop_drop

theorem follows_take_of_le (hp : p ≤ input.length) {n : ℕ} (hn : n ≤ input.length - p) :
    Follows input p (take input n p) (.ok ((input.drop p).take n, input.drop (p + n))) := by
  have htake := follows_take hp n
  rwa [Header.take, List.length_drop, if_neg (by omega), List.drop_drop] at htake

/-- The guard and the check of counts refuse the same. -/
theorem follows_count (hp : p ≤ input.length) (arg least : ℕ) :
    Follows input p (count input true arg least p)
      (checkCount input.length arg least (input.drop p) >>= fun _ => .ok (arg, input.drop p)) := by
  refine .call ?_ (by simp) (by simp)
  rw [if_pos rfl]
  refine follows_remaining_bind hp ?_
  rw [checkCount, List.length_drop]
  by_cases hfit : arg * least ≤ input.length - p
  · rw [if_pos hfit, if_pos hfit]
    exact .pure hp arg
  · rw [if_neg hfit, if_neg hfit, position_bind, Nat.sub_sub_self hp]
    exact .refuse hp _

theorem follows_count_bind (hp : p ≤ input.length) {arg least : ℕ} {f : ℕ → Reader β}
    {e : Except DecodeRefusal (β × Bytes)}
    (h : arg * least ≤ input.length - p → Follows input p (f arg p) e) :
    Follows input p ((count input true arg least >>= f) p)
      (checkCount input.length arg least (input.drop p) >>= fun _ => e) := by
  have hcount := follows_count hp arg least
  cases hcheck : checkCount input.length arg least (input.drop p) with
  | error r =>
    rw [hcheck] at hcount
    exact hcount.halt f
  | ok u =>
    rw [hcheck] at hcount
    have hfit := length_le_of_checkCount hcheck
    rw [List.length_drop] at hfit
    exact hcount.andThen hp (h hfit)

theorem follows_finish (hp : p ≤ input.length) (a : α) :
    Follows input p ((finish input >>= fun _ => pure a) p)
      ((Canonical.finish (a, input.drop p)).map fun b => (b, input.drop p)) := by
  have hfinish : Follows input p (finish input p)
      ((Canonical.finish ((), input.drop p)).map fun u => (u, input.drop p)) := by
    refine .call ?_ (by simp) (by simp)
    refine follows_remaining_bind hp ?_
    cases hrest : input.drop p with
    | nil =>
      have hend := List.drop_eq_nil_iff.mp hrest
      rw [if_pos (Nat.sub_eq_zero_of_le hend)]
      have := Follows.pure hp ()
      rwa [hrest] at this
    | cons b rest =>
      have hlength := congrArg List.length hrest
      rw [List.length_drop, List.length_cons] at hlength
      rw [if_neg (by omega)]
      refine follows_remaining_bind hp ?_
      rw [hlength]
      exact .refuse hp _
  have hsame (left : Bytes) : (Canonical.finish (a, left)).map (fun b => (b, left)) =
      (Canonical.finish ((), left)).map (fun u => (u, left)) >>= fun r => .ok (a, r.2) := by
    cases left <;> rfl
  rw [hsame]
  exact hfinish.bind fun _ q _ _ hq => .pure hq a

theorem follows_octet (hp : p < input.length) :
    Follows input p (octet input p) (.ok (input[p], input.drop (p + 1))) := by
  have htake := follows_take_of_le hp.le (n := 1) (by omega)
  rw [List.drop_eq_getElem_cons hp] at htake
  exact htake.andThen hp (.pure hp _)

theorem follows_word (hp : p ≤ input.length) (width : ℕ) :
    Follows input p (word input width p)
      (Header.take input.length width (input.drop p) >>= fun r => .ok (Bytes.toNat r.1, r.2)) := by
  refine (follows_take hp width).bind fun digits q hlead _ hq => ?_
  obtain ⟨-, hlength⟩ := Header.eq_append_of_take ((follows_take hp width).eq_ok_of_leads hlead)
  rw [if_pos hlength]
  exact .pure hq _

theorem lt_of_leads_word (hp : p ≤ input.length) {width n : ℕ}
    (h : (word input width).Leads p n q) : n < 256 ^ width := by
  have hword := (follows_word hp width).eq_ok_of_leads h
  obtain ⟨⟨digits, left⟩, htake, hn⟩ := bind_eq_ok_iff.mp hword
  cases hn
  rw [← (Header.eq_append_of_take htake).2]
  exact Bytes.toNat_lt digits

/-- The announced width is the least one for a number that is not below its floor. -/
theorem width_eq_iff {info width n : ℕ} (h : Header.announced? info = some width)
    (hn : n < 256 ^ width) : Header.width n = width ↔ floor info ≤ n := by
  unfold Header.announced? at h
  unfold Header.width UInt8.size UInt16.size UInt32.size
  split at h <;> cases h <;> simp only [floor] <;> split_ifs <;> simp <;> omega

theorem argument_of_announced (total : ℕ) {info width : ℕ} (hinfo : ¬ info < 24)
    (h : Header.announced? info = some width) (bytes : Bytes) :
    Header.argument total info bytes =
      (Header.take total width bytes >>= fun r => .ok (Bytes.toNat r.1, r.2)) >>= fun r =>
        if Header.width r.1 = width then .ok r
        else .error (.notShortest (Header.offset total bytes)) := by
  rw [Header.argument, if_neg hinfo, h, bind_assoc]
  rfl

/-- A number that lies below the floor of its width has a shorter header. -/
theorem follows_argument (hp : p + 1 ≤ input.length) (info : ℕ) :
    Follows input (p + 1) (argument input p info (p + 1))
      (Header.argument input.length info (input.drop (p + 1))) := by
  have hoffset : Header.offset input.length (input.drop (p + 1)) = p := by
    rw [Header.offset, List.length_drop]
    omega
  by_cases hinfo : info < 24
  · rw [argument, if_pos hinfo, Header.argument, if_pos hinfo]
    exact .pure hp info
  · cases hannounced : Header.announced? info with
    | none =>
      rw [argument, if_neg hinfo, Header.argument, if_neg hinfo, hannounced, hoffset]
      exact .refuse hp _
    | some width =>
      rw [argument, if_neg hinfo, hannounced, argument_of_announced _ hinfo hannounced, hoffset]
      refine (follows_word hp width).bind fun n q hlead _ hq => ?_
      have hleast := width_eq_iff hannounced (lt_of_leads_word hp hlead)
      by_cases hfloor : floor info ≤ n
      · rw [if_neg (Nat.not_lt.mpr hfloor), if_pos (hleast.mpr hfloor)]
        exact .pure hq n
      · rw [if_pos (Nat.lt_of_not_le hfloor), if_neg (mt hleast.mp hfloor)]
        exact .refuse hq _

theorem follows_header (hp : p ≤ input.length) :
    Follows input p (header input p)
      ((Header.read input.length (input.drop p)).map fun r => ((r.1, r.2.1), r.2.2)) := by
  refine .call ?_ (by simp) (by simp)
  rw [position_bind]
  rcases hp.lt_or_eq with hlt | rfl
  · rw [List.drop_eq_getElem_cons hlt]
    have hsame : (Header.read input.length (input[p] :: input.drop (p + 1))).map
          (fun r => ((r.1, r.2.1), r.2.2)) =
        Header.argument input.length (input[p].toNat % 32) (input.drop (p + 1)) >>= fun r =>
          .ok ((Major.ofInitial input[p], r.1), r.2) := by
      change Except.map _ (Header.argument _ _ _ >>= _) = _
      cases Header.argument input.length (input[p].toNat % 32) (input.drop (p + 1)) <;> rfl
    rw [hsame]
    refine (follows_octet hlt).andThen hlt ?_
    exact (follows_argument hlt _).bind fun n q _ _ hq => .pure hq _
  · have htake := follows_take (le_refl input.length) 1
    rw [List.drop_length] at htake ⊢
    exact (htake.halt _).halt _

section Walks
variable {one : Reader Value} {step : Step}
  (hone : ∀ p ≤ input.length, Follows input p (one p) (step (input.drop p)))
include hone

theorem follows_items {start index count : ℕ} (hturns : index + count ≤ input.length - start)
    (hp : p ≤ input.length) :
    Follows input p (items one start index count p) (decodeItems step count (input.drop p)) := by
  induction count generalizing index p with
  | zero => exact .pure hp []
  | succ count ih =>
    rw [items, decodeItems]
    refine Follows.bind ((hone p hp).call (by simp) ?_) fun item q _ _ hq => ?_
    · rintro _ _ ⟨⟩
      omega
    · exact (ih (by omega) hq).bind fun others q _ _ hq => .pure hq _

/-- One turn of the walk over entries, with the bytes of its key. -/
def decodeEntry (total : ℕ) (one : Step) (previous : Option Bytes) (bytes : Bytes) :
    Except DecodeRefusal (((Value × Value) × Bytes) × Bytes) := do
  let (key, afterKey) ← one bytes
  let keyBytes := bytes.take (bytes.length - afterKey.length)
  if mayFollow previous keyBytes then
    let (value, rest) ← one afterKey
    return (((key, value), keyBytes), rest)
  else .error (.keyOrder (total - bytes.length))

omit hone in
theorem decodeEntries_eq (total count : ℕ) (previous : Option Bytes) (bytes : Bytes) :
    decodeEntries total step (count + 1) previous bytes = (do
      let ((first, key), rest) ← decodeEntry total step previous bytes
      let (entries, rest) ← decodeEntries total step count (some key) rest
      return (first :: entries, rest)) := by
  rw [decodeEntries, decodeEntry]
  cases step bytes with
  | error r => rfl
  | ok read =>
    obtain ⟨key, afterKey⟩ := read
    simp only [ok_bind]
    split
    · cases step afterKey <;> rfl
    · rfl

theorem follows_entry (hp : p ≤ input.length) (previous : Option Bytes) :
    Follows input p (entry input one previous p)
      (decodeEntry input.length step previous (input.drop p)) := by
  rw [entry, position_bind, decodeEntry]
  refine (hone p hp).bind fun key q _ hpq hq => ?_
  have hlength : (input.drop p).length - (input.drop q).length = q - p := by
    rw [List.length_drop, List.length_drop]
    omega
  have hoffset : input.length - (input.drop p).length = p := by
    rw [List.length_drop]
    omega
  rw [position_bind, slice_bind hpq hq]
  simp only [hlength, hoffset]
  split
  · exact (hone q hq).bind fun value m _ _ hm => .pure hm _
  · exact .refuse hq _

theorem follows_entries {start index count : ℕ} (hturns : index + count ≤ input.length - start)
    (hp : p ≤ input.length) (previous : Option Bytes) :
    Follows input p (entries input one start index count previous p)
      (decodeEntries input.length step count previous (input.drop p)) := by
  induction count generalizing index p previous with
  | zero => exact .pure hp []
  | succ count ih =>
    rw [entries, decodeEntries_eq]
    refine Follows.bind ((follows_entry hone hp previous).call (by simp) ?_) fun first q _ _ hq => ?_
    · rintro _ _ ⟨⟩
      omega
    · exact (ih (by omega) hq _).bind fun others q _ _ hq => .pure hq _

theorem follows_content (hp : p ≤ input.length) (major : Major) (arg : ℕ) :
    Follows input p (content input true one major arg p)
      (decodeContent input.length step major arg (input.drop p)) := by
  cases major with
  | unsigned => exact .pure hp _
  | bytes =>
    refine follows_count_bind hp fun hfit => ?_
    rw [Nat.mul_one] at hfit
    rw [List.drop_drop]
    exact (follows_take_of_le hp hfit).andThen (by omega) (.pure (by omega) _)
  | text =>
    refine follows_count_bind hp fun hfit => ?_
    rw [Nat.mul_one] at hfit
    rw [List.drop_drop]
    refine (follows_take_of_le hp hfit).andThen (by omega) ?_
    cases Text.Utf8.decode ((input.drop p).take arg) with
    | ok text => exact .pure (by omega) _
    | error reason => exact .refuse (by omega) _
  | array =>
    refine follows_count_bind hp fun hfit => ?_
    rw [position_bind]
    exact (follows_items hone (by omega) hp).bind fun items q _ _ hq => .pure hq _
  | map =>
    refine follows_count_bind hp fun hfit => ?_
    rw [position_bind]
    exact (follows_entries hone (by omega) hp none).bind fun entries q _ _ hq => .pure hq _
  | negative | tag | simple => exact .refuse hp _

end Walks

/-- The header with its two parts together. -/
theorem decodeValue_succ (total room : ℕ) (bytes : Bytes) :
    decodeValue total (room + 1) bytes =
      (Header.read total bytes).map (fun r => ((r.1, r.2.1), r.2.2)) >>= fun r =>
        decodeContent total (decodeValue total room) r.1.1 r.1.2 r.2 := by
  rw [decodeValue]
  cases Header.read total bytes <;> rfl

/-- A value that was read took at least one byte, since none has an empty encoding. -/
theorem Follows.lt_of_isOk {x : Reader Value} {total room : ℕ}
    (h : Follows input p (x p) (decodeValue total room (input.drop p)))
    (hok : (x p).answer.isOk = true) : p < (x p).stop := by
  cases hanswer : (x p).answer with
  | error why => rw [hanswer] at hok; cases hok
  | ok v =>
    have hread := h.eq_ok_of_leads ⟨hanswer, rfl⟩
    obtain ⟨code, hcode, hencodes, -⟩ := decodeValue_sound _ _ _ _ _ hread
    have hlength := congrArg List.length hcode
    have hpos := hencodes.length_pos
    rw [List.length_append, List.length_drop, List.length_drop] at hlength
    have := h.between.inside
    omega

theorem follows_value {room depth : ℕ} (hroom : room + depth = maxDepth + 1) (p : ℕ)
    (hp : p ≤ input.length) :
    Follows input p (value input true depth p) (decodeValue input.length room (input.drop p)) := by
  have hmax : maxDepth = 64 := rfl
  induction room generalizing depth p with
  | zero =>
    rw [value_of_too_deep _ _ (by omega)]
    have hbody : Follows input p ((refuse .tooDeep : Reader Value) p) (.error .tooDeep) :=
      .refuse hp _
    refine hbody.call ?_ (by simp)
    rintro _ ⟨⟩
    exact ⟨by omega, nofun⟩
  | succ room ih =>
    rw [value_of_le _ _ (by omega)]
    have hbody : Follows input p ((header input >>= fun r =>
        content input true (value input true (depth + 1)) r.1 r.2) p)
        (decodeValue input.length (room + 1) (input.drop p)) := by
      rw [decodeValue_succ]
      refine (follows_header hp).bind fun r q _ _ hq => ?_
      exact follows_content (fun m hm => ih (by omega) m hm) hq _ _
    refine hbody.call ?_ (by simp)
    rintro _ ⟨⟩
    exact ⟨by omega, hbody.lt_of_isOk⟩

variable (input)

theorem follows_decode :
    Follows input 0 (decode input true 0) (decodeValue input.length (maxDepth + 1) input >>=
      fun r => (Canonical.finish r).map fun v => (v, r.2)) := by
  have hvalue := follows_value (show maxDepth + 1 + 0 = maxDepth + 1 from rfl) 0
    (Nat.zero_le input.length)
  exact hvalue.bind fun v q _ _ hq => follows_finish hq v

theorem follows_decodeTagged :
    Follows input 0 (decodeTagged input true 0)
      ((Header.read input.length input).map (fun r => ((r.1, r.2.1), r.2.2)) >>= fun r =>
        if r.1.1 = .tag then
          decodeValue input.length (maxDepth + 1) r.2 >>= fun s =>
            (Canonical.finish ((UInt64.ofNat r.1.2, s.1), s.2)).map fun v => (v, s.2)
        else .error (.untagged r.1.1.code)) := by
  refine (follows_header (Nat.zero_le input.length)).bind fun r q _ _ hq => ?_
  obtain ⟨major, tag⟩ := r
  by_cases htag : major = .tag
  · simp only [if_pos htag]
    have hvalue := follows_value (show maxDepth + 1 + 0 = maxDepth + 1 from rfl) q hq
    exact hvalue.bind fun v m _ _ hm => follows_finish hm (UInt64.ofNat tag, v)
  · simp only [if_neg htag]
    exact .refuse hq _

theorem decode_answer :
    (decode input true 0).answer = (Canonical.decode input).mapError .refused := by
  rw [(follows_decode input).answer, Canonical.decode]
  cases decodeValue input.length (maxDepth + 1) input with
  | error r => rfl
  | ok read =>
    rw [ok_bind, ok_bind]
    cases Canonical.finish read <;> rfl

theorem decodeTagged_answer :
    (decodeTagged input true 0).answer = (Canonical.decodeTagged input).mapError .refused := by
  rw [(follows_decodeTagged input).answer, Canonical.decodeTagged]
  cases Header.read input.length input with
  | error r => rfl
  | ok read =>
    obtain ⟨major, tag, rest⟩ := read
    by_cases htag : major = .tag
    · simp only [Except.map, ok_bind, if_pos htag]
      cases decodeValue input.length (maxDepth + 1) rest with
      | error r => rfl
      | ok value =>
        obtain ⟨v, left⟩ := value
        cases left <;> rfl
    · simp only [Except.map, ok_bind, if_neg htag, Except.mapError]

end Operations

end Reader
end Conformance.Canonical
