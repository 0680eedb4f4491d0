import Conformance.ClientToken
import Mathlib.Tactic

/-!
# The verifier and its history

The nonces a verifier holds are those of the accepted calls that no later call
has found too old. What it answers is therefore a matter of the earlier calls
alone, and under a clock that never goes back no token is accepted twice.
-/
namespace Conformance.ClientToken
open Conformance

/-- A token presented at a reading of the clock. -/
structure Call where
  token : Token
  now : UInt64

namespace Call

def timestamp (call : Call) : UInt64 := call.token.claim.timestamp

def key (call : Call) : String × Bytes := (call.token.claim.clientId, call.token.claim.nonce)

/-- The tag is the one that the client's own key gives for the fields of the token. -/
def Authentic (secret : Bytes) (call : Call) : Prop :=
  call.token.tag = call.token.claim.tag (clientKey secret call.token.claim.clientId)

/-- How far the clock and the timestamp are apart. -/
def distance (call : Call) : ℕ := ((call.now.toNat : ℤ) - call.timestamp.toNat).natAbs

/-- The call gets past the tag and the clock. -/
def Passes (secret : Bytes) (maxSkew : ℕ) (call : Call) : Prop :=
  call.Authentic secret ∧ call.distance ≤ maxSkew

/-- What is remembered of a call that is accepted. -/
def used (call : Call) : UsedNonce :=
  ⟨call.token.claim.clientId, call.token.claim.nonce, call.timestamp⟩

instance (secret : Bytes) (call : Call) : Decidable (call.Authentic secret) :=
  inferInstanceAs (Decidable (_ = _))

end Call

def UsedNonce.key (u : UsedNonce) : String × Bytes := (u.clientId, u.nonce)

theorem skew_eq_distance (call : Call) : skew call.now call.timestamp = call.distance := by
  unfold skew Call.distance
  omega

namespace Verifier

/-- The verifier after a call. -/
def next (v : Verifier) (call : Call) : Verifier := (v.verify call.token call.now).2

def answer (v : Verifier) (call : Call) : Except Refusal Unit := (v.verify call.token call.now).1

theorem authentic_iff (v : Verifier) (call : Call) :
    v.authentic call.token = true ↔ call.Authentic v.secret := by
  simp [authentic, Call.Authentic]

theorem mem_evict (v : Verifier) (now : UInt64) (u : UsedNonce) :
    u ∈ (v.evict now).used ↔ u ∈ v.used ∧ now.toNat - u.timestamp.toNat ≤ v.maxSkew := by
  simp [evict]

theorem holds_iff (v : Verifier) (call : Call) :
    v.holds call.token.claim = true ↔ ∃ u ∈ v.used, u.key = call.key := by
  simp [holds, UsedNonce.key, Call.key]

/-- Some nonce that is held, and not too old by now, is the nonce of the call. -/
def Repeats (v : Verifier) (call : Call) : Prop :=
  ∃ u ∈ v.used, call.now.toNat - u.timestamp.toNat ≤ v.maxSkew ∧ u.key = call.key

theorem holds_evict_iff (v : Verifier) (call : Call) :
    (v.evict call.now).holds call.token.claim = true ↔ v.Repeats call := by
  simp only [holds_iff, mem_evict, Repeats, and_assoc]

/-- What a call can do: fail the tag or the clock and change nothing, or drop what is too
old and then repeat a nonce or be accepted. -/
theorem verify_cases (v : Verifier) (call : Call) :
    (¬ call.Passes v.secret v.maxSkew ∧ v.verify call.token call.now =
      (.error (if call.Authentic v.secret then .expired call.distance else .badTag), v)) ∨
    (call.Passes v.secret v.maxSkew ∧ v.Repeats call ∧
      v.verify call.token call.now = (.error .replay, v.evict call.now)) ∨
    (call.Passes v.secret v.maxSkew ∧ ¬ v.Repeats call ∧
      v.verify call.token call.now = (.ok (), (v.evict call.now).remember call.token.claim)) := by
  have hs : skew call.now call.token.claim.timestamp = call.distance := skew_eq_distance call
  by_cases ha : call.Authentic v.secret
  · have htag : v.authentic call.token = true := (authentic_iff v call).mpr ha
    by_cases hd : call.distance ≤ v.maxSkew
    · right
      by_cases hr : v.Repeats call
      · left
        refine ⟨⟨ha, hd⟩, hr, ?_⟩
        simp [verify, hs, htag, not_lt.mpr hd, (holds_evict_iff v call).mpr hr]
      · right
        refine ⟨⟨ha, hd⟩, hr, ?_⟩
        simp [verify, hs, htag, not_lt.mpr hd, mt (holds_evict_iff v call).mp hr]
    · left
      refine ⟨fun hp => hd hp.2, ?_⟩
      simp [verify, hs, htag, not_le.mp hd, ha]
  · left
    refine ⟨fun hp => ha hp.1, ?_⟩
    simp [verify, mt (authentic_iff v call).mp ha, ha]

open Classical in
theorem answer_eq (v : Verifier) (call : Call) :
    v.answer call =
      if ¬ call.Authentic v.secret then .error .badTag
      else if v.maxSkew < call.distance then .error (.expired call.distance)
      else if v.Repeats call then .error .replay
      else .ok () := by
  unfold answer
  rcases verify_cases v call with ⟨hp, h⟩ | ⟨hp, hr, h⟩ | ⟨hp, hr, h⟩
  · rw [h]
    by_cases ha : call.Authentic v.secret
    · have hd : v.maxSkew < call.distance := not_le.mp fun hd => hp ⟨ha, hd⟩
      simp [ha, hd]
    · simp [ha]
  · simp [h, hp.1, not_lt.mpr hp.2, hr]
  · simp [h, hp.1, not_lt.mpr hp.2, hr]

theorem answer_eq_ok_iff (v : Verifier) (call : Call) :
    v.answer call = .ok () ↔ call.Passes v.secret v.maxSkew ∧ ¬ v.Repeats call := by
  unfold answer
  rcases verify_cases v call with ⟨hp, h⟩ | ⟨hp, hr, h⟩ | ⟨hp, hr, h⟩
  · simp [h, hp]
  · simp [h, hr]
  · simp [h, hp, hr]

/-- A call that passes drops what it finds too old, and an accepted call is remembered. -/
theorem mem_next_iff (v : Verifier) (call : Call) (u : UsedNonce) :
    u ∈ (v.next call).used ↔
      (u ∈ v.used ∧
        (call.Passes v.secret v.maxSkew → call.now.toNat - u.timestamp.toNat ≤ v.maxSkew)) ∨
      (v.answer call = .ok () ∧ u = call.used) := by
  rw [answer_eq_ok_iff]
  unfold next
  rcases verify_cases v call with ⟨hp, h⟩ | ⟨hp, hr, h⟩ | ⟨hp, hr, h⟩
  · simp [h, hp]
  · simp [h, hp, hr, mem_evict]
  · simp only [h, hp, hr, true_implies, not_false_eq_true, true_and, ← mem_evict]
    exact List.mem_cons.trans or_comm

theorem next_secret (v : Verifier) (call : Call) : (v.next call).secret = v.secret := by
  unfold next
  rcases verify_cases v call with ⟨-, h⟩ | ⟨-, -, h⟩ | ⟨-, -, h⟩ <;> rw [h] <;> rfl

theorem next_maxSkew (v : Verifier) (call : Call) : (v.next call).maxSkew = v.maxSkew := by
  unfold next
  rcases verify_cases v call with ⟨-, h⟩ | ⟨-, -, h⟩ | ⟨-, -, h⟩ <;> rw [h] <;> rfl

/-- No two nonces that are held are the same nonce of the same client. -/
def Distinct (v : Verifier) : Prop := (v.used.map UsedNonce.key).Nodup

theorem Distinct.evict {v : Verifier} (h : v.Distinct) (now : UInt64) :
    (v.evict now).Distinct :=
  h.sublist (List.filter_sublist.map _)

theorem Distinct.next {v : Verifier} (h : v.Distinct) (call : Call) : (v.next call).Distinct := by
  unfold Verifier.next
  rcases verify_cases v call with ⟨-, hv⟩ | ⟨-, -, hv⟩ | ⟨-, hr, hv⟩
  · rw [hv]
    exact h
  · rw [hv]
    exact h.evict call.now
  · rw [hv]
    refine List.nodup_cons.mpr ⟨?_, h.evict call.now⟩
    intro hm
    obtain ⟨u, hu, hk⟩ := List.mem_map.mp hm
    have hold : u ∈ v.used ∧ call.now.toNat - u.timestamp.toNat ≤ v.maxSkew :=
      (mem_evict v call.now u).mp hu
    exact hr ⟨u, hold.1, hold.2, hk⟩

end Verifier

/-- A fresh verifier and the calls made of it. -/
structure History where
  secret : Bytes
  maxSkew : ℕ
  calls : List Call

namespace History

variable (h : History)

/-- The verifier when a number of calls have been made. -/
def verifier (n : ℕ) : Verifier :=
  (h.calls.take n).foldl Verifier.next (Verifier.new h.secret h.maxSkew)

def call (i : Fin h.calls.length) : Call := h.calls[i]

def answer (i : Fin h.calls.length) : Except Refusal Unit := (h.verifier i).answer (h.call i)

def Accepted (i : Fin h.calls.length) : Prop := h.answer i = .ok ()

def Passes (i : Fin h.calls.length) : Prop := (h.call i).Passes h.secret h.maxSkew

/-- An accepted call is live when `n` calls have been made if none of those after it that
passed the tag and the clock found its timestamp too old. -/
def Live (n : ℕ) (j : Fin h.calls.length) : Prop :=
  h.Accepted j ∧ ∀ k, j < k → k.val < n → h.Passes k →
    (h.call k).now.toNat - (h.call j).timestamp.toNat ≤ h.maxSkew

theorem verifier_succ (i : Fin h.calls.length) :
    h.verifier (i + 1) = (h.verifier i).next (h.call i) := by
  unfold verifier
  rw [List.take_succ_eq_append_getElem i.isLt, List.foldl_append]
  rfl

/-- What a fresh verifier has and every call keeps, the verifier always has. -/
theorem verifier_of_next {P : Verifier → Prop} (hnew : P (Verifier.new h.secret h.maxSkew))
    (hnext : ∀ v call, P v → P (v.next call)) (n : ℕ) : P (h.verifier n) := by
  unfold verifier
  induction h.calls.take n using List.reverseRecOn with
  | nil => exact hnew
  | append_singleton calls call ih =>
    rw [List.foldl_append, List.foldl_cons, List.foldl_nil]
    exact hnext _ call ih

theorem verifier_secret (n : ℕ) : (h.verifier n).secret = h.secret := by
  apply h.verifier_of_next (P := fun v => v.secret = h.secret) rfl
  intro v call hv
  rw [v.next_secret, hv]

theorem verifier_maxSkew (n : ℕ) : (h.verifier n).maxSkew = h.maxSkew := by
  apply h.verifier_of_next (P := fun v => v.maxSkew = h.maxSkew) rfl
  intro v call hv
  rw [v.next_maxSkew, hv]

theorem verifier_distinct (n : ℕ) : (h.verifier n).Distinct := by
  apply h.verifier_of_next List.nodup_nil
  intro v call hv
  exact hv.next call

theorem live_self {i : Fin h.calls.length} : h.Live (i + 1) i ↔ h.Accepted i := by
  refine ⟨And.left, fun ha => ⟨ha, ?_⟩⟩
  intro k hik hk
  have hlt : i.val < k.val := hik
  omega

/-- One more call keeps an earlier one live unless it passes and finds it too old. -/
theorem live_succ {i j : Fin h.calls.length} (hj : j < i) :
    h.Live (i + 1) j ↔ h.Live i j ∧
      (h.Passes i → (h.call i).now.toNat - (h.call j).timestamp.toNat ≤ h.maxSkew) := by
  constructor
  · intro hl
    refine ⟨⟨hl.1, fun k hjk hk => hl.2 k hjk (by omega)⟩, hl.2 i hj (by omega)⟩
  · rintro ⟨hl, hi⟩
    refine ⟨hl.1, ?_⟩
    intro k hjk hk
    rcases Nat.lt_succ_iff_lt_or_eq.mp hk with hlt | heq
    · exact hl.2 k hjk hlt
    · rw [Fin.ext heq]
      exact hi

/-- The nonces held are those of the live calls. -/
theorem mem_verifier_iff {n : ℕ} (hn : n ≤ h.calls.length) (u : UsedNonce) :
    u ∈ (h.verifier n).used ↔ ∃ j, j.val < n ∧ h.Live n j ∧ u = (h.call j).used := by
  induction n generalizing u with
  | zero => simp [verifier, Verifier.new]
  | succ n ih =>
    have hi := ih (by omega)
    let i : Fin h.calls.length := ⟨n, hn⟩
    have hnext : u ∈ (h.verifier (n + 1)).used ↔
        (u ∈ (h.verifier n).used ∧
          (h.Passes i → (h.call i).now.toNat - u.timestamp.toNat ≤ h.maxSkew)) ∨
        (h.Accepted i ∧ u = (h.call i).used) := by
      have hm := Verifier.mem_next_iff (h.verifier n) (h.call i) u
      rw [verifier_secret, verifier_maxSkew] at hm
      rw [h.verifier_succ i]
      exact hm
    rw [hnext, hi]
    constructor
    · rintro (⟨⟨j, hj, hl, rfl⟩, hold⟩ | ⟨ha, rfl⟩)
      · exact ⟨j, by omega, (h.live_succ (i := i) hj).mpr ⟨hl, hold⟩, rfl⟩
      · exact ⟨i, Nat.lt_succ_self n, h.live_self.mpr ha, rfl⟩
    · rintro ⟨j, hj, hl, rfl⟩
      rcases Nat.lt_succ_iff_lt_or_eq.mp hj with hlt | heq
      · left
        have hs := (h.live_succ (i := i) hlt).mp hl
        exact ⟨⟨j, hlt, hs.1, rfl⟩, hs.2⟩
      · right
        have hji : j = i := Fin.ext heq
        exact ⟨hji ▸ hl.1, by rw [hji]⟩

theorem repeats_iff {i : Fin h.calls.length} (hp : h.Passes i) :
    (h.verifier i).Repeats (h.call i) ↔
      ∃ j < i, h.Live (i + 1) j ∧ (h.call j).key = (h.call i).key := by
  unfold Verifier.Repeats
  rw [verifier_maxSkew]
  constructor
  · rintro ⟨u, hu, hold, hk⟩
    obtain ⟨j, hj, hl, rfl⟩ := (h.mem_verifier_iff i.isLt.le u).mp hu
    exact ⟨j, hj, (h.live_succ hj).mpr ⟨hl, fun _ => hold⟩, hk⟩
  · rintro ⟨j, hj, hl, hk⟩
    have hs := (h.live_succ hj).mp hl
    exact ⟨(h.call j).used, (h.mem_verifier_iff i.isLt.le _).mpr ⟨j, hj, hs.1, rfl⟩, hs.2 hp, hk⟩

open Classical in
theorem answer_eq (i : Fin h.calls.length) :
    h.answer i =
      if ¬ (h.call i).Authentic h.secret then .error .badTag
      else if h.maxSkew < (h.call i).distance then .error (.expired (h.call i).distance)
      else if ∃ j < i, h.Live (i + 1) j ∧ (h.call j).key = (h.call i).key then .error .replay
      else .ok () := by
  have hv := Verifier.answer_eq (h.verifier i) (h.call i)
  rw [verifier_secret, verifier_maxSkew] at hv
  rw [answer, hv]
  by_cases ha : (h.call i).Authentic h.secret
  · by_cases hd : h.maxSkew < (h.call i).distance
    · simp only [ha, hd, not_true_eq_false, if_false, if_true]
    · simp only [ha, hd, not_true_eq_false, if_false, h.repeats_iff ⟨ha, not_lt.mp hd⟩]
  · simp only [ha, not_false_eq_true, if_true]

theorem accepted_iff (i : Fin h.calls.length) :
    h.Accepted i ↔ h.Passes i ∧
      ¬ ∃ j < i, h.Live (i + 1) j ∧ (h.call j).key = (h.call i).key := by
  have hv := Verifier.answer_eq_ok_iff (h.verifier i) (h.call i)
  rw [verifier_secret, verifier_maxSkew] at hv
  exact hv.trans (and_congr_right fun hp => not_congr (h.repeats_iff hp))

/-- As many nonces are held as there are live nonces. -/
theorem used_length {n : ℕ} (hn : n ≤ h.calls.length) :
    (h.verifier n).used.length =
      {key | ∃ j, j.val < n ∧ h.Live n j ∧ (h.call j).key = key}.ncard := by
  have hset : {key | ∃ j, j.val < n ∧ h.Live n j ∧ (h.call j).key = key} =
      ↑((h.verifier n).used.map UsedNonce.key).toFinset := by
    ext key
    simp only [Set.mem_ofPred_eq, List.coe_toFinset, List.mem_map]
    constructor
    · rintro ⟨j, hj, hl, rfl⟩
      exact ⟨(h.call j).used, (h.mem_verifier_iff hn _).mpr ⟨j, hj, hl, rfl⟩, rfl⟩
    · rintro ⟨u, hu, rfl⟩
      obtain ⟨j, hj, hl, rfl⟩ := (h.mem_verifier_iff hn u).mp hu
      exact ⟨j, hj, hl, rfl⟩
  rw [hset, Set.ncard_coe_finset, List.toFinset_card_of_nodup (h.verifier_distinct n),
    List.length_map]

/-- Under a clock that never goes back, a token that was accepted stays live for as long as
its timestamp lets it pass. -/
theorem not_accepted_again (hclock : Monotone fun i => (h.call i).now.toNat)
    {i j : Fin h.calls.length} (hji : j < i) (hj : h.Accepted j)
    (hk : (h.call j).key = (h.call i).key)
    (ht : (h.call j).timestamp = (h.call i).timestamp) : ¬ h.Accepted i := by
  intro hi
  obtain ⟨hp, hnone⟩ := (h.accepted_iff i).mp hi
  refine hnone ⟨j, hji, ⟨hj, ?_⟩, hk⟩
  intro k _ hki _
  have hnow : (h.call k).now.toNat ≤ (h.call i).now.toNat :=
    hclock (Fin.le_def.mpr (Nat.lt_succ_iff.mp hki))
  have hskew := hp.2
  unfold Call.distance at hskew
  rw [ht]
  omega

open Classical in
/-- The history of a verifier decides each of its answers and how many nonces it holds, and
under a clock that never goes back no token is accepted twice. -/
theorem answers_and_nonces (h : History) :
    (∀ i, h.answer i =
      if ¬ (h.call i).Authentic h.secret then .error .badTag
      else if h.maxSkew < (h.call i).distance then .error (.expired (h.call i).distance)
      else if ∃ j < i, h.Live (i + 1) j ∧ (h.call j).key = (h.call i).key then .error .replay
      else .ok ()) ∧
    (∀ i : Fin h.calls.length, (h.verifier (i + 1)).used.length =
      {key | ∃ j ≤ i, h.Live (i + 1) j ∧ (h.call j).key = key}.ncard) ∧
    ((Monotone fun i => (h.call i).now.toNat) → ∀ i j, h.Accepted i → h.Accepted j →
      (h.call i).key = (h.call j).key → (h.call i).timestamp = (h.call j).timestamp → i = j) := by
  refine ⟨h.answer_eq, ?_, ?_⟩
  · intro i
    rw [h.used_length (Nat.succ_le_of_lt i.isLt)]
    congr 1
    ext key
    simp only [Fin.le_def, Nat.lt_succ_iff, Set.mem_ofPred_eq]
  · intro hclock i j hi hj hk ht
    rcases lt_trichotomy i j with hij | rfl | hji
    · exact absurd hj (h.not_accepted_again hclock hij hi hk ht)
    · rfl
    · exact absurd hi (h.not_accepted_again hclock hji hj hk.symm ht.symm)

/-- One token, presented at its own time, when it may last be presented, and after that. -/
def oneToken : History :=
  let token := Claim.sign [1, 2, 3] ⟨"call", "client", 1000, [7]⟩
  ⟨[1, 2, 3], 30000, [⟨token, 1000⟩, ⟨token, 31000⟩, ⟨token, 31001⟩]⟩

theorem answers_to_one_token :
    oneToken.answer ⟨0, by decide⟩ = .ok () ∧
    oneToken.answer ⟨1, by decide⟩ = .error .replay ∧
    oneToken.answer ⟨2, by decide⟩ = .error (.expired 30001) := by
  obtain ⟨hanswer, -, -⟩ := answers_and_nonces oneToken
  have hauthentic : ∀ i, (oneToken.call i).Authentic oneToken.secret := by
    intro i
    fin_cases i <;> rfl
  have hfirst : oneToken.answer ⟨0, by decide⟩ = .ok () := by
    rw [hanswer, if_neg (not_not.mpr (hauthentic _)), if_neg (by decide), if_neg]
    rintro ⟨j, hj, -⟩
    exact absurd hj (Nat.not_lt_zero _)
  refine ⟨hfirst, ?_, ?_⟩
  · rw [hanswer, if_neg (not_not.mpr (hauthentic _)), if_neg (by decide), if_pos]
    refine ⟨⟨0, by decide⟩, by decide, ⟨hfirst, ?_⟩, rfl⟩
    intro k hk hk' _
    have hone : k = ⟨1, by decide⟩ := by
      apply Fin.ext
      exact le_antisymm (Nat.lt_succ_iff.mp hk') hk
    subst hone
    decide
  · rw [hanswer, if_neg (not_not.mpr (hauthentic _)), if_pos (by decide)]
    rfl

end History
end Conformance.ClientToken
