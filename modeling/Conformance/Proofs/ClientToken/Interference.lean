import Conformance.Proofs.ClientToken.History

/-!
# Calls that leave others alone

A refused call adds no nonce, so it never stands in the way of a later one. Under
a clock that never goes back, what a client is answered depends on its own
accepted calls only: all others can be deleted from a history.
-/
namespace Conformance.ClientToken
open Conformance

def Call.client (call : Call) : String := call.token.claim.clientId

theorem Call.client_eq_of_key_eq {a b : Call} (h : a.key = b.key) : a.client = b.client :=
  congrArg Prod.fst h

namespace Verifier

variable {v : Verifier} {refused : Call} (h : v.answer refused ≠ .ok ())
include h

/-- A repeated nonce lets go of what is too old; any other refusal changes nothing. -/
theorem next_of_refused :
    (v.answer refused = .error .replay ∧ v.next refused = v.evict refused.now) ∨
    (v.answer refused ≠ .error .replay ∧ v.next refused = v) := by
  unfold answer next at *
  rcases v.verify_cases refused with ⟨-, hv⟩ | ⟨-, -, hv⟩ | ⟨-, -, hv⟩
  · right
    rw [hv]
    refine ⟨fun hreplay => ?_, rfl⟩
    split at hreplay <;> cases hreplay
  · left
    rw [hv]
    exact ⟨rfl, rfl⟩
  · rw [hv] at h
    exact absurd rfl h

theorem used_next_sublist : (v.next refused).used.Sublist v.used := by
  rcases next_of_refused h with ⟨-, hnext⟩ | ⟨-, hnext⟩
  · rw [hnext]
    exact List.filter_sublist
  · rw [hnext]

/-- What would have been accepted is accepted after a refused call as well. -/
theorem answer_after_refused {call : Call} (hcall : v.answer call = .ok ()) :
    (v.next refused).answer call = .ok () := by
  rw [answer_eq_ok_iff] at hcall
  rw [answer_eq_ok_iff, next_secret, next_maxSkew]
  refine ⟨hcall.1, ?_⟩
  rintro ⟨u, hu, hold, hkey⟩
  rw [next_maxSkew] at hold
  exact hcall.2 ⟨u, (used_next_sublist h).subset hu, hold, hkey⟩

end Verifier

namespace History

variable (h : History)

theorem answer_of_not_passes {i : Fin h.calls.length} (hp : ¬ h.Passes i) :
    h.answer i = .error (if (h.call i).Authentic h.secret then .expired (h.call i).distance
      else .badTag) := by
  have hcases := (h.verifier i).verify_cases (h.call i)
  rw [verifier_secret, verifier_maxSkew] at hcases
  rcases hcases with ⟨-, hv⟩ | ⟨hp', -⟩ | ⟨hp', -⟩
  · exact congrArg Prod.fst hv
  · exact absurd hp' hp
  · exact absurd hp' hp

theorem answer_of_not_accepted {i : Fin h.calls.length} (hp : h.Passes i) (hi : ¬ h.Accepted i) :
    h.answer i = .error .replay := by
  have hcases := (h.verifier i).verify_cases (h.call i)
  rw [verifier_secret, verifier_maxSkew] at hcases
  rcases hcases with ⟨hp', -⟩ | ⟨-, -, hv⟩ | ⟨-, -, hv⟩
  · exact absurd hp hp'
  · exact congrArg Prod.fst hv
  · exact absurd (congrArg Prod.fst hv) hi

/-- The call `j` was accepted, and its nonce is that of the call `i` and not too old by then. -/
def Precludes (j i : Fin h.calls.length) : Prop :=
  h.Accepted j ∧ (h.call i).now.toNat - (h.call j).timestamp.toNat ≤ h.maxSkew ∧
    (h.call j).key = (h.call i).key

/-- A call that passes reads the latest time so far, so it alone decides which calls are live. -/
theorem live_iff_of_clock (hclock : Monotone fun i => (h.call i).now.toNat)
    {i j : Fin h.calls.length} (hji : j < i) (hi : h.Passes i) :
    h.Live (i + 1) j ↔
      h.Accepted j ∧ (h.call i).now.toNat - (h.call j).timestamp.toNat ≤ h.maxSkew := by
  constructor
  · intro hlive
    exact ⟨hlive.1, hlive.2 i hji (Nat.lt_succ_self i) hi⟩
  · rintro ⟨hj, hold⟩
    refine ⟨hj, fun k _ hk _ => ?_⟩
    have hnow : (h.call k).now.toNat ≤ (h.call i).now.toNat :=
      hclock (Fin.le_def.mpr (Nat.lt_succ_iff.mp hk))
    omega

theorem exists_live_iff_of_clock (hclock : Monotone fun i => (h.call i).now.toNat)
    {i : Fin h.calls.length} (hi : h.Passes i) :
    (∃ j < i, h.Live (i + 1) j ∧ (h.call j).key = (h.call i).key) ↔ ∃ j < i, h.Precludes j i := by
  refine exists_congr fun j => and_congr_right fun hji => ?_
  rw [h.live_iff_of_clock hclock hji hi, Precludes, and_assoc]

variable (deleted : Finset (Fin h.calls.length))

/-- The calls that are left when some are deleted. -/
def remaining : List (Fin h.calls.length) :=
  (List.finRange h.calls.length).filter (· ∉ deleted)

/-- The history without the deleted calls. -/
def without : History :=
  { h with calls := (h.remaining deleted).map h.call }

/-- Where a call that is left stands in the whole history. -/
def origin (i : Fin (h.without deleted).calls.length) : Fin h.calls.length :=
  (h.remaining deleted).get ⟨i, by simpa [without] using i.isLt⟩

theorem call_without (i : Fin (h.without deleted).calls.length) :
    (h.without deleted).call i = h.call (h.origin deleted i) :=
  List.getElem_map h.call

theorem origin_strictMono : StrictMono (h.origin deleted) := by
  have hsorted : (h.remaining deleted).Pairwise (· < ·) := (List.pairwise_lt_finRange _).filter _
  intro i j hij
  exact List.pairwise_iff_getElem.mp hsorted _ _ _ _ hij

theorem exists_origin_eq {j : Fin h.calls.length} (hj : j ∉ deleted) :
    ∃ i, h.origin deleted i = j := by
  have hmem : j ∈ h.remaining deleted := by simpa [remaining] using hj
  obtain ⟨n, hn, heq⟩ := List.getElem_of_mem hmem
  exact ⟨⟨n, by simpa [without] using hn⟩, heq⟩

theorem passes_without (i : Fin (h.without deleted).calls.length) :
    (h.without deleted).Passes i ↔ h.Passes (h.origin deleted i) := by
  unfold Passes
  rw [call_without]
  rfl

theorem clock_without (hclock : Monotone fun i => (h.call i).now.toNat) :
    Monotone fun i => ((h.without deleted).call i).now.toNat := by
  intro i j hij
  simp only [call_without]
  exact hclock ((h.origin_strictMono deleted).monotone hij)

section Client

variable {deleted} {client : String} (hclock : Monotone fun i => (h.call i).now.toNat)
  (hdeleted : ∀ j ∈ deleted, ¬ h.Accepted j ∨ (h.call j).client ≠ client)
include hclock hdeleted

/-- The live calls with the nonce of a call of the client are left, if earlier calls are answered
alike. -/
theorem exists_live_without_iff {i : Fin (h.without deleted).calls.length}
    (hi : ((h.without deleted).call i).client = client)
    (hp : h.Passes (h.origin deleted i))
    (hearlier : ∀ j < i, ((h.without deleted).call j).client = client →
      ((h.without deleted).Accepted j ↔ h.Accepted (h.origin deleted j))) :
    (∃ j < i, (h.without deleted).Live (i + 1) j ∧
      ((h.without deleted).call j).key = ((h.without deleted).call i).key) ↔
    ∃ j < h.origin deleted i, h.Live (h.origin deleted i + 1) j ∧
      (h.call j).key = (h.call (h.origin deleted i)).key := by
  rw [exists_live_iff_of_clock _ (h.clock_without deleted hclock)
    ((h.passes_without deleted i).mpr hp), exists_live_iff_of_clock _ hclock hp]
  unfold Precludes
  simp only [call_without] at hi hearlier ⊢
  constructor
  · rintro ⟨j, hji, hj, hold, hkey⟩
    have hclient := (Call.client_eq_of_key_eq hkey).trans hi
    exact ⟨h.origin deleted j, h.origin_strictMono deleted hji, (hearlier j hji hclient).mp hj,
      hold, hkey⟩
  · rintro ⟨k, hki, hk, hold, hkey⟩
    have hclient := (Call.client_eq_of_key_eq hkey).trans hi
    have hleft : k ∉ deleted := fun hmem =>
      (hdeleted k hmem).elim (fun hnot => hnot hk) fun hother => hother hclient
    obtain ⟨j, rfl⟩ := h.exists_origin_eq deleted hleft
    have hji : j < i := (h.origin_strictMono deleted).lt_iff_lt.mp hki
    exact ⟨j, hji, (hearlier j hji hclient).mpr hk, hold, hkey⟩

theorem accepted_without_iff (i : Fin (h.without deleted).calls.length)
    (hi : ((h.without deleted).call i).client = client) :
    (h.without deleted).Accepted i ↔ h.Accepted (h.origin deleted i) := by
  induction i using WellFoundedLT.induction with
  | ind i ih =>
    rw [accepted_iff, accepted_iff, passes_without]
    exact and_congr_right fun hp => not_congr (h.exists_live_without_iff hclock hdeleted hi hp ih)

/-- No answer to the client changes. -/
theorem answer_without (i : Fin (h.without deleted).calls.length)
    (hi : ((h.without deleted).call i).client = client) :
    (h.without deleted).answer i = h.answer (h.origin deleted i) := by
  have haccepted := h.accepted_without_iff hclock hdeleted i hi
  have hpasses := h.passes_without deleted i
  by_cases hp : h.Passes (h.origin deleted i)
  · by_cases ha : h.Accepted (h.origin deleted i)
    · exact (haccepted.mpr ha).trans ha.symm
    · rw [answer_of_not_accepted _ (hpasses.mpr hp) (mt haccepted.mp ha),
        h.answer_of_not_accepted hp ha]
  · rw [answer_of_not_passes _ (mt hpasses.mp hp), h.answer_of_not_passes hp, call_without]
    rfl

end Client

/-- Under a clock that never goes back, a client is answered alike in a history without refused
calls and calls of others. A call with a wrong tag or a wrong time changes nothing at any time, a
repeated one adds no nonce, and what would have been accepted is accepted after any of them. -/
theorem answers_without_others (h : History) :
    ((Monotone fun i => (h.call i).now.toNat) → ∀ client, ∀ deleted : Finset (Fin h.calls.length),
      (∀ j ∈ deleted, ¬ h.Accepted j ∨ (h.call j).client ≠ client) →
      ∀ i, ((h.without deleted).call i).client = client →
        (h.without deleted).answer i = h.answer (h.origin deleted i)) ∧
    ((Monotone fun i => (h.call i).now.toNat) → ∀ deleted : Finset (Fin h.calls.length),
      (∀ j ∈ deleted, ¬ h.Accepted j) →
      ∀ i, (h.without deleted).answer i = h.answer (h.origin deleted i)) ∧
    ∀ (v : Verifier) (refused : Call),
      (v.answer refused = .error .badTag → v.next refused = v) ∧
      (∀ skew, v.answer refused = .error (.expired skew) → v.next refused = v) ∧
      (v.answer refused = .error .replay → (v.next refused).used.Sublist v.used) ∧
      (v.answer refused ≠ .ok () → ∀ call, v.answer call = .ok () →
        (v.next refused).answer call = .ok ()) := by
  refine ⟨fun hclock client deleted hdeleted i hi => h.answer_without hclock hdeleted i hi,
    fun hclock deleted hdeleted i =>
      h.answer_without hclock (fun j hj => .inl (hdeleted j hj)) i rfl,
    fun v refused => ⟨fun htag => ?_, fun skew htime => ?_, fun hreplay => ?_,
      fun hrefused call hcall => Verifier.answer_after_refused hrefused hcall⟩⟩
  · exact (Verifier.next_of_refused (by simp [htag])).elim
      (fun hother => by cases htag.symm.trans hother.1) And.right
  · exact (Verifier.next_of_refused (by simp [htime])).elim
      (fun hother => by cases htime.symm.trans hother.1) And.right
  · exact Verifier.used_next_sublist (by simp [hreplay])

/-- A token of alice, one of bob, a forgery of alice's next token, a token that is too old, the
first token again, and alice's next token. -/
def mixedCalls : History :=
  let first := Claim.sign [1, 2, 3] ⟨"call", "alice", 1000, [1]⟩
  let next : Claim := ⟨"call", "alice", 1200, [2]⟩
  ⟨[1, 2, 3], 1000, [⟨first, 1000⟩, ⟨Claim.sign [1, 2, 3] ⟨"call", "bob", 1100, [2]⟩, 1100⟩,
    ⟨⟨next, []⟩, 1200⟩, ⟨Claim.sign [1, 2, 3] ⟨"call", "alice", 1, [3]⟩, 1300⟩, ⟨first, 1400⟩,
    ⟨Claim.sign [1, 2, 3] next, 1500⟩]⟩

namespace MixedCalls

def first : Fin mixedCalls.calls.length := ⟨0, by decide⟩
def forged : Fin mixedCalls.calls.length := ⟨2, by decide⟩
def stale : Fin mixedCalls.calls.length := ⟨3, by decide⟩
def repeated : Fin mixedCalls.calls.length := ⟨4, by decide⟩
def last : Fin mixedCalls.calls.length := ⟨5, by decide⟩

theorem forged_not_authentic : ¬ (mixedCalls.call forged).Authentic mixedCalls.secret := by
  intro h
  have hlength := congrArg List.length h
  rw [Claim.tag, Hmac.length_digest] at hlength
  cases hlength

theorem forged_badTag : mixedCalls.answer forged = .error .badTag := by
  rw [mixedCalls.answer_of_not_passes fun hp => forged_not_authentic hp.1,
    if_neg forged_not_authentic]

theorem stale_expired : mixedCalls.answer stale = .error (.expired 1299) := by
  have htag : (mixedCalls.call stale).Authentic mixedCalls.secret := rfl
  have htime : ¬ mixedCalls.Passes stale := fun hp => absurd hp.2 (by decide)
  rw [mixedCalls.answer_of_not_passes htime, if_pos htag]
  rfl

theorem first_accepted : mixedCalls.Accepted first := by
  refine (mixedCalls.accepted_iff _).mpr ⟨⟨rfl, by decide⟩, ?_⟩
  rintro ⟨j, hj, -⟩
  exact absurd hj (Nat.not_lt_zero _)

theorem clock : Monotone fun i => (mixedCalls.call i).now.toNat := by
  decide

theorem repeated_replay : mixedCalls.answer repeated = .error .replay := by
  have hp : mixedCalls.Passes repeated := ⟨rfl, by decide⟩
  refine mixedCalls.answer_of_not_accepted hp fun h => ?_
  refine ((mixedCalls.accepted_iff _).mp h).2 ⟨first, by decide, ?_, rfl⟩
  exact (mixedCalls.live_iff_of_clock clock (by decide) hp).mpr ⟨first_accepted, by decide⟩

theorem last_accepted : mixedCalls.Accepted last := by
  refine (mixedCalls.accepted_iff _).mpr ⟨⟨rfl, by decide⟩, ?_⟩
  rintro ⟨j, hj, hlive, hkey⟩
  have honly : ∀ j < last, (mixedCalls.call j).key = (mixedCalls.call last).key → j = forged := by
    decide
  obtain rfl := honly j hj hkey
  cases hlive.1.symm.trans forged_badTag

/-- All calls but those of alice that are accepted. -/
def others : Finset (Fin mixedCalls.calls.length) := {⟨1, by decide⟩, forged, stale, repeated}

end MixedCalls
open MixedCalls

theorem last_answered_without_others :
    (∃ i, mixedCalls.origin others i = last ∧ (mixedCalls.without others).answer i = .ok ()) ∧
    (∃ i, mixedCalls.origin {forged, stale, repeated} i = last ∧
      (mixedCalls.without {forged, stale, repeated}).answer i = .ok ()) ∧
    (mixedCalls.verifier 2).next (mixedCalls.call forged) = mixedCalls.verifier 2 ∧
    (mixedCalls.verifier 3).next (mixedCalls.call stale) = mixedCalls.verifier 3 ∧
    ((mixedCalls.verifier 4).next (mixedCalls.call repeated)).used.Sublist
      (mixedCalls.verifier 4).used ∧
    ((mixedCalls.verifier 0).next (mixedCalls.call forged)).answer (mixedCalls.call first) =
      .ok () := by
  obtain ⟨hclient, hrefused, hsteps⟩ := answers_without_others mixedCalls
  have hnot : ∀ j ∈ ({forged, stale, repeated} : Finset _), ¬ mixedCalls.Accepted j := by
    intro j hj hok
    simp only [Finset.mem_insert, Finset.mem_singleton] at hj
    rcases hj with rfl | rfl | rfl
    · cases hok.symm.trans forged_badTag
    · cases hok.symm.trans stale_expired
    · cases hok.symm.trans repeated_replay
  have hothers : ∀ j ∈ others, ¬ mixedCalls.Accepted j ∨ (mixedCalls.call j).client ≠ "alice" := by
    intro j hj
    rcases Finset.mem_insert.mp hj with rfl | hj
    · exact .inr (by decide)
    · exact .inl (hnot j hj)
  have hfresh : (mixedCalls.verifier 0).answer (mixedCalls.call forged) ≠ .ok () := fun hok =>
    forged_not_authentic ((Verifier.answer_eq_ok_iff _ _).mp hok).1.1
  refine ⟨⟨⟨1, by decide⟩, rfl, ?_⟩, ⟨⟨2, by decide⟩, rfl, ?_⟩, (hsteps _ _).1 forged_badTag,
    (hsteps _ _).2.1 _ stale_expired, (hsteps _ _).2.2.1 repeated_replay,
    (hsteps _ _).2.2.2 hfresh _ first_accepted⟩
  · exact (hclient clock "alice" others hothers _ rfl).trans last_accepted
  · exact (hrefused clock _ hnot _).trans last_accepted

end History
end Conformance.ClientToken
