import Conformance.Proofs.Bytes
import Conformance.Proofs.ClientToken.History
import Mathlib.Tactic

/-!
# What a tag is given for

A tag is given for the fields of a token run together, and each client has a key of
its own. Two claims of a client have one content exactly if they are equal, or the
call id of one begins that of the other and the fields after it make up the
difference. Then the tag of either is a tag of both; otherwise a verifier refuses
either claim under the tag of the other, as far as digests do not collide.
-/
namespace Conformance.ClientToken
open Conformance

namespace Claim

/-- What follows the call id in the content. -/
def rest (claim : Claim) : Bytes :=
  .ofString claim.clientId ++ .ofUInt64 claim.timestamp ++ claim.nonce

/-- The claims have one content, cut at different places: some of what follows the first call id
belongs to the second one. -/
def CutBefore (a b : Claim) : Prop :=
  ∃ moved ≠ [], Bytes.ofString b.callId = Bytes.ofString a.callId ++ moved ∧ a.rest = moved ++ b.rest

/-- The ids hold no zero byte, and the timestamp begins with one. -/
structure Ordinary (claim : Claim) : Prop where
  callId : 0 ∉ Bytes.ofString claim.callId
  clientId : 0 ∉ Bytes.ofString claim.clientId
  timestamp : claim.timestamp.toNat < 2 ^ 56

theorem content_eq (claim : Claim) : claim.content = .ofString claim.callId ++ claim.rest := by
  simp only [content, rest, List.append_assoc]

section
variable {a b : Claim} (hclient : a.clientId = b.clientId)
include hclient

theorem rest_inj (h : a.rest = b.rest) : a.timestamp = b.timestamp ∧ a.nonce = b.nonce := by
  have hwidth : (Bytes.ofUInt64 a.timestamp).length = (Bytes.ofUInt64 b.timestamp).length := by
    simp [Bytes.ofUInt64]
  rw [rest, rest, hclient, List.append_assoc, List.append_assoc] at h
  obtain ⟨htimestamp, hnonce⟩ := List.append_inj (List.append_cancel_left h) hwidth
  exact ⟨Bytes.ofUInt64_injective htimestamp, hnonce⟩

theorem eq_of_content_eq (hcall : a.callId = b.callId) (h : a.content = b.content) : a = b := by
  rw [content_eq, content_eq, hcall] at h
  obtain ⟨htimestamp, hnonce⟩ := rest_inj hclient (List.append_cancel_left h)
  cases a
  cases b
  rw [Claim.mk.injEq]
  exact ⟨hcall, hclient, htimestamp, hnonce⟩

theorem content_eq_iff : a.content = b.content ↔ a = b ∨ a.CutBefore b ∨ b.CutBefore a := by
  constructor
  · intro h
    by_cases hcall : a.callId = b.callId
    · exact .inl (eq_of_content_eq hclient hcall h)
    · have hids : Bytes.ofString a.callId ≠ .ofString b.callId :=
        fun heq => hcall (Bytes.ofString_injective heq)
      rw [content_eq, content_eq, List.append_eq_append_iff] at h
      rcases h with ⟨moved, hlonger, hrest⟩ | ⟨moved, hlonger, hrest⟩
      · refine .inr (.inl ⟨moved, ?_, hlonger, hrest⟩)
        rintro rfl
        exact hids (by rw [hlonger, List.append_nil])
      · refine .inr (.inr ⟨moved, ?_, hlonger, hrest⟩)
        rintro rfl
        exact hids (by rw [hlonger, List.append_nil])
  · rintro (rfl | ⟨moved, -, hlonger, hrest⟩ | ⟨moved, -, hlonger, hrest⟩)
    · rfl
    · rw [content_eq, content_eq, hlonger, hrest, List.append_assoc]
    · rw [content_eq, content_eq, hlonger, hrest, List.append_assoc]

theorem eq_of_content_eq_of_length (h : a.content = b.content)
    (hlength : a.callId.utf8ByteSize = b.callId.utf8ByteSize ∨
      a.nonce.length = b.nonce.length) : a = b := by
  have hsize : ∀ s : String, (Bytes.ofString s).length = s.utf8ByteSize := fun _ => rfl
  have htotal := congrArg List.length h
  simp only [content, List.length_append, hsize, hclient, Bytes.ofUInt64,
    Bytes.length_ofNat] at htotal
  have hcallLength : (Bytes.ofString a.callId).length = (Bytes.ofString b.callId).length := by
    rw [hsize, hsize]
    omega
  have hids : Bytes.ofString a.callId = .ofString b.callId := by
    rw [content_eq, content_eq] at h
    exact (List.append_inj h hcallLength).1
  exact eq_of_content_eq hclient (Bytes.ofString_injective hids) h

omit hclient in
/-- The ids of an ordinary claim end where the first zero byte of its content stands. -/
theorem Ordinary.takeWhile_content (h : a.Ordinary) :
    a.content.takeWhile (· ≠ 0) = Bytes.ofString a.callId ++ Bytes.ofString a.clientId := by
  have hids : ∀ byte ∈ Bytes.ofString a.callId ++ Bytes.ofString a.clientId,
      decide (byte ≠ 0) = true := by
    intro byte hbyte
    rw [decide_eq_true_iff]
    rintro rfl
    exact (List.mem_append.mp hbyte).elim h.callId h.clientId
  have hstamp : Bytes.ofUInt64 a.timestamp = 0 :: Bytes.ofNat 7 a.timestamp.toNat :=
    Bytes.ofNat_succ_of_lt h.timestamp
  rw [content, hstamp, List.append_assoc, List.takeWhile_append_of_pos hids]
  simp

theorem eq_of_content_eq_of_ordinary (ha : a.Ordinary) (hb : b.Ordinary)
    (h : a.content = b.content) : a = b := by
  have hids := ha.takeWhile_content
  rw [h, hb.takeWhile_content, hclient] at hids
  have hcall : Bytes.ofString b.callId = Bytes.ofString a.callId := List.append_cancel_right hids
  exact eq_of_content_eq hclient (Bytes.ofString_injective hcall).symm h

end

/-- The claim under the tag that was given for another one. -/
def borrow (secret : Bytes) (lender claim : Claim) : Token :=
  ⟨claim, (lender.sign secret).tag⟩

section
variable {a b : Claim} (hclient : a.clientId = b.clientId) (secret : Bytes)
include hclient

/-- A claim of the same content has the same tag. -/
theorem borrow_eq_sign (h : a.content = b.content) : borrow secret a b = b.sign secret := by
  rw [borrow, sign, sign, tag, tag, h, hclient]

theorem authentic_borrow_iff (now : UInt64) :
    Call.Authentic secret ⟨borrow secret a b, now⟩ ↔
      Hmac.digest (clientKey secret a.clientId) a.content =
        Hmac.digest (clientKey secret a.clientId) b.content := by
  rw [hclient, Call.Authentic, borrow, sign, tag, tag, hclient]

end
end Claim

namespace Verifier

theorem answer_eq_badTag_iff (v : Verifier) (call : Call) :
    v.answer call = .error .badTag ↔ ¬ call.Authentic v.secret := by
  unfold answer
  rcases v.verify_cases call with ⟨-, h⟩ | ⟨hp, -, h⟩ | ⟨hp, -, h⟩
  · by_cases ha : call.Authentic v.secret <;> simp [h, ha]
  · simp [h, hp.1]
  · simp [h, hp.1]

end Verifier

namespace Claim

/-- A verifier that accepts a claim accepts every other one of the same content under its tag. -/
theorem new_accepts_both {a b : Claim} (hclient : a.clientId = b.clientId) (hne : a ≠ b)
    (hcontent : a.content = b.content) (secret : Bytes) (maxSkew : ℕ) :
    (Verifier.new secret maxSkew).answer ⟨a.sign secret, a.timestamp⟩ = .ok () ∧
    ((Verifier.new secret maxSkew).next ⟨a.sign secret, a.timestamp⟩).answer
      ⟨borrow secret a b, b.timestamp⟩ = .ok () := by
  have hpasses (claim : Claim) : Call.Passes secret maxSkew ⟨claim.sign secret, claim.timestamp⟩ :=
    ⟨rfl, by simp [Call.distance, Call.timestamp, sign]⟩
  have hnonce : a.nonce ≠ b.nonce := fun h =>
    hne (eq_of_content_eq_of_length hclient hcontent (.inr (congrArg List.length h)))
  constructor
  · exact (Verifier.answer_eq_ok_iff _ _).mpr ⟨hpasses a, fun ⟨_, hu, _⟩ => List.not_mem_nil hu⟩
  · rw [borrow_eq_sign hclient secret hcontent, Verifier.answer_eq_ok_iff, Verifier.next_secret,
      Verifier.next_maxSkew]
    refine ⟨hpasses b, ?_⟩
    rintro ⟨u, hu, -, hkey⟩
    rcases (Verifier.mem_next_iff _ _ u).mp hu with ⟨hu, -⟩ | ⟨-, rfl⟩
    · exact List.not_mem_nil hu
    · exact hnonce (congrArg Prod.snd hkey)

/-- The timestamp spells eight times the letter of the client's id. -/
def spelled (callId : String) (nonce : Bytes) : Claim :=
  ⟨callId, "a", 0x6161616161616161, nonce⟩

theorem content_spelled : (spelled "call" [0x61, 1]).content = (spelled "calla" [1]).content := by
  decide

/-- One verifier accepts two tokens of a client under one tag, which was given for the first. -/
theorem tag_accepted_for_both :
    let early := spelled "call" [0x61, 1]
    let late := spelled "calla" [1]
    let v := Verifier.new [1, 2, 3] 1000
    early ≠ late ∧ early.clientId = late.clientId ∧ early.content = late.content ∧
    v.answer ⟨early.sign [1, 2, 3], early.timestamp⟩ = .ok () ∧
    (v.next ⟨early.sign [1, 2, 3], early.timestamp⟩).answer
      ⟨borrow [1, 2, 3] early late, late.timestamp⟩ = .ok () := by
  intro early late v
  have hne : early ≠ late := by decide
  have hclient : early.clientId = late.clientId := rfl
  obtain ⟨hfirst, hsecond⟩ := new_accepts_both hclient hne content_spelled [1, 2, 3] 1000
  exact ⟨hne, hclient, content_spelled, hfirst, hsecond⟩

/-- Two claims of a client have one content exactly if they are equal or cut the one content at
different places. So claims that differ have different contents if their call ids or their nonces
are equally long, or if they are ordinary. If the digests of the two contents do not collide, a
verifier finds the tag of one bad for the other exactly if the contents differ; if they do not, the
tag of one is the tag of the other. -/
theorem borrowed_tag_bad_iff (a b : Claim) (hclient : a.clientId = b.clientId) :
    (a.content = b.content ↔ a = b ∨ a.CutBefore b ∨ b.CutBefore a) ∧
    (a ≠ b → a.callId.utf8ByteSize = b.callId.utf8ByteSize ∨ a.nonce.length = b.nonce.length →
      a.content ≠ b.content) ∧
    (a ≠ b → a.Ordinary → b.Ordinary → a.content ≠ b.content) ∧
    ∀ (v : Verifier) (now : UInt64),
      ((Hmac.digest (clientKey v.secret a.clientId) a.content =
          Hmac.digest (clientKey v.secret a.clientId) b.content → a.content = b.content) →
        (v.answer ⟨borrow v.secret a b, now⟩ = .error .badTag ↔ a.content ≠ b.content)) ∧
      (a.content = b.content → borrow v.secret a b = b.sign v.secret) := by
  refine ⟨content_eq_iff hclient, fun hne hlength h => ?_, fun hne ha hb h => ?_, fun v now =>
    ⟨fun hcollide => ?_, borrow_eq_sign hclient v.secret⟩⟩
  · exact hne (eq_of_content_eq_of_length hclient h hlength)
  · exact hne (eq_of_content_eq_of_ordinary hclient ha hb h)
  · rw [v.answer_eq_badTag_iff, authentic_borrow_iff hclient v.secret now]
    exact not_congr ⟨hcollide, fun h => by rw [h]⟩

/-- A claim that alice makes ten seconds after the clock was started. -/
def alices (callId : String) (nonce : Bytes) : Claim :=
  ⟨callId, "alice", 10000, nonce⟩

theorem alices_tag_bad_for_other_call :
    let first := alices "call" [1]
    let second := alices "another" [1, 2]
    first.clientId = second.clientId ∧ first ≠ second ∧ first.Ordinary ∧ second.Ordinary ∧
    first.content ≠ second.content ∧
    (Verifier.new [1, 2, 3] 1000).answer ⟨borrow [1, 2, 3] first second, 10000⟩ = .error .badTag ∧
    (alices "ring" [1, 2]).content ≠ first.content ∧
    borrow [1, 2, 3] (spelled "call" [0x61, 1]) (spelled "calla" [1]) =
      (spelled "calla" [1]).sign [1, 2, 3] := by
  intro first second
  have hne : first ≠ second := by decide
  have halice : 0 ∉ Bytes.ofString "alice" := by decide
  have htime : (10000 : UInt64).toNat < 2 ^ 56 := by decide
  have hordinary (callId : String) (nonce : Bytes) (hcall : 0 ∉ Bytes.ofString callId) :
      (alices callId nonce).Ordinary := ⟨hcall, halice, htime⟩
  have hfirst : first.Ordinary := hordinary _ _ (by decide)
  have hsecond : second.Ordinary := hordinary _ _ (by decide)
  have hdigests : Hmac.digest (clientKey [1, 2, 3] first.clientId) first.content ≠
      Hmac.digest (clientKey [1, 2, 3] first.clientId) second.content := by decide +kernel
  obtain ⟨-, -, hapart, hverify⟩ := borrowed_tag_bad_iff first second rfl
  have hcontent := hapart hne hfirst hsecond
  refine ⟨rfl, hne, hfirst, hsecond, hcontent, ?_, ?_, ?_⟩
  · exact ((hverify (.new [1, 2, 3] 1000) 10000).1 fun h => absurd h hdigests).mpr hcontent
  · exact (borrowed_tag_bad_iff (alices "ring" [1, 2]) first rfl).2.1 (by decide) (.inl rfl)
  · exact ((borrowed_tag_bad_iff (spelled "call" [0x61, 1]) (spelled "calla" [1]) rfl).2.2.2
      (.new [1, 2, 3] 1000) 0).2 content_spelled

end Claim
end Conformance.ClientToken
