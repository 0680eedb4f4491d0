import Conformance.KeySchedule.Derivation
import Conformance.Proofs.Bytes

/-!
# Key and vector of a media frame

Within a media epoch the key of a frame depends on its sequence number alone, and
the initialization vector must tell frames of one number apart. It is a digest of
the ids run together, so it tells apart what the ids spell in a row, and two frames
whose ids are cut out of one text at different places get one key and one vector.
-/
namespace Conformance.KeySchedule

namespace Frame

theorem frameKey_eq (epochKey : Bytes) (frame : Frame) :
    frameKey epochKey frame.sequence =
      deriveKey (frame.keyInput epochKey).secret (some (frame.keyInput epochKey).salt)
        (frame.keyInput epochKey).label :=
  rfl

/-- In a media epoch two frames get the same input for their key, and the same one for the digest
that their initialization vectors are taken from. -/
def SharesInputs (epochKey : Bytes) (a b : Frame) : Prop :=
  a.keyInput epochKey = b.keyInput epochKey ∧ a.identifier = b.identifier

variable {a b : Frame}

theorem SharesInputs.key_and_iv_eq {epochKey : Bytes} (h : SharesInputs epochKey a b) :
    frameKey epochKey a.sequence = frameKey epochKey b.sequence ∧ a.iv = b.iv := by
  obtain ⟨hkey, hidentifier⟩ := h
  constructor
  · rw [frameKey_eq, frameKey_eq, hkey]
  · rw [iv, iv, hidentifier]

theorem keyInput_eq_iff (epochKey : Bytes) :
    a.keyInput epochKey = b.keyInput epochKey ↔ a.sequence = b.sequence := by
  simp [keyInput, frameKeyInput, frameSalt, Bytes.ofUInt64_injective.eq_iff]

theorem identifier_eq (frame : Frame) :
    frame.identifier =
      .ofString (frame.callId ++ (frame.participantId ++ frame.streamId))
        ++ .ofUInt64 frame.sequence := by
  simp only [identifier, Bytes.ofString_append, List.append_assoc]

theorem identifier_eq_iff (hcall : a.callId = b.callId) :
    a.identifier = b.identifier ↔
      a.participantId ++ a.streamId = b.participantId ++ b.streamId ∧
        a.sequence = b.sequence := by
  rw [identifier_eq, identifier_eq, Bytes.ofString_append_ofUInt64_inj, hcall,
    String.append_right_inj]

/-- Of two ids in a row each is known if the length of one is. -/
theorem eq_of_run_together {s t s' t' : String} (h : s ++ t = s' ++ t')
    (hsize : s.utf8ByteSize = s'.utf8ByteSize ∨ t.utf8ByteSize = t'.utf8ByteSize) :
    s = s' ∧ t = t' := by
  have hlength : ∀ text : String, (Bytes.ofString text).length = text.utf8ByteSize := fun _ => rfl
  have hbytes := congrArg Bytes.ofString h
  rw [Bytes.ofString_append, Bytes.ofString_append] at hbytes
  have hparts : Bytes.ofString s = Bytes.ofString s' ∧ Bytes.ofString t = Bytes.ofString t' := by
    rcases hsize with hfirst | hsecond
    · apply List.append_inj hbytes
      rw [hlength, hlength, hfirst]
    · apply List.append_inj' hbytes
      rw [hlength, hlength, hsecond]
  exact ⟨Bytes.ofString_injective hparts.1, Bytes.ofString_injective hparts.2⟩

theorem sharesInputs_iff (epochKey : Bytes) (hcall : a.callId = b.callId) :
    SharesInputs epochKey a b ↔
      a.sequence = b.sequence ∧
        a.participantId ++ a.streamId = b.participantId ++ b.streamId := by
  rw [SharesInputs, keyInput_eq_iff, identifier_eq_iff hcall]
  constructor
  · rintro ⟨hsequence, hids, -⟩
    exact ⟨hsequence, hids⟩
  · rintro ⟨hsequence, hids⟩
    exact ⟨hsequence, hids, hsequence⟩

/-- Participant `user1` with the stream `23`. -/
def cutEarly : Frame := ⟨"call", "user1", "23", 7⟩

/-- Participant `user12` with the stream `3`. -/
def cutLate : Frame := ⟨"call", "user12", "3", 7⟩

/-- Frames of two participants get one key and one initialization vector. -/
theorem cut_elsewhere_shares_inputs :
    cutEarly.callId = cutLate.callId ∧ cutEarly ≠ cutLate ∧
    SharesInputs (mediaEpochKey [1, 2, 3] 5) cutEarly cutLate ∧
    frameKey (mediaEpochKey [1, 2, 3] 5) cutEarly.sequence =
      frameKey (mediaEpochKey [1, 2, 3] 5) cutLate.sequence ∧
    cutEarly.iv = cutLate.iv := by
  have hshares : SharesInputs (mediaEpochKey [1, 2, 3] 5) cutEarly cutLate :=
    (sharesInputs_iff _ rfl).mpr ⟨rfl, by decide⟩
  exact ⟨rfl, by decide, hshares, hshares.key_and_iv_eq⟩

/-- In one media epoch and one call, two frames get the same input for their key and the same one
for their initialization vector exactly when they have one sequence number and their ids run
together to one text; the key alone tells sequence numbers apart and nothing else. Two different
frames never share both if the ids of the participants are equally long, or those of the
streams. Key and vector are made of these inputs, so frames that share both have one key and one
vector. -/
theorem shares_inputs_iff_run_together (epochKey : Bytes) (a b : Frame)
    (hcall : a.callId = b.callId) :
    (∀ frame : Frame,
      frameKey epochKey frame.sequence =
        deriveKey (frame.keyInput epochKey).secret (some (frame.keyInput epochKey).salt)
          (frame.keyInput epochKey).label ∧
      frame.iv = (Sha256.digest frame.identifier).take 12) ∧
    (SharesInputs epochKey a b →
      frameKey epochKey a.sequence = frameKey epochKey b.sequence ∧ a.iv = b.iv) ∧
    (SharesInputs epochKey a b ↔
      a.sequence = b.sequence ∧
        a.participantId ++ a.streamId = b.participantId ++ b.streamId) ∧
    (a.keyInput epochKey = b.keyInput epochKey ↔ a.sequence = b.sequence) ∧
    (a ≠ b → a.participantId.utf8ByteSize = b.participantId.utf8ByteSize ∨
        a.streamId.utf8ByteSize = b.streamId.utf8ByteSize →
      ¬ SharesInputs epochKey a b) := by
  refine ⟨fun frame => ⟨frameKey_eq epochKey frame, rfl⟩, SharesInputs.key_and_iv_eq,
    sharesInputs_iff epochKey hcall, keyInput_eq_iff epochKey, ?_⟩
  intro hne hsize hshares
  obtain ⟨hsequence, hids⟩ := (sharesInputs_iff epochKey hcall).mp hshares
  obtain ⟨hparticipant, hstream⟩ := eq_of_run_together hids hsize
  apply hne
  cases a
  cases b
  rw [Frame.mk.injEq]
  exact ⟨hcall, hparticipant, hstream, hsequence⟩

/-- The frames of two participants whose ids are equally long. -/
theorem alice_and_carol_share_no_inputs :
    let alice : Frame := ⟨"call", "alice", "video", 7⟩
    let carol : Frame := ⟨"call", "carol", "video", 7⟩
    alice.callId = carol.callId ∧ alice ≠ carol ∧
    alice.participantId.utf8ByteSize = carol.participantId.utf8ByteSize ∧
    alice.keyInput [] = carol.keyInput [] ∧ ¬ SharesInputs [] alice carol ∧
    cutEarly.callId = cutLate.callId ∧ SharesInputs [] cutEarly cutLate ∧
    frameKey [] cutEarly.sequence = frameKey [] cutLate.sequence ∧ cutEarly.iv = cutLate.iv := by
  intro alice carol
  obtain ⟨-, -, -, hkey, hapart⟩ := shares_inputs_iff_run_together [] alice carol rfl
  obtain ⟨-, hsame, hcut, -, -⟩ := shares_inputs_iff_run_together [] cutEarly cutLate rfl
  have hne : alice ≠ carol := by decide
  have hshares : SharesInputs [] cutEarly cutLate := hcut.mpr ⟨rfl, by decide⟩
  exact ⟨rfl, hne, rfl, hkey.mpr rfl, hapart hne (.inl rfl), rfl, hshares, hsame hshares⟩

end Frame
end Conformance.KeySchedule
