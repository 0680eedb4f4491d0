import Conformance.KeySchedule.Vectors
import Conformance.Proofs.KeySchedule.Expansion
import Conformance.Proofs.Report
import Conformance.Proofs.Summary
import Conformance.Proofs.Text.Hex
import Mathlib

/-!
# Key derivation vectors pass on exact outputs

What a vector holds is either an input or an expected output. Its inputs give the
outputs, or none if one of them cannot be read or the derivation is refused. A vector
passes if its inputs give outputs and each of these is the expected one, and otherwise
each output that is not is reported; a length that is to be refused has no outputs and
passes if it is.
-/
namespace Conformance.KeySchedule
open Conformance Text.Hex

/-- An expected output, under the name by which it is reported. -/
structure Output where
  name : String
  text : String

namespace Output

/-- The text is these bytes in hexadecimal digits of either case. -/
def Agrees (o : Output) (bytes : Bytes) : Prop := o.text.toLower = encode bytes

instance (o : Output) (bytes : Bytes) : Decidable (o.Agrees bytes) :=
  inferInstanceAs (Decidable (_ = _))

/-- What is reported of an output that does not agree. -/
def mismatch (o : Output) (bytes : Bytes) : String :=
  s!"{o.name} mismatch: expected {o.text.toLower}, got {encode bytes}"

/-- The comparison of an output with its recomputed bytes. -/
def beside (o : Output) (bytes : Bytes) : Comparison := .ofBytes o.name o.text bytes

theorem map_toLower_of_agrees {outputs : List Output} {actual : List Bytes}
    (h : List.Forall₂ Agrees outputs actual) :
    outputs.map (·.text.toLower) = actual.map encode := by
  rw [← List.forall₂_eq_eq_eq, List.forall₂_map_left_iff, List.forall₂_map_right_iff]
  exact h

theorem beside_agrees (o : Output) (bytes : Bytes) :
    (o.beside bytes).agrees = decide (o.Agrees bytes) := beq_eq_decide _ _

end Output

namespace Case

def outputs : Case → List Output
  | .derive _ _ _ _ okm => [⟨"okm", okm⟩]
  | .x25519 _ _ publicKey shared => [⟨"public_key", publicKey⟩, ⟨"shared_secret", shared⟩]
  | .handshakeSecret _ _ secret => [⟨"handshake_secret", secret⟩]
  | .sessionKeys _ _ encryption authentication nonce =>
    [⟨"enc_key", encryption⟩, ⟨"auth_key", authentication⟩, ⟨"nonce", nonce⟩]
  | .sessionId _ session => [⟨"session_id", session⟩]
  | .ratchet _ messageKey chainKey => [⟨"message_key", messageKey⟩, ⟨"next_chain_key", chainKey⟩]
  | .mediaEpochKey _ _ epochKey => [⟨"epoch_key", epochKey⟩]
  | .frameKey _ _ key => [⟨"frame_key", key⟩]
  | .mediaIv _ iv => [⟨"iv", iv⟩]
  | .clientTag _ _ _ _ _ key tag => [⟨"key", key⟩, ⟨"tag", tag⟩]
  | .invalidLength _ => []

/-- The case with every expected output left blank. -/
def inputs : Case → Case
  | .derive ikm salt label length _ => .derive ikm salt label length ""
  | .x25519 privateKey peerKey _ _ => .x25519 privateKey peerKey "" ""
  | .handshakeSecret classical postQuantum _ => .handshakeSecret classical postQuantum ""
  | .sessionKeys secret session _ _ _ => .sessionKeys secret session "" "" ""
  | .sessionId handshakeHash _ => .sessionId handshakeHash ""
  | .ratchet chainKey _ _ => .ratchet chainKey "" ""
  | .mediaEpochKey mediaSecret epochId _ => .mediaEpochKey mediaSecret epochId ""
  | .frameKey epochKey sequence _ => .frameKey epochKey sequence ""
  | .mediaIv frame _ => .mediaIv frame ""
  | .clientTag secret clientId callId timestamp nonce _ _ =>
    .clientTag secret clientId callId timestamp nonce "" ""
  | .invalidLength length => .invalidLength length

/-- The text is read as so many bytes. -/
def ReadsExactly (size : ℕ) (text : String) (bytes : Bytes) : Prop :=
  read text = .ok bytes ∧ bytes.length = size

/-- Every input is read, nothing is refused, and these are the outputs in their order. -/
def Gives : Case → List Bytes → Prop
  | .derive ikm salt label length _, actual =>
    ∃ salted secret key, Option.Rel (fun text bytes => read text = .ok bytes) salt salted ∧
      read ikm = .ok secret ∧ KeySchedule.derive secret salted (.ofString label) length = .ok key ∧
      actual = [key]
  | .x25519 privateKey peerKey _ _, actual =>
    ∃ own peer shared, ReadsExactly 32 privateKey own ∧ ReadsExactly 32 peerKey peer ∧
      sharedSecret own peer = .ok shared ∧ actual = [X25519.publicKey own, shared]
  | .handshakeSecret classical postQuantum _, actual =>
    ∃ share other secret, read classical = .ok share ∧ read postQuantum = .ok other ∧
      KeySchedule.handshakeSecret share other = .ok secret ∧ actual = [secret]
  | .sessionKeys secret session _ _ _, actual =>
    ∃ root salt, read secret = .ok root ∧ read session = .ok salt ∧
      let keys := KeySchedule.sessionKeys root salt
      actual = [keys.encryption, keys.authentication, keys.nonce]
  | .sessionId handshakeHash _, actual =>
    ∃ hash, read handshakeHash = .ok hash ∧ actual = [KeySchedule.sessionId hash]
  | .ratchet chainKey _ _, actual =>
    ∃ key, read chainKey = .ok key ∧
      actual = [(KeySchedule.ratchet key).messageKey, (KeySchedule.ratchet key).chainKey]
  | .mediaEpochKey mediaSecret epochId _, actual =>
    ∃ secret, read mediaSecret = .ok secret ∧ actual = [KeySchedule.mediaEpochKey secret epochId]
  | .frameKey epochKey sequence _, actual =>
    ∃ key, read epochKey = .ok key ∧ actual = [KeySchedule.frameKey key sequence]
  | .mediaIv frame _, actual => actual = [frame.iv]
  | .clientTag secret clientId callId timestamp nonce _ _, actual =>
    ∃ root fresh, read secret = .ok root ∧ read nonce = .ok fresh ∧
      let key := ClientToken.clientKey root clientId
      actual = [key, ClientToken.Claim.tag key ⟨callId, clientId, timestamp, fresh⟩]
  | .invalidLength length, actual => (length = 0 ∨ 8160 < length) ∧ actual = []

/-- No field is left out of both. -/
theorem eq_of_inputs_of_outputs {case other : Case} (hinputs : case.inputs = other.inputs)
    (houtputs : case.outputs = other.outputs) : case = other := by
  cases case <;> cases other <;> simp_all [inputs, outputs]

theorem gives_inputs (case : Case) : case.inputs.Gives = case.Gives := by
  cases case <;> rfl

theorem Gives.length_eq {case : Case} {actual : List Bytes} (h : case.Gives actual) :
    actual.length = case.outputs.length := by
  cases case with
  | derive => obtain ⟨_, _, _, -, -, -, rfl⟩ := h; rfl
  | x25519 => obtain ⟨_, _, _, -, -, -, rfl⟩ := h; rfl
  | handshakeSecret => obtain ⟨_, _, _, -, -, -, rfl⟩ := h; rfl
  | sessionKeys => obtain ⟨_, _, -, -, rfl⟩ := h; rfl
  | clientTag => obtain ⟨_, _, -, -, rfl⟩ := h; rfl
  | sessionId => obtain ⟨_, -, rfl⟩ := h; rfl
  | ratchet => obtain ⟨_, -, rfl⟩ := h; rfl
  | mediaEpochKey => obtain ⟨_, -, rfl⟩ := h; rfl
  | frameKey => obtain ⟨_, -, rfl⟩ := h; rfl
  | mediaIv => obtain rfl := h; rfl
  | invalidLength => obtain ⟨-, rfl⟩ := h; rfl

/-- What is reported where the inputs give these outputs. -/
def mismatches (case : Case) (actual : List Bytes) : List String :=
  ((case.outputs.zip actual).filter fun (o, bytes) => ¬ o.Agrees bytes).map
    fun (o, bytes) => o.mismatch bytes

theorem mapM_read_eq_ok_iff (salt : Option String) (salted : Option Bytes) :
    salt.mapM read = .ok salted ↔
      Option.Rel (fun text bytes => read text = .ok bytes) salt salted := by
  cases salt with
  | none => cases salted <;> simp [Option.mapM, pure, Except.pure]
  | some text => cases h : read text <;> cases salted <;> simp [Option.mapM, h]

/-- Apart from a length to be refused, a case is compared exactly if its inputs give outputs, each of
these beside the expected one. -/
theorem compare_eq_ok_iff {case : Case} (h : ∀ length, case ≠ .invalidLength length)
    (comparisons : List Comparison) : case.compare = .ok comparisons ↔
      ∃ actual, case.Gives actual ∧ case.outputs.zipWith Output.beside actual = comparisons := by
  cases case with
  | derive =>
    simp only [compare, bind_eq_ok_iff, mapError_eq_ok_iff, mapM_read_eq_ok_iff, pure_eq_ok_iff,
      Gives]
    constructor
    · rintro ⟨salted, hsalt, secret, hsecret, key, hkey, rfl⟩
      exact ⟨_, ⟨salted, secret, key, hsalt, hsecret, hkey, rfl⟩, rfl⟩
    · rintro ⟨_, ⟨salted, secret, key, hsalt, hsecret, hkey, rfl⟩, rfl⟩
      exact ⟨salted, hsalt, secret, hsecret, key, hkey, rfl⟩
  | x25519 =>
    simp only [compare, bind_eq_ok_iff, mapError_eq_ok_iff, readExact_eq_ok_iff, pure_eq_ok_iff,
      Gives]
    constructor
    · rintro ⟨own, hown, peer, hpeer, shared, hshared, rfl⟩
      exact ⟨_, ⟨own, peer, shared, hown, hpeer, hshared, rfl⟩, rfl⟩
    · rintro ⟨_, ⟨own, peer, shared, hown, hpeer, hshared, rfl⟩, rfl⟩
      exact ⟨own, hown, peer, hpeer, shared, hshared, rfl⟩
  | handshakeSecret =>
    simp only [compare, bind_eq_ok_iff, mapError_eq_ok_iff, pure_eq_ok_iff, Gives]
    constructor
    · rintro ⟨share, hshare, other, hother, secret, hsecret, rfl⟩
      exact ⟨_, ⟨share, other, secret, hshare, hother, hsecret, rfl⟩, rfl⟩
    · rintro ⟨_, ⟨share, other, secret, hshare, hother, hsecret, rfl⟩, rfl⟩
      exact ⟨share, hshare, other, hother, secret, hsecret, rfl⟩
  | sessionKeys =>
    simp only [compare, bind_eq_ok_iff, pure_eq_ok_iff, Gives]
    constructor
    · rintro ⟨root, hroot, salt, hsalt, rfl⟩
      exact ⟨_, ⟨root, salt, hroot, hsalt, rfl⟩, rfl⟩
    · rintro ⟨_, ⟨root, salt, hroot, hsalt, rfl⟩, rfl⟩
      exact ⟨root, hroot, salt, hsalt, rfl⟩
  | clientTag =>
    simp only [compare, bind_eq_ok_iff, pure_eq_ok_iff, Gives]
    constructor
    · rintro ⟨root, hroot, fresh, hfresh, rfl⟩
      exact ⟨_, ⟨root, fresh, hroot, hfresh, rfl⟩, rfl⟩
    · rintro ⟨_, ⟨root, fresh, hroot, hfresh, rfl⟩, rfl⟩
      exact ⟨root, hroot, fresh, hfresh, rfl⟩
  | sessionId | ratchet | mediaEpochKey | frameKey =>
    simp only [compare, bind_eq_ok_iff, pure_eq_ok_iff, Gives]
    constructor
    · rintro ⟨secret, hsecret, rfl⟩
      exact ⟨_, ⟨secret, hsecret, rfl⟩, rfl⟩
    · rintro ⟨_, ⟨secret, hsecret, rfl⟩, rfl⟩
      exact ⟨secret, hsecret, rfl⟩
  | mediaIv =>
    simp only [compare, Except.ok.injEq, Gives, exists_eq_left]
    rfl
  | invalidLength length => exact absurd rfl (h length)

/-- What is compared where a length that is to be refused is not. -/
def accepted : Comparison := ⟨"rejection", "Derivation error", "accepted"⟩

theorem compare_invalidLength (length : ℕ) : (invalidLength length).compare =
    .ok (if length = 0 ∨ 8160 < length then [] else [accepted]) := by
  by_cases hrefused : length = 0 ∨ 8160 < length
  · have hderive := (derive_eq_error_iff (.ofString "ikm") none (.ofString "label") length _).mpr
      ⟨hrefused, rfl⟩
    rw [compare, hderive, if_pos hrefused]
  · have hderive := (derive_eq_ok_iff (.ofString "ikm") none (.ofString "label") length _).mpr
      ⟨hrefused, rfl⟩
    rw [compare, hderive, if_neg hrefused]
    rfl

/-- Inputs that give outputs lead to their comparisons. -/
theorem Gives.compare_eq {case : Case} {actual : List Bytes} (h : case.Gives actual) :
    case.compare = .ok (case.outputs.zipWith Output.beside actual) := by
  by_cases hlength : ∃ length, case = .invalidLength length
  · obtain ⟨length, rfl⟩ := hlength
    obtain ⟨hrefused, rfl⟩ := h
    rw [compare_invalidLength, if_pos hrefused]
    rfl
  · exact (compare_eq_ok_iff (fun length heq => hlength ⟨length, heq⟩) _).mpr ⟨actual, h, rfl⟩

/-- Inputs that give none lead to a fault, or to the one comparison of an accepted length. -/
theorem compare_of_not_gives {case : Case} (h : ¬ ∃ actual, case.Gives actual) :
    (∃ fault, case.compare = .error fault) ∨ case.compare = .ok [accepted] := by
  by_cases hlength : ∃ length, case = .invalidLength length
  · obtain ⟨length, rfl⟩ := hlength
    have haccepted : ¬ (length = 0 ∨ 8160 < length) := fun hrefused => h ⟨[], hrefused, rfl⟩
    rw [compare_invalidLength, if_neg haccepted]
    exact .inr rfl
  · left
    cases hcompare : case.compare with
    | error fault => exact ⟨fault, rfl⟩
    | ok comparisons =>
      obtain ⟨actual, hgives, -⟩ :=
        (compare_eq_ok_iff (fun length heq => hlength ⟨length, heq⟩) _).mp hcompare
      exact absurd ⟨actual, hgives⟩ h

end Case

namespace Vector
variable {v : Vector}

theorem report_of_error {fault : Fault} (h : v.2.compare = .error fault) :
    v.report.status = .fail ∧ v.report.failures = [fault.message] := by
  simp only [report, h]
  exact ⟨rfl, rfl⟩

theorem report_of_ok {comparisons : List Comparison} (h : v.2.compare = .ok comparisons) :
    (v.report.status = .pass ↔ ∀ c ∈ comparisons, c.agrees = true) ∧
    v.report.failures = (comparisons.filter fun c => !c.agrees).map Comparison.mismatch := by
  simp only [report, h]
  rw [Report.foldl_check_status_eq_pass_iff, Report.failures_foldl_check]
  exact ⟨and_iff_right rfl, List.nil_append _⟩

theorem report_status_of_gives {actual : List Bytes} (h : v.2.Gives actual) :
    v.report.status = .pass ↔ List.Forall₂ Output.Agrees v.2.outputs actual := by
  rw [(report_of_ok h.compare_eq).1, ← List.map_uncurry_zip_eq_zipWith, List.forall_mem_map,
    List.forall₂_iff_zip, and_iff_right h.length_eq.symm]
  simp only [Prod.forall, Function.uncurry_apply_pair, Output.beside_agrees, decide_eq_true_eq]

theorem report_failures_of_gives {actual : List Bytes} (h : v.2.Gives actual) :
    v.report.failures = v.2.mismatches actual := by
  rw [(report_of_ok h.compare_eq).2, ← List.map_uncurry_zip_eq_zipWith, List.filter_map,
    List.map_map]
  simp only [Function.comp_def, Function.uncurry, Output.beside_agrees, ← decide_not]
  rfl

theorem report_of_not_gives (h : ¬ ∃ actual, v.2.Gives actual) :
    v.report.status = .fail ∧ ∃ failure, v.report.failures = [failure] := by
  rcases Case.compare_of_not_gives h with ⟨fault, hfault⟩ | haccepted
  · exact ⟨(report_of_error hfault).1, _, (report_of_error hfault).2⟩
  · simp only [report, haccepted]
    exact ⟨rfl, _, rfl⟩

theorem report_status_eq_pass_iff : v.report.status = .pass ↔
    ∃ actual, v.2.Gives actual ∧ List.Forall₂ Output.Agrees v.2.outputs actual := by
  constructor
  · intro hpass
    by_cases hgives : ∃ actual, v.2.Gives actual
    · obtain ⟨actual, hactual⟩ := hgives
      exact ⟨actual, hactual, (report_status_of_gives hactual).mp hpass⟩
    · rw [(report_of_not_gives hgives).1] at hpass
      cases hpass
  · rintro ⟨actual, hactual, hagree⟩
    exact (report_status_of_gives hactual).mpr hagree

theorem report_invalidLength_status_eq_pass_iff (id : String) (length : ℕ) :
    (report (id, .invalidLength length)).status = .pass ↔ length = 0 ∨ 8160 < length := by
  rw [report_status_eq_pass_iff]
  constructor
  · rintro ⟨actual, ⟨hrefused, -⟩, -⟩
    exact hrefused
  · intro hrefused
    exact ⟨[], ⟨hrefused, rfl⟩, .nil⟩

/-- Outputs that pass for the same inputs differ in the case of their digits only. -/
theorem outputs_of_passes {w : Vector} (hinputs : v.2.inputs = w.2.inputs)
    (hv : v.report.status = .pass) (hw : w.report.status = .pass) :
    v.2.outputs.map (·.text.toLower) = w.2.outputs.map (·.text.toLower) := by
  obtain ⟨actual, hactual, hagree⟩ := report_status_eq_pass_iff.mp hv
  have hgives : w.2.Gives actual := by
    rw [← Case.gives_inputs, ← hinputs, Case.gives_inputs]
    exact hactual
  have hsame := (report_status_of_gives hgives).mp hw
  rw [Output.map_toLower_of_agrees hagree, Output.map_toLower_of_agrees hsame]

end Vector

/-- A vector passes exactly if its inputs give outputs and the expected ones are these; otherwise
each output that is not is reported, or the one reason why there are none. A length to be refused
passes exactly if every derivation of that length is refused. Inputs and expected outputs are all of
a vector, and for the same inputs no other outputs pass. A run reports its vectors one by one. -/
theorem vectors_pass_on_exact_outputs :
    (∀ v : Vector,
      (v.report.status = .pass ↔
        ∃ actual, v.2.Gives actual ∧ List.Forall₂ Output.Agrees v.2.outputs actual) ∧
      (∀ actual, v.2.Gives actual →
        actual.length = v.2.outputs.length ∧ v.report.failures = v.2.mismatches actual) ∧
      ((¬ ∃ actual, v.2.Gives actual) →
        v.report.status = .fail ∧ ∃ failure, v.report.failures = [failure])) ∧
    (∀ id length,
      ((Vector.report (id, .invalidLength length)).status = .pass ↔ length = 0 ∨ 8160 < length) ∧
      ∀ ikm salt label,
        (∃ refusal, derive ikm salt label length = .error refusal) ↔
          length = 0 ∨ 8160 < length) ∧
    (∀ case other : Case, case.inputs = other.inputs →
      case.Gives = other.Gives ∧ (case.outputs = other.outputs → case = other)) ∧
    (∀ v w : Vector, v.2.inputs = w.2.inputs →
      v.report.status = .pass → w.report.status = .pass →
        v.2.outputs.map (·.text.toLower) = w.2.outputs.map (·.text.toLower)) ∧
    ∀ (set : VectorSet) (s : Summary), set.run = .ok s →
      s.scenarios = set.vectors.map Vector.report := by
  refine ⟨fun v => ⟨Vector.report_status_eq_pass_iff, fun actual h => ?_,
    Vector.report_of_not_gives⟩, fun id length => ?_, fun case other hinputs => ?_,
    fun v w => Vector.outputs_of_passes, fun _ _ => Summary.scenarios_of_recordAll_new⟩
  · exact ⟨h.length_eq, Vector.report_failures_of_gives h⟩
  · refine ⟨Vector.report_invalidLength_status_eq_pass_iff id length, fun ikm salt label => ?_⟩
    simp only [derive_eq_error_iff, exists_and_left, exists_eq, and_true]
    exact Iff.rfl
  · refine ⟨?_, Case.eq_of_inputs_of_outputs hinputs⟩
    rw [← case.gives_inputs, hinputs, other.gives_inputs]

/-- The key of the epoch is spelled in a capital letter. -/
def frameVector : Vector := ("frame", .frameKey "0B" 7 (encode (frameKey [0x0b] 7)))

/-- The same derivation with another key expected of it. -/
def otherFrameVector : Vector := ("other", .frameKey "0B" 7 "none")

/-- The message key is right and the next chain key is not. -/
def ratchetVector : Vector :=
  ("ratchet", .ratchet "0B" (encode (ratchet [0x0b]).messageKey) "none")

def unreadVector : Vector := ("unread", .sessionId "0x" "")

theorem agrees_encode (name : String) (bytes : Bytes) :
    Output.Agrees ⟨name, encode bytes⟩ bytes := encode_toLower bytes

theorem not_agrees_none (name : String) (bytes : Bytes) :
    ¬ Output.Agrees ⟨name, "none"⟩ bytes := by
  intro hagrees
  have hread : read "none" = .ok bytes := read_of_encode_eq hagrees.symm
  cases hread

theorem frame_passes_ratchet_reports_chain_key :
    frameVector.report.status = .pass ∧ otherFrameVector.report.status ≠ .pass ∧
    ratchetVector.report.failures =
      [Output.mismatch ⟨"next_chain_key", "none"⟩ (ratchet [0x0b]).chainKey] ∧
    unreadVector.report.status = .fail ∧
    (Vector.report ("none", .invalidLength 0)).status = .pass ∧
    (Vector.report ("greatest", .invalidLength 8160)).status ≠ .pass ∧
    ∃ s, (VectorSet.mk "" [frameVector]).run = .ok s ∧ s.scenarios = [frameVector.report] := by
  obtain ⟨hvectors, hlengths, -, hsame, hrun⟩ := vectors_pass_on_exact_outputs
  have hread : read "0B" = .ok [0x0b] := rfl
  have hframe : frameVector.report.status = .pass :=
    (hvectors frameVector).1.mpr ⟨_, ⟨_, hread, rfl⟩, .cons (agrees_encode _ _) .nil⟩
  have hratchet := ((hvectors ratchetVector).2.1 _ ⟨_, hread, rfl⟩).2
  have hone : (VectorSet.mk "" [frameVector]).run =
      .ok ((Summary.own "kdf").extended [frameVector.report]) :=
    (Summary.recordAll_new_eq_ok_iff _ _ _ _).mpr ⟨List.nodup_singleton _, rfl⟩
  refine ⟨hframe, fun hpass => ?_, hratchet.trans ?_, ((hvectors unreadVector).2.2 ?_).1,
    (hlengths "none" 0).1.mpr (.inl rfl), fun hpass => ?_, _, hone, hrun _ _ hone⟩
  · have hinputs : otherFrameVector.2.inputs = frameVector.2.inputs := by
      simp only [otherFrameVector, frameVector, Case.inputs]
    have houtputs : ["none".toLower] = [(encode (frameKey [0x0b] 7)).toLower] :=
      hsame otherFrameVector frameVector hinputs hpass hframe
    rw [List.singleton_inj, encode_toLower] at houtputs
    exact not_agrees_none "frame_key" _ houtputs
  · simp [ratchetVector, Case.mismatches, Case.outputs, agrees_encode, not_agrees_none]
  · rintro ⟨_, _, hunread, -⟩
    cases hunread
  · exact absurd ((hlengths "greatest" 8160).1.mp hpass) (by decide)

end Conformance.KeySchedule
