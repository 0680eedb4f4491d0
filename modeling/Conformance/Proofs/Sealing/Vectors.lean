import Conformance.Proofs.Report
import Conformance.Proofs.Sealing.Message
import Conformance.Proofs.Summary
import Conformance.Proofs.Text.Hex
import Conformance.Sealing.Vectors
import Mathlib

/-!
# Sealing vectors pass on exact bytes

A vector passes if all that it states can be read and is what the cipher gives, byte
by byte. Its checks are made one after the other on one report, and the first fault
ends them: what was recorded before stays, and the fault is recorded after it. So a
vector whose checks were cut short never passes.
-/
namespace Conformance.Sealing
open Conformance Text.Hex

/-- What is checked of a vector, step by step on its report. -/
abbrev Checks := ExceptT Fault (StateM Report)

def compareBytes (what expected : String) (actual : Bytes) : Checks Unit :=
  modify fun report => checkBytes report what expected actual

/-- The sealed form is compared before it is read, so that a fault in it is recorded after the
mismatch. -/
def Key.roundTrip (k : Key) (aad : Bytes) (plaintext ciphertext : String) : Checks Unit := do
  let text ← read plaintext
  compareBytes "ciphertext" ciphertext (k.encrypt aad text)
  let sealed ← read ciphertext
  let opened ← (k.decrypt aad sealed).mapError Refusal.fault
  compareBytes "plaintext" plaintext opened

/-- The checks of a case, each input being read where it is needed first. -/
def Case.checks : Case → Checks Unit
  | .encrypt key nonce aad plaintext ciphertext => do
    let key ← readExact Gcm.keySize key
    let nonce ← readExact Gcm.nonceSize nonce
    let aad ← read aad
    (Key.mk key nonce).roundTrip aad plaintext ciphertext
  | .reject key nonce aad ciphertext expected => do
    let key ← readExact Gcm.keySize key
    let nonce ← readExact Gcm.nonceSize nonce
    let sealed ← read ciphertext
    let aad ← read aad
    modify fun report => checkRefusal report expected ((Key.mk key nonce).decrypt aad sealed)
  | .messageAad senderId roomId sequence aad => do
    let senderId ← read senderId
    let actual ← (Address.mk senderId roomId sequence).aad.mapError Canonical.EncodeRefusal.fault
    compareBytes "aad" aad actual
  | .sessionMessage handshakeSecret sessionId senderId roomId sequence plaintext ciphertext => do
    let secret ← read handshakeSecret
    let sessionId ← read sessionId
    let senderId ← read senderId
    let aad ← (Address.mk senderId roomId sequence).aad.mapError Canonical.EncodeRefusal.fault
    (Key.ofSession (KeySchedule.sessionKeys secret sessionId)).roundTrip aad plaintext ciphertext

/-- A fault that ended the checks is recorded last. -/
def settle : Except Fault Unit × Report → Report
  | (.ok (), report) => report
  | (.error fault, report) => report.fail fault.message

variable {α β : Type} (report : Report)

theorem settle_lift_bind (x : Except Fault α) (f : α → Checks Unit) :
    settle ((liftM x >>= f).run.run report) =
      orFail report x fun a => settle ((f a).run.run report) := by
  cases x <;> rfl

theorem settle_compareBytes_bind (what expected : String) (actual : Bytes)
    (f : Unit → Checks Unit) :
    settle ((compareBytes what expected actual >>= f).run.run report) =
      settle ((f ()).run.run (checkBytes report what expected actual)) :=
  rfl

theorem orFail_bind (x : Except Fault α) (f : α → Except Fault β) (next : β → Report) :
    orFail report (x >>= f) next = orFail report x fun a => orFail report (f a) next := by
  cases x <;> rfl

theorem orFail_pure (a : α) (next : α → Report) :
    orFail report (pure a : Except Fault α) next = next a :=
  rfl

theorem checkRoundTrip_eq (k : Key) (aad : Bytes) (plaintext ciphertext : String) :
    checkRoundTrip report k aad plaintext ciphertext =
      settle ((k.roundTrip aad plaintext ciphertext).run.run report) := by
  rw [Key.roundTrip, settle_lift_bind]
  simp only [settle_compareBytes_bind, settle_lift_bind, checkRoundTrip, orFail_bind]
  rfl

/-- Checking in place gives the report of the case. -/
theorem Case.check_eq (case : Case) :
    case.check report = settle (case.checks.run.run report) := by
  cases case with
  | encrypt key nonce aad plaintext ciphertext =>
    simp only [Case.check, Case.checks, readKey, settle_lift_bind, orFail_bind, orFail_pure,
      checkRoundTrip_eq]
  | reject key nonce aad ciphertext expected =>
    simp only [Case.check, Case.checks, readKey, settle_lift_bind, orFail_bind, orFail_pure]
    rfl
  | messageAad senderId roomId sequence aad =>
    simp only [Case.check, Case.checks, readAad, settle_lift_bind, orFail_bind]
    rfl
  | sessionMessage handshakeSecret sessionId senderId roomId sequence plaintext ciphertext =>
    simp only [Case.check, Case.checks, readAad, settle_lift_bind, orFail_bind, orFail_pure,
      checkRoundTrip_eq]

/-- The text is these bytes in hexadecimal digits of either case. -/
def Spells (text : String) (bytes : Bytes) : Prop := text.toLower = encode bytes

theorem Spells.read_eq {text : String} {bytes : Bytes} (h : Spells text bytes) :
    read text = .ok bytes :=
  read_of_encode_eq h.symm

theorem spells_encode (bytes : Bytes) : Spells (encode bytes) bytes :=
  encode_toLower bytes

/-- Both texts are read, and the second spells what the first is sealed to. -/
def SealsExactly (k : Key) (aad : Bytes) (plaintext ciphertext : String) : Prop :=
  ∃ text sealed, read plaintext = .ok text ∧ read ciphertext = .ok sealed ∧
    Spells ciphertext (k.encrypt aad text) ∧ Spells plaintext text

/-- The tag is missing, or it is not the tag of what it follows. -/
def RefusedAs (expected : FailureClass) (k : Key) (aad sealed : Bytes) : Prop :=
  expected = .malformed ∧ sealed.length < 16 ∨
    expected = .integrity ∧ 16 ≤ sealed.length ∧ Gcm.decrypt? k.key k.nonce aad sealed = none

/-- What a vector must state to pass. -/
def Case.Exact : Case → Prop
  | .encrypt key nonce aad plaintext ciphertext =>
    ∃ k n a, readExact 32 key = .ok k ∧ readExact 12 nonce = .ok n ∧ read aad = .ok a ∧
      SealsExactly ⟨k, n⟩ a plaintext ciphertext
  | .reject key nonce aad ciphertext expected =>
    ∃ k n sealed a, readExact 32 key = .ok k ∧ readExact 12 nonce = .ok n ∧
      read ciphertext = .ok sealed ∧ read aad = .ok a ∧ RefusedAs expected ⟨k, n⟩ a sealed
  | .messageAad senderId roomId sequence aad =>
    ∃ sender bytes, read senderId = .ok sender ∧
      Address.aad ⟨sender, roomId, sequence⟩ = .ok bytes ∧ Spells aad bytes
  | .sessionMessage handshakeSecret sessionId senderId roomId sequence plaintext ciphertext =>
    ∃ secret session sender a, read handshakeSecret = .ok secret ∧ read sessionId = .ok session ∧
      read senderId = .ok sender ∧ Address.aad ⟨sender, roomId, sequence⟩ = .ok a ∧
      SealsExactly (.ofSession (KeySchedule.sessionKeys secret session)) a plaintext ciphertext

variable {report}

theorem orFail_status_eq_pass_iff (x : Except Fault α) (next : α → Report) :
    (orFail report x next).status = .pass ↔ ∃ a, x = .ok a ∧ (next a).status = .pass := by
  cases x with
  | ok a => simp [orFail]
  | error fault => simp [orFail, Report.fail]

theorem checkBytes_status_eq_pass_iff (what expected : String) (actual : Bytes) :
    (checkBytes report what expected actual).status = .pass ↔
      report.status = .pass ∧ Spells expected actual := by
  rw [checkBytes, Report.check_status_eq_pass_iff, KeySchedule.Comparison.agrees, beq_iff_eq]
  rfl

theorem refusedAs_iff (expected : FailureClass) (k : Key) (aad sealed : Bytes) :
    (∃ refusal, k.decrypt aad sealed = .error refusal ∧ refusal.failure = expected) ↔
      RefusedAs expected k aad sealed := by
  unfold RefusedAs
  rcases Nat.lt_or_ge sealed.length 16 with hshort | hlong
  · rw [k.decrypt_of_short hshort]
    cases expected <;> simp [Refusal.failure, hshort, Nat.not_le.mpr hshort]
  · rw [k.decrypt_of_long hlong]
    cases expected <;> cases Gcm.decrypt? k.key k.nonce aad sealed <;>
      simp [Refusal.failure, hlong, Nat.not_lt.mpr hlong]

section
variable (hreport : report.status = .pass)
include hreport

/-- The comparison with what is opened adds the spelling of the plaintext and nothing else, as a
sealed form that agrees can be read and opens. -/
theorem checkRoundTrip_status_eq_pass_iff {k : Key} (hk : k.Sized) (aad : Bytes)
    (plaintext ciphertext : String) :
    (checkRoundTrip report k aad plaintext ciphertext).status = .pass ↔
      SealsExactly k aad plaintext ciphertext := by
  simp only [checkRoundTrip, orFail_status_eq_pass_iff, checkBytes_status_eq_pass_iff,
    bind_eq_ok_iff, mapError_eq_ok_iff, hk.decrypt_eq_ok_iff, SealsExactly, hreport, true_and]
  constructor
  · rintro ⟨text, htext, opened, ⟨sealed, hsealed, -⟩, hciphertext, hplaintext⟩
    obtain rfl : opened = text := Except.ok.inj (hplaintext.read_eq.symm.trans htext)
    exact ⟨opened, sealed, htext, hsealed, hciphertext, hplaintext⟩
  · rintro ⟨text, sealed, htext, hsealed, hciphertext, hplaintext⟩
    have hopens : sealed = k.encrypt aad text :=
      Except.ok.inj (hsealed.symm.trans hciphertext.read_eq)
    exact ⟨text, htext, text, ⟨sealed, hsealed, hopens⟩, hciphertext, hplaintext⟩

theorem checkRefusal_status_eq_pass_iff (expected : FailureClass) (result : Except Refusal Bytes) :
    (checkRefusal report expected result).status = .pass ↔
      ∃ refusal, result = .error refusal ∧ refusal.failure = expected := by
  cases result with
  | ok text => simp [checkRefusal, Report.fail]
  | error refusal =>
    by_cases h : refusal.failure = expected <;>
      simp [checkRefusal, h, Report.fail, Report.withErrors, hreport]

theorem Case.check_status_eq_pass_iff (case : Case) :
    (case.check report).status = .pass ↔ case.Exact := by
  cases case with
  | encrypt key nonce aad plaintext ciphertext =>
    simp only [Case.check, readKey, orFail_bind, orFail_pure, orFail_status_eq_pass_iff,
      Case.Exact, exists_and_left]
    refine exists_congr fun k => and_congr_right fun hk => ?_
    refine exists_congr fun n => and_congr_right fun hn => ?_
    have hsized : (Key.mk k n).Sized :=
      ⟨((readExact_eq_ok_iff _ _ _).mp hk).2, ((readExact_eq_ok_iff _ _ _).mp hn).2⟩
    simp only [checkRoundTrip_status_eq_pass_iff hreport hsized]
  | reject key nonce aad ciphertext expected =>
    simp only [Case.check, readKey, orFail_bind, orFail_pure, orFail_status_eq_pass_iff,
      checkRefusal_status_eq_pass_iff hreport, refusedAs_iff, Case.Exact, exists_and_left]
    rfl
  | messageAad senderId roomId sequence aad =>
    simp only [Case.check, readAad, orFail_bind, orFail_status_eq_pass_iff, mapError_eq_ok_iff,
      checkBytes_status_eq_pass_iff, hreport, true_and, Case.Exact, exists_and_left]
  | sessionMessage handshakeSecret sessionId senderId roomId sequence plaintext ciphertext =>
    simp only [Case.check, readAad, orFail_bind, orFail_pure, orFail_status_eq_pass_iff,
      mapError_eq_ok_iff, checkRoundTrip_status_eq_pass_iff hreport (Key.sized_ofSession _ _),
      Case.Exact, exists_and_left]

end

/-- The report of a vector before anything is checked. -/
def Vector.started (v : Vector) : Report :=
  (Report.new v.1).setMetric "kind" (.text v.2.kind)

/-- A report that passes names the refusal that it expected as its only error; one that fails names
no error, whatever its failures are. -/
def NamesRefusal (expected : FailureClass) (r : Report) : Prop :=
  (r.status = .pass ∧ ∃ refusal : Refusal, refusal.failure = expected ∧
    r.errors = [refusal.fault.message]) ∨
  (r.status = .fail ∧ r.errors = [])

section
variable (herrors : report.errors = [])
include herrors

theorem namesRefusal_fail (expected : FailureClass) (failure : String) :
    NamesRefusal expected (report.fail failure) :=
  .inr ⟨rfl, herrors⟩

theorem namesRefusal_orFail {expected : FailureClass} {x : Except Fault α} {next : α → Report}
    (hnext : ∀ a, NamesRefusal expected (next a)) :
    NamesRefusal expected (orFail report x next) := by
  cases x with
  | ok a => exact hnext a
  | error fault => exact namesRefusal_fail herrors expected fault.message

theorem namesRefusal_checkRefusal (hreport : report.status = .pass) (expected : FailureClass)
    (result : Except Refusal Bytes) :
    NamesRefusal expected (checkRefusal report expected result) := by
  unfold checkRefusal
  cases result with
  | ok text => exact namesRefusal_fail herrors expected _
  | error refusal =>
    by_cases h : refusal.failure = expected
    · simp only [h, if_true]
      left
      refine ⟨hreport, refusal, h, ?_⟩
      rw [Report.withErrors, herrors, List.nil_append]
    · simp only [h, if_false]
      exact namesRefusal_fail herrors expected _

end

theorem Vector.report_status_eq_pass_iff (v : Vector) : v.report.status = .pass ↔ v.2.Exact :=
  Case.check_status_eq_pass_iff rfl v.2

theorem Vector.report_eq_settle (v : Vector) : v.report = settle (v.2.checks.run.run v.started) :=
  Case.check_eq v.started v.2

theorem Vector.namesRefusal_report (id key nonce aad ciphertext : String)
    (expected : FailureClass) :
    NamesRefusal expected (Vector.report (id, .reject key nonce aad ciphertext expected)) :=
  namesRefusal_orFail rfl fun _ => namesRefusal_checkRefusal rfl rfl expected _

/-- The report of every vector passes exactly if the vector states what the cipher gives. A refusal
that was expected is the one error of its report, and checks that ended with a fault have failed,
whatever they had found before. A run reports its vectors one by one. -/
theorem vectors_pass_on_exact_bytes :
    (∀ v : Vector,
      (v.report.status = .pass ↔ v.2.Exact) ∧
      (∀ after, v.2.checks.run.run v.started = (.ok (), after) → v.report = after) ∧
      ∀ fault after, v.2.checks.run.run v.started = (.error fault, after) →
        v.report = after.fail fault.message ∧ v.report.status = .fail) ∧
    (∀ id key nonce aad ciphertext expected,
      NamesRefusal expected (Vector.report (id, .reject key nonce aad ciphertext expected))) ∧
    ∀ (set : VectorSet) (s : Summary), set.run = .ok s →
      s.scenarios = set.vectors.map Vector.report := by
  refine ⟨fun v => ?_, Vector.namesRefusal_report, fun _ _ => Summary.scenarios_of_recordAll_new⟩
  rw [v.report_status_eq_pass_iff, v.report_eq_settle]
  refine ⟨Iff.rfl, fun after hdone => ?_, fun fault after hended => ?_⟩
  · rw [hdone]
    rfl
  · rw [hended]
    exact ⟨rfl, rfl⟩

/-- A key and a nonce of zeros. -/
def zeroKey : Key := ⟨Bytes.zeros 32, Bytes.zeros 12⟩

/-- The plaintext is spelled in capital letters. -/
def sealedVector : Vector :=
  ("sealed", .encrypt (encode zeroKey.key) (encode zeroKey.nonce) "" "0A0B"
    (encode (zeroKey.encrypt [] [0x0a, 0x0b])))

/-- A sealed form that is cut off must be refused as malformed. -/
def cutVector : Vector :=
  ("cut", .reject (encode zeroKey.key) (encode zeroKey.nonce) "" "00" .malformed)

/-- The same sealed form cannot be opened again. -/
def unopenedVector : Vector :=
  ("unopened", .encrypt (encode zeroKey.key) (encode zeroKey.nonce) "" "0A0B" "00")

theorem readExact_zeroKey : readExact Gcm.keySize (encode zeroKey.key) = .ok zeroKey.key ∧
    readExact Gcm.nonceSize (encode zeroKey.nonce) = .ok zeroKey.nonce := by
  simp only [readExact_eq_ok_iff]
  exact ⟨⟨(spells_encode _).read_eq, Bytes.length_zeros 32⟩,
    (spells_encode _).read_eq, Bytes.length_zeros 12⟩

theorem spells_capitals : Spells "0A0B" [0x0a, 0x0b] :=
  ((encode_eq_toLower_iff _ _).mpr (by decide)).symm

/-- The mismatch is recorded before the fault ends the checks. -/
theorem unopenedVector_ends : unopenedVector.2.checks.run.run unopenedVector.started =
    (.error (Refusal.malformed 1).fault, checkBytes unopenedVector.started "ciphertext" "00"
      (zeroKey.encrypt [] [0x0a, 0x0b])) := by
  have hsealed : read "00" = .ok [0] := rfl
  simp only [unopenedVector, Case.checks, Key.roundTrip, readExact_zeroKey, spells_capitals.read_eq,
    hsealed]
  rfl

theorem cut_passes_unopened_fails :
    sealedVector.report.status = .pass ∧ cutVector.report.status = .pass ∧
    NamesRefusal .malformed cutVector.report ∧ unopenedVector.report.status = .fail ∧
    ∃ s, (VectorSet.mk "" [cutVector]).run = .ok s ∧ s.scenarios = [cutVector.report] := by
  obtain ⟨hvectors, hrefusals, hrun⟩ := vectors_pass_on_exact_bytes
  obtain ⟨hkey, hnonce⟩ := readExact_zeroKey
  have hsealed := spells_encode (zeroKey.encrypt [] [0x0a, 0x0b])
  have hone : (VectorSet.mk "" [cutVector]).run =
      .ok ((Summary.own "aead").extended [cutVector.report]) :=
    (Summary.recordAll_new_eq_ok_iff _ _ _ _).mpr ⟨List.nodup_singleton _, rfl⟩
  refine ⟨(hvectors sealedVector).1.mpr ?_, (hvectors cutVector).1.mpr ?_,
    hrefusals _ _ _ _ _ _, ((hvectors unopenedVector).2.2 _ _ unopenedVector_ends).2,
    _, hone, hrun _ _ hone⟩
  · exact ⟨_, _, [], hkey, hnonce, rfl, _, _, spells_capitals.read_eq, hsealed.read_eq, hsealed,
      spells_capitals⟩
  · exact ⟨_, _, [0], [], hkey, hnonce, rfl, rfl, .inl ⟨rfl, by decide⟩⟩

end Conformance.Sealing
