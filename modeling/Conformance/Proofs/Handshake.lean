import Conformance.Handshake
import Conformance.Proofs.Canonical.OfJson
import Conformance.Proofs.KeySchedule.SessionKeys
import Conformance.Proofs.Message.Validation
import Conformance.Proofs.Summary
import Mathlib

/-!
# Verdicts on handshake flows

A flow of three steps or more always has four reports. Each step is judged by its
own message and the latest timestamp before it; the derivation is judged by the
response's canonical encoding and by what the last message claims. A response
without a canonical encoding fails the derivation; beyond its own step and the
time it holds, no other report depends on it.
-/
namespace Conformance.Handshake
open Conformance Message

/-- The message holds this time. -/
def Stamped (message : Json) (time : ℕ) : Prop :=
  message.get? "timestamp" = some (.ofNat time)

/-- No time that was read before is later than the time of the message. -/
def NotBefore (previous : Option ℕ) (message : Json) : Prop :=
  ∀ earlier ∈ previous, ∀ time ∈ timestamp? message, earlier ≤ time

theorem checkTimestamp_status_eq_pass_iff (r : Report) (previous now : Option ℕ) :
    (checkTimestamp r previous now).status = .pass ↔
      r.status = .pass ∧ ∀ earlier ∈ previous, ∀ time ∈ now, earlier ≤ time := by
  cases previous with
  | none => simp [checkTimestamp]
  | some earlier =>
    cases now with
    | none => simp [checkTimestamp]
    | some time => simp [checkTimestamp, Report.check_status_eq_pass_iff]

theorem checkTimestamp_scenarioId (r : Report) (previous now : Option ℕ) :
    (checkTimestamp r previous now).scenarioId = r.scenarioId := by
  unfold checkTimestamp
  split
  · exact r.check_scenarioId _ _
  · rfl

/-- A step passes if its message conforms to the expected kind and is not of an earlier time. -/
theorem stepReport_status_eq_pass_iff (position : ℕ) (expected : Kind) (previous : Option ℕ)
    (message : Json) : (stepReport position expected previous message).status = .pass ↔
      Conforms expected message ∧ NotBefore previous message := by
  unfold stepReport
  rw [checkTimestamp_status_eq_pass_iff, Report.check_status_eq_pass_iff,
    Report.check_status_eq_pass_iff, beq_iff_eq, conforms_iff, NotBefore]
  refine and_congr_left' ?_
  simp [Report.withNotes, Report.withErrors, Report.new]

theorem stepReport_scenarioId (position : ℕ) (expected : Kind) (previous : Option ℕ)
    (message : Json) : (stepReport position expected previous message).scenarioId =
      s!"handshake_flow::step_{position}" := by
  unfold stepReport
  rw [checkTimestamp_scenarioId, Report.check_scenarioId, Report.check_scenarioId]
  rfl

theorem Stamped.unique {message : Json} {time other : ℕ} (h : Stamped message time)
    (h' : Stamped message other) : time = other := by
  have heq : (Json.ofNat time) = .ofNat other := Option.some.inj (h.symm.trans h')
  simpa [Json.ofNat] using heq

/-- A message of a flow that conforms to its kind has a time, which can be read. -/
theorem exists_stamped {kind : Kind} {message : Json} (hkind : kind ∈ order)
    (h : Conforms kind message) :
    ∃ time, Stamped message time ∧ timestamp? message = some time := by
  have hfield : Field.timestamp ∈ kind.fields := by
    revert hkind
    cases kind <;> decide
  obtain ⟨entries, rfl, -, hfields⟩ := h
  obtain ⟨value, hvalue, hmeets⟩ := hfields _ hfield
  cases hmeets with
  | @integer _ _ time fits least greatest =>
    refine ⟨time, hvalue, ?_⟩
    have hread : timestamp? (.object entries) = Json.unsigned? (.ofNat time) := by
      rw [timestamp?]
      exact congrArg (Option.bind · Json.unsigned?) hvalue
    have hfits : Word.fits (time : ℤ) = true := by
      simp only [Word.fits, Bool.and_eq_true, decide_eq_true_eq]
      omega
    rw [hread]
    simp [Json.unsigned?, Json.ofNat, hfits]

/-- The message claims the text, which is not empty. -/
theorem claim_eq_iff {complete : Json} {field text : String} (h : text ≠ "") :
    claim complete field = text ↔ complete.get? field = some (.text text) := by
  unfold claim
  cases hget : complete.get? field with
  | none => simp [h.symm]
  | some value => cases value <;> simp [Json.text?, h.symm]

theorem derive_eq_ok_iff (response : Json) (derived : Derived) :
    derive response = .ok derived ↔ ∃ v bytes, Canonical.ofJson response = .ok v ∧
      Canonical.encode v = .ok bytes ∧
      derived = ⟨Sha256.digest bytes, KeySchedule.sessionId (Sha256.digest bytes)⟩ := by
  simp only [derive, Canonical.digest, bind_eq_ok_iff]
  constructor
  · rintro ⟨v, hv, hash, ⟨bytes, hbytes, hhash⟩, hderived⟩
    cases hhash
    cases hderived
    exact ⟨v, bytes, hv, hbytes, rfl⟩
  · rintro ⟨v, bytes, hv, hbytes, rfl⟩
    exact ⟨v, hv, _, ⟨bytes, hbytes, rfl⟩, rfl⟩

theorem mismatches_eq_nil_iff (complete : Json) (derived : Derived) :
    mismatches complete derived = [] ↔
      claim complete "handshake_hash" = Text.Base64.encode derived.handshakeHash ∧
      claim complete "session_id" = Text.Base64.encode derived.sessionId := by
  simp only [mismatches, List.filterMap_eq_nil_iff, List.forall_mem_cons]
  simp

/-- The response has a canonical encoding, and the last message claims what follows from it. -/
def Derives (response complete : Json) : Prop :=
  ∃ v bytes, Canonical.ofJson response = .ok v ∧ Canonical.encode v = .ok bytes ∧
    complete.get? "handshake_hash" = some (.text (Text.Base64.encode (Sha256.digest bytes))) ∧
    complete.get? "session_id" =
      some (.text (Text.Base64.encode (KeySchedule.sessionId (Sha256.digest bytes))))

theorem derivationReport_status_eq_pass_iff (response complete : Json) :
    (derivationReport response complete).status = .pass ↔ Derives response complete := by
  unfold derivationReport
  cases hderive : derive response with
  | error refusal =>
    constructor
    · intro h
      cases h
    · rintro ⟨v, bytes, hv, hbytes, -⟩
      cases hderive.symm.trans ((derive_eq_ok_iff response _).mpr ⟨v, bytes, hv, hbytes, rfl⟩)
  | ok derived =>
    obtain ⟨v, bytes, hv, hbytes, rfl⟩ := (derive_eq_ok_iff response derived).mp hderive
    have hhash : Text.Base64.encode (Sha256.digest bytes) ≠ "" :=
      Text.Base64.encode_ne_empty (List.ne_nil_of_length_eq_add_one (Sha256.length_digest bytes))
    have hsession : Text.Base64.encode (KeySchedule.sessionId (Sha256.digest bytes)) ≠ "" :=
      Text.Base64.encode_ne_empty (List.ne_nil_of_length_eq_add_one (Hkdf.length_expand _ _ 32))
    rw [Report.failAll_status_eq_pass_iff, mismatches_eq_nil_iff, claim_eq_iff hhash,
      claim_eq_iff hsession]
    constructor
    · rintro ⟨-, hclaims⟩
      exact ⟨v, bytes, hv, hbytes, hclaims⟩
    · rintro ⟨w, code, hw, hcode, hclaims⟩
      cases hv.symm.trans hw
      cases hbytes.symm.trans hcode
      exact ⟨rfl, hclaims⟩

theorem derivationReport_scenarioId (response complete : Json) :
    (derivationReport response complete).scenarioId = "handshake_flow::derivation" := by
  unfold derivationReport
  split
  · rw [Report.failAll_scenarioId]
    rfl
  · rfl

theorem derivationReport_of_refused {response : Json} {refusal : Canonical.EncodeRefusal}
    (h : Canonical.ofJson response = .error refusal) (complete : Json) :
    derivationReport response complete = (Report.new "handshake_flow::derivation").fail
      ("derivation failed: " ++ refusal.fault.message) := by
  have hderive : derive response = .error refusal := by
    rw [derive, h]
    rfl
  rw [derivationReport, hderive]

/-- A response with a leaf that has no canonical value is refused for it. -/
theorem derivationReport_of_not_plain {response : Json}
    (h : ¬ ∀ leaf, Json.Leaf leaf response → leaf.Plain) (complete : Json) :
    ∃ refusal, Canonical.ofJson response = .error refusal ∧
      derivationReport response complete = (Report.new "handshake_flow::derivation").fail
        ("derivation failed: " ++ refusal.fault.message) := by
  cases hresponse : Canonical.ofJson response with
  | error refusal => exact ⟨refusal, rfl, derivationReport_of_refused hresponse complete⟩
  | ok v => exact absurd ((Canonical.exists_represents_iff response).mp ⟨v, hresponse⟩) h

def Flow.messages (flow : Flow) : List Json := flow.steps.map Step.message

/-- The latest time that can be read before the third step. -/
def latest (init response : Json) : Option ℕ := (timestamp? response).or (timestamp? init)

/-- What each of the four reports of a flow is about, and when it passes. -/
structure Verdicts (init response complete : Json) (extra : List Json)
    (first second third last : Report) : Prop where
  scenarioIds : [first, second, third, last].map Report.scenarioId =
    ["handshake_flow::step_1", "handshake_flow::step_2", "handshake_flow::step_3",
      "handshake_flow::derivation"]
  first_pass : first.status = .pass ↔ Conforms .handshakeInit init
  second_pass : second.status = .pass ↔
    Conforms .handshakeResponse response ∧ NotBefore (timestamp? init) response
  third_pass : third.status = .pass ↔
    (Conforms .handshakeComplete complete ∧ NotBefore (latest init response) complete) ∧ extra = []
  last_pass : last.status = .pass ↔ Derives response complete

/-- Three messages that make a handshake: each conforms to its kind, time does not go back, and
the last claims what follows from the encoding of the second. -/
structure Coherent (init response complete : Json) : Prop where
  init_conforms : Conforms .handshakeInit init
  response_conforms : Conforms .handshakeResponse response
  complete_conforms : Conforms .handshakeComplete complete
  times : ∃ first second third, Stamped init first ∧ Stamped response second ∧
    Stamped complete third ∧ first ≤ second ∧ second ≤ third
  plain : ∀ leaf, Json.Leaf leaf response → leaf.Plain
  derives : Derives response complete

theorem timestamp?_of_stamped {kind : Kind} {message : Json} (hkind : kind ∈ order)
    (h : Conforms kind message) {time : ℕ} (hstamped : Stamped message time) :
    timestamp? message = some time := by
  obtain ⟨read, hread, htimestamp⟩ := exists_stamped hkind h
  rw [htimestamp, hread.unique hstamped]

theorem notBefore_iff {previous : Option ℕ} {message : Json} {earlier time : ℕ}
    (hprevious : previous = some earlier) (hmessage : timestamp? message = some time) :
    NotBefore previous message ↔ earlier ≤ time := by
  subst hprevious
  simp [NotBefore, hmessage]

theorem coherent_iff (init response complete : Json) :
    Coherent init response complete ↔ Conforms .handshakeInit init ∧
      (Conforms .handshakeResponse response ∧ NotBefore (timestamp? init) response) ∧
      (Conforms .handshakeComplete complete ∧ NotBefore (latest init response) complete) ∧
      Derives response complete := by
  constructor
  · rintro ⟨hinit, hresponse, hcomplete, ⟨i, r, c, hi, hr, hc, hir, hrc⟩, -, hderives⟩
    have hti := timestamp?_of_stamped (by decide) hinit hi
    have htr := timestamp?_of_stamped (by decide) hresponse hr
    have htc := timestamp?_of_stamped (by decide) hcomplete hc
    have hlatest : latest init response = some r := by rw [latest, htr, Option.some_or]
    exact ⟨hinit, ⟨hresponse, (notBefore_iff hti htr).mpr hir⟩,
      ⟨hcomplete, (notBefore_iff hlatest htc).mpr hrc⟩, hderives⟩
  · rintro ⟨hinit, ⟨hresponse, hfirst⟩, ⟨hcomplete, hsecond⟩, hderives⟩
    obtain ⟨i, hi, hti⟩ := exists_stamped (by decide) hinit
    obtain ⟨r, hr, htr⟩ := exists_stamped (by decide) hresponse
    obtain ⟨c, hc, htc⟩ := exists_stamped (by decide) hcomplete
    have hlatest : latest init response = some r := by rw [latest, htr, Option.some_or]
    obtain ⟨v, -, hv, -⟩ := id hderives
    exact ⟨hinit, hresponse, hcomplete,
      ⟨i, r, c, hi, hr, hc, (notBefore_iff hti htr).mp hfirst,
        (notBefore_iff hlatest htc).mp hsecond⟩,
      (Canonical.exists_represents_iff response).mp ⟨v, hv⟩, hderives⟩

/-- The report of the third step, which other steps may follow. -/
def lastStepReport (previous : Option ℕ) (complete : Json) (extra : ℕ) : Report :=
  (stepReport 3 .handshakeComplete previous complete).check (extra == 0)
    s!"{extra} unexpected step(s) after {Kind.handshakeComplete.name}"

/-- Only the second report and the last one read more of a response than its time. -/
theorem reports_eq (init response complete : Json) (extra : ℕ) :
    reports init response complete extra =
      [stepReport 1 .handshakeInit none init,
        stepReport 2 .handshakeResponse (timestamp? init) response,
        lastStepReport (latest init response) complete extra,
        derivationReport response complete] :=
  rfl

theorem reports_scenarioIds (init response complete : Json) (extra : ℕ) :
    (reports init response complete extra).map Report.scenarioId =
      ["handshake_flow::step_1", "handshake_flow::step_2", "handshake_flow::step_3",
        "handshake_flow::derivation"] := by
  simp only [reports, List.map_cons, List.map_nil, stepReport_scenarioId, Report.check_scenarioId,
    derivationReport_scenarioId]
  rfl

theorem nodup_reports_scenarioIds (init response complete : Json) (extra : ℕ) :
    ((reports init response complete extra).map Report.scenarioId).Nodup := by
  rw [reports_scenarioIds]
  decide

theorem verdicts_reports (init response complete : Json) (extra : List Json) :
    Verdicts init response complete extra (stepReport 1 .handshakeInit none init)
      (stepReport 2 .handshakeResponse (timestamp? init) response)
      (lastStepReport (latest init response) complete extra.length)
      (derivationReport response complete) where
  scenarioIds := reports_scenarioIds init response complete extra.length
  first_pass := by simp [stepReport_status_eq_pass_iff, NotBefore]
  second_pass := stepReport_status_eq_pass_iff _ _ _ _
  third_pass := by
    rw [lastStepReport, Report.check_status_eq_pass_iff, stepReport_status_eq_pass_iff, beq_iff_eq,
      List.length_eq_zero_iff]
  last_pass := derivationReport_status_eq_pass_iff response complete

theorem Verdicts.all_pass_iff {init response complete : Json} {extra : List Json}
    {first second third last : Report}
    (h : Verdicts init response complete extra first second third last) :
    (∀ r ∈ [first, second, third, last], r.status = .pass) ↔
      extra = [] ∧ Coherent init response complete := by
  simp only [List.forall_mem_cons, List.not_mem_nil, false_imp_iff, implies_true, and_true,
    h.first_pass, h.second_pass, h.third_pass, h.last_pass, coherent_iff]
  tauto

theorem run_of_short {flow : Flow} (h : flow.steps.length < 3) :
    flow.run = .error (tooFew flow.steps.length) := by
  unfold Flow.run
  split
  next init response complete extra hsteps =>
    rw [hsteps] at h
    exact absurd h (by simp)
  next => rfl

theorem run_of_messages {flow : Flow} {init response complete : Json} {extra : List Json}
    (h : flow.messages = init :: response :: complete :: extra) :
    flow.run = .ok ((Summary.own "handshake_flow").extended
      (reports init response complete extra.length)) := by
  have hall := Summary.recordAll_eq_ok (Summary.own "handshake_flow")
    (nodup_reports_scenarioIds init response complete extra.length)
    fun _ _ => Summary.not_holds_new _ _ _
  obtain ⟨description, steps⟩ := flow
  simp only [Flow.messages, List.map_eq_cons_iff] at h
  obtain ⟨i, _, rfl, rfl, r, _, rfl, rfl, c, e, rfl, rfl, rfl⟩ := h
  rw [List.length_map] at hall ⊢
  exact hall

theorem run_eq_error_iff (flow : Flow) (fault : Fault) :
    flow.run = .error fault ↔ flow.steps.length < 3 ∧ fault = tooFew flow.steps.length := by
  constructor
  · intro h
    rcases lt_or_ge flow.steps.length 3 with hshort | hlong
    · cases h.symm.trans (run_of_short hshort)
      exact ⟨hshort, rfl⟩
    · have hmessages : ∃ init response complete extra,
          flow.messages = init :: response :: complete :: extra := by
        unfold Flow.messages
        match flow.steps, hlong with
        | init :: response :: complete :: extra, _ => exact ⟨_, _, _, _, rfl⟩
      obtain ⟨_, _, _, _, hmessages⟩ := hmessages
      cases h.symm.trans (run_of_messages hmessages)
  · rintro ⟨hshort, rfl⟩
    exact run_of_short hshort

/-- A flow is refused, as a corpus fault, exactly if it has fewer than three steps. Any other flow
has four reports, and all pass exactly if its messages are three and make a handshake. A response
that has a leaf without a canonical value fails the derivation; what else a response decides is
its own step and, by the latest time before it, the third. -/
theorem run_verdicts (flow : Flow) :
    ((∃ fault, flow.run = .error fault) ↔ flow.steps.length < 3) ∧
    (∀ fault, flow.run = .error fault → fault.kind = .corpus) ∧
    ∀ init response complete extra, flow.messages = init :: response :: complete :: extra →
      ∃ summary first second third last, flow.run = .ok summary ∧
        summary.scenarios = [first, second, third, last] ∧
        Verdicts init response complete extra first second third last ∧
        (summary.allPassed = true ↔ extra = [] ∧ Coherent init response complete) ∧
        ((¬ ∀ leaf, Json.Leaf leaf response → leaf.Plain) →
          ∃ refusal, Canonical.ofJson response = .error refusal ∧
            last = (Report.new "handshake_flow::derivation").fail
              ("derivation failed: " ++ refusal.fault.message)) ∧
        ∀ (other : Flow) response',
          other.messages = init :: response' :: complete :: extra →
          ∃ summary' second' third' last', other.run = .ok summary' ∧
            summary'.scenarios = [first, second', third', last'] ∧
            (latest init response' = latest init response → third' = third) := by
  refine ⟨?_, fun fault h => ?_, fun init response complete extra h => ?_⟩
  · simp only [run_eq_error_iff, exists_and_left, exists_eq, and_true]
  · rw [((run_eq_error_iff flow fault).mp h).2]
    rfl
  · have hverdicts := verdicts_reports init response complete extra
    refine ⟨_, _, _, _, _, run_of_messages h, reports_eq _ _ _ _, hverdicts, ?_, fun hplain => ?_,
      fun other response' h' => ?_⟩
    · rw [Summary.own, Summary.allPassed_extended_new_iff _ _ (nodup_reports_scenarioIds _ _ _ _),
        reports_eq, hverdicts.all_pass_iff]
      simp
    · exact derivationReport_of_not_plain hplain complete
    · refine ⟨_, _, _, _, run_of_messages h', reports_eq _ _ _ _, fun hlatest => ?_⟩
      rw [hlatest]

/-- A flow of messages that hold little more than their times. -/
def flowOfTimes (version : Json) : Flow where
  description := ""
  steps := [.object [("timestamp", .ofNat 5)],
    .object [("timestamp", .ofNat 6), ("version", version)],
    .object [("timestamp", .ofNat 7)]].map (⟨none, none, none, ·⟩)

theorem null_fails_derivation :
    (flowOfTimes .null).messages.length = 3 ∧
    ∃ summary first second third last, (flowOfTimes .null).run = .ok summary ∧
      summary.scenarios = [first, second, third, last] ∧ summary.allPassed = false ∧
      (∃ failure, last = (Report.new "handshake_flow::derivation").fail failure) ∧
      ∃ summary' second' last', (flowOfTimes (.ofNat 1)).run = .ok summary' ∧
        summary'.scenarios = [first, second', third, last'] := by
  obtain ⟨-, -, hlong⟩ := run_verdicts (flowOfTimes .null)
  obtain ⟨summary, first, second, third, last, hrun, hscenarios, -, hpassed, hfailed, hother⟩ :=
    hlong _ _ _ [] rfl
  have hnull : Json.Leaf .null (.object [("timestamp", .ofNat 6), ("version", .null)]) :=
    .value (List.mem_cons_of_mem _ List.mem_cons_self) .null
  have hplain : ¬ ∀ leaf, Json.Leaf leaf
      (.object [("timestamp", .ofNat 6), ("version", .null)]) → leaf.Plain :=
    fun hall => by cases hall .null hnull
  obtain ⟨summary', second', third', last', hrun', hscenarios', hthird⟩ :=
    hother (flowOfTimes (.ofNat 1)) _ rfl
  obtain rfl := hthird rfl
  obtain ⟨refusal, -, hlast⟩ := hfailed hplain
  refine ⟨rfl, summary, first, second, third', last, hrun, hscenarios, ?_, ⟨_, hlast⟩,
    summary', second', last', hrun', hscenarios'⟩
  rw [Bool.eq_false_iff, Ne, hpassed]
  exact fun hcoherent => hplain hcoherent.2.plain

end Conformance.Handshake
