import Conformance.EpochChain.Verifier
import Mathlib

/-!
# The walk along a chain

What the verifier has found after some nodes follows from their links and from
the directives that were pushed with them, each counter and list by itself: a
broken link is a break and a rejection, a corruption is listed under the code that
it states, and whatever states none is noted.
-/
namespace Conformance.EpochChain
open Conformance

/-- The texts differ at most in the case of their letters. -/
def SameLetters (a b : String) : Prop := a.toUpper = b.toUpper

instance (a b : String) : Decidable (SameLetters a b) := inferInstanceAs (Decidable (_ = _))

theorem Code.name_injective : Function.Injective Code.name := by
  intro a b h
  cases a <;> cases b <;> first | rfl | exact absurd h (by decide)

theorem Code.mem_all (code : Code) : code ∈ Code.all := by
  cases code <;> decide

theorem Code.toUpper_name (code : Code) : code.name.toUpper = code.name := by
  cases code <;> cbv

theorem Code.ofName?_eq_some_iff (name : String) (code : Code) :
    Code.ofName? name = some code ↔ name = code.name := by
  constructor
  · intro h
    have hname := List.find?_some h
    exact (beq_iff_eq.mp hname).symm
  · rintro rfl
    cases code <;> decide

theorem Code.isRegistered_name (code : Code) : Code.isRegistered code.name = true := by
  rw [isRegistered, (ofName?_eq_some_iff _ code).mpr rfl, Option.isSome_some]

namespace Directive

/-- The directive names the code in some case, or the tampered payload by its second name. -/
def States (d : Directive) (code : Code) : Prop :=
  SameLetters d.kind code.name ∨ (code = .payloadTampered ∧ SameLetters d.kind "TAMPER_PAYLOAD")

instance (d : Directive) (code : Code) : Decidable (d.States code) :=
  inferInstanceAs (Decidable (_ ∨ _))

/-- The code that the directive states, if it states one. -/
def code? (d : Directive) : Option Code := Code.all.find? fun code => d.States code

/-- What is noted of a directive that states no code. -/
def unhandled (d : Directive) : String := "unhandled corruption " ++ d.kind.toUpper

theorem states_iff (d : Directive) (code : Code) :
    d.States code ↔ d.kind.toUpper = code.name ∨
      (code = .payloadTampered ∧ d.kind.toUpper = "TAMPER_PAYLOAD") := by
  have hsecond : "TAMPER_PAYLOAD".toUpper = "TAMPER_PAYLOAD" := by cbv
  rw [States, SameLetters, SameLetters, Code.toUpper_name, hsecond]

theorem corruption_eq_known_iff (d : Directive) (code : Code) :
    d.corruption = .known code ↔ d.States code := by
  rw [states_iff, corruption, Corruption.ofKind]
  by_cases hsecond : d.kind.toUpper = "TAMPER_PAYLOAD"
  · have hname : "TAMPER_PAYLOAD" ≠ code.name := by cases code <;> decide
    simp [hsecond, hname, eq_comm]
  · simp only [hsecond, if_false, and_false, or_false]
    rw [← Code.ofName?_eq_some_iff]
    cases Code.ofName? d.kind.toUpper <;> simp

theorem code?_eq_some_iff (d : Directive) (code : Code) : d.code? = some code ↔ d.States code := by
  constructor
  · intro h
    simpa using List.find?_some h
  · intro h
    have hfound : d.code?.isSome = true :=
      List.find?_isSome.mpr ⟨code, code.mem_all, by simpa using h⟩
    obtain ⟨other, hother⟩ := Option.isSome_iff_exists.mp hfound
    have hstates : d.States other := by simpa using List.find?_some hother
    rw [← corruption_eq_known_iff] at h hstates
    rw [hother, Corruption.known.inj (hstates.symm.trans h)]

theorem corruption_of_some {d : Directive} {code : Code} (h : d.code? = some code) :
    d.corruption = .known code :=
  (corruption_eq_known_iff d code).mpr ((code?_eq_some_iff d code).mp h)

theorem code?_eq_none_iff (d : Directive) : d.code? = none ↔ ∀ code, ¬ d.States code := by
  simp only [Option.eq_none_iff_forall_ne_some, ne_eq, code?_eq_some_iff]

theorem corruption_of_none {d : Directive} (h : d.code? = none) :
    d.corruption = .unknown d.kind.toUpper := by
  have hunknown (code : Code) : d.corruption ≠ .known code :=
    mt (corruption_eq_known_iff d code).mp ((code?_eq_none_iff d).mp h code)
  rw [corruption, Corruption.ofKind] at hunknown ⊢
  by_cases hsecond : d.kind.toUpper = "TAMPER_PAYLOAD"
  · exact absurd (if_pos hsecond) (hunknown .payloadTampered)
  · simp only [hsecond, if_false] at hunknown ⊢
    cases hname : Code.ofName? d.kind.toUpper with
    | some code => exact absurd (by rw [hname]) (hunknown code)
    | none => rfl

end Directive

/-- The node does not name the hash of the node before it. -/
def Breaks (before node : Node) : Prop := node.previousHash ≠ before.hash

instance (before node : Node) : Decidable (Breaks before node) :=
  inferInstanceAs (Decidable (_ ≠ _))

/-- How many nodes after the first break their link. -/
def brokenLinks (nodes : List Node) : ℕ :=
  (nodes.zip nodes.tail).countP fun (before, node) => Breaks before node

theorem brokenLinks_map {α : Type*} (f : α → Node) (l : List α) :
    brokenLinks (l.map f) = (l.zip l.tail).countP fun (a, b) => Breaks (f a) (f b) := by
  rw [brokenLinks, ← List.map_tail, List.zip_map, List.countP_map]
  rfl

theorem brokenLinks_cons_cons (first second : Node) (rest : List Node) :
    brokenLinks (first :: second :: rest) =
      brokenLinks (second :: rest) + if Breaks first second then 1 else 0 := by
  simp [brokenLinks, List.countP_cons]

/-- There is a node before, and the node breaks its link to it. -/
def BreaksFrom (before : Option Node) (node : Node) : Prop := ∃ b ∈ before, Breaks b node

instance (before : Option Node) (node : Node) : Decidable (BreaksFrom before node) :=
  inferInstanceAs (Decidable (∃ b ∈ before, _))

theorem brokenLinks_snoc (nodes : List Node) (node : Node) :
    brokenLinks (nodes ++ [node]) =
      brokenLinks nodes + if BreaksFrom nodes.getLast? node then 1 else 0 := by
  induction nodes with
  | nil => simp [brokenLinks, BreaksFrom]
  | cons first rest ih =>
    cases rest with
    | nil => simp [brokenLinks, BreaksFrom, List.countP_cons]
    | cons second rest =>
      rw [List.getLast?_cons_cons, List.cons_append, List.cons_append, brokenLinks_cons_cons,
        brokenLinks_cons_cons, ← List.cons_append, ih, Nat.add_right_comm]

structure Push where
  node : Node
  corruptions : List Directive

/-- The codes of a node: that of a broken link, then those that its corruptions state. -/
def Push.codes (before : Option Node) (p : Push) : List Code :=
  (if BreaksFrom before p.node then [.chainBreak] else [])
    ++ p.corruptions.filterMap Directive.code?

/-- The codes of some nodes in their order, the first of which follows `before`. -/
def codesFrom : (before : Option Node) → List Push → List Code
  | _, [] => []
  | before, p :: rest => p.codes before ++ codesFrom (some p.node) rest

theorem codesFrom_snoc (before : Option Node) (pushes : List Push) (p : Push) :
    codesFrom before (pushes ++ [p]) =
      codesFrom before pushes ++ p.codes ((pushes.map Push.node).getLast?.or before) := by
  induction pushes generalizing before with
  | nil => simp [codesFrom]
  | cons first rest ih =>
    rw [List.cons_append, codesFrom, codesFrom, ih, List.append_assoc, List.map_cons]
    cases h : (rest.map Push.node).getLast? <;> simp [List.getLast?_cons, h]

section FirstOccurrences
variable {α : Type} [DecidableEq α]

theorem eraseDups_snoc (l : List α) (a : α) :
    (l ++ [a]).eraseDups = if a ∈ l then l.eraseDups else l.eraseDups ++ [a] := by
  rw [List.eraseDups_append]
  by_cases h : a ∈ l
  · have hnone : [a].removeAll l = [] := by simp [List.removeAll, h]
    rw [if_pos h, hnone, List.eraseDups_nil, List.append_nil]
  · have hall : [a].removeAll l = [a] := by simp [List.removeAll, h]
    rw [if_neg h, hall]
    rfl

theorem nodup_eraseDups (l : List α) : l.eraseDups.Nodup := by
  induction l using List.reverseRecOn with
  | nil => exact List.nodup_nil
  | append_singleton l a ih =>
    rw [eraseDups_snoc]
    split
    · exact ih
    · rename_i hnew
      rw [← List.concat_eq_append, List.nodup_concat, List.mem_eraseDups]
      exact ⟨hnew, ih⟩

end FirstOccurrences

namespace Verifier

theorem emit_eq (v : Verifier) (code : Code) :
    v.emit code = { v with
      errors := if code ∈ v.errors then v.errors else v.errors ++ [code] } := by
  unfold emit
  by_cases h : code ∈ v.errors <;> simp [h]

theorem link_of_linked {v : Verifier} {node : Node} (h : v.isLinked node = true) :
    v.link node = ⟨some node.hash, v.errors, v.notes,
      { v.metrics with
        chainLength := v.metrics.chainLength + 1
        acceptedNodes := v.metrics.acceptedNodes + 1 }⟩ := by
  simp [link, h]

theorem link_of_broken {v : Verifier} {node : Node} (h : v.isLinked node = false) :
    v.link node = ⟨some node.hash, (v.emit .chainBreak).errors, v.notes,
      { v.metrics with
        chainLength := v.metrics.chainLength + 1
        hashChainBreaks := v.metrics.hashChainBreaks + 1
        rejectedNodes := v.metrics.rejectedNodes + 1 }⟩ := by
  simp [link, h, emit_eq]

theorem apply_of_code {d : Directive} {code : Code} (h : d.code? = some code) (v : Verifier) :
    v.apply d = ⟨v.predecessor, (v.emit code).errors, v.notes, count v.metrics code⟩ := by
  simp only [apply, Directive.corruption_of_some h, emit_eq]

theorem apply_of_none {d : Directive} (h : d.code? = none) (v : Verifier) :
    v.apply d = { v with notes := v.notes ++ [d.unhandled] } := by
  unfold apply
  rw [Directive.corruption_of_none h]
  rfl

theorem count_eq (m : Metrics) (code : Code) :
    count m code = { m with
      hashChainBreaks := m.hashChainBreaks + if code = .chainBreak then 1 else 0
      rejectedNodes := m.rejectedNodes + if code = .truncated then 1 else 0 } := by
  cases code <;> rfl

/-- What is found after some nodes and directives, which gave some codes in this order. -/
structure Found (v : Verifier) (nodes : List Node) (directives : List Directive)
    (codes : List Code) : Prop where
  predecessor : v.predecessor = nodes.getLast?.map Node.hash
  errors : v.errors = codes.eraseDups
  notes : v.notes = (directives.filter (·.code? = none)).map Directive.unhandled
  chainLength : v.metrics.chainLength = nodes.length
  accepted : v.metrics.acceptedNodes + brokenLinks nodes = nodes.length
  breaks : v.metrics.hashChainBreaks =
    brokenLinks nodes + directives.countP fun d => d.States .chainBreak
  rejected : v.metrics.rejectedNodes =
    brokenLinks nodes + directives.countP fun d => d.States .truncated

variable {v : Verifier} {nodes : List Node} {directives : List Directive} {codes : List Code}

theorem found_new : new.Found [] [] [] :=
  ⟨rfl, rfl, rfl, rfl, rfl, rfl, rfl⟩

theorem Found.emit_errors (h : v.Found nodes directives codes) (code : Code) :
    (v.emit code).errors = (codes ++ [code]).eraseDups := by
  rw [emit_eq, eraseDups_snoc, h.errors]
  simp only [List.mem_eraseDups]

theorem Found.isLinked_iff (h : v.Found nodes directives codes) (node : Node) :
    v.isLinked node = true ↔ ¬ BreaksFrom nodes.getLast? node := by
  rw [isLinked, h.predecessor]
  cases nodes.getLast? <;> simp [BreaksFrom, Breaks]

theorem Found.link (h : v.Found nodes directives codes) (node : Node) :
    (v.link node).Found (nodes ++ [node]) directives
      (codes ++ if BreaksFrom nodes.getLast? node then [.chainBreak] else []) := by
  have haccepted := h.accepted
  have hlast : some node.hash = (nodes ++ [node]).getLast?.map Node.hash := by
    rw [List.getLast?_concat, Option.map_some]
  by_cases hbreak : BreaksFrom nodes.getLast? node
  · have hlinked : v.isLinked node = false := by
      simpa [hbreak] using mt (h.isLinked_iff node).mp
    have hlinks : brokenLinks (nodes ++ [node]) = brokenLinks nodes + 1 := by
      rw [brokenLinks_snoc, if_pos hbreak]
    rw [link_of_broken hlinked, if_pos hbreak]
    refine ⟨hlast, h.emit_errors .chainBreak, h.notes, ?_, ?_, ?_, ?_⟩
    · simp [h.chainLength]
    · simp only [hlinks, List.length_append, List.length_singleton]
      omega
    · simp only [hlinks, h.breaks]
      omega
    · simp only [hlinks, h.rejected]
      omega
  · have hlinked : v.isLinked node = true := (h.isLinked_iff node).mpr hbreak
    have hlinks : brokenLinks (nodes ++ [node]) = brokenLinks nodes := by
      rw [brokenLinks_snoc, if_neg hbreak, Nat.add_zero]
    rw [link_of_linked hlinked, if_neg hbreak, List.append_nil]
    refine ⟨hlast, h.errors, h.notes, ?_, ?_, ?_, ?_⟩
    · simp [h.chainLength]
    · simp only [hlinks, List.length_append, List.length_singleton]
      omega
    · rw [hlinks, h.breaks]
    · rw [hlinks, h.rejected]

/-- A code is listed and counted; what states none is noted and changes nothing else. -/
theorem Found.apply (h : v.Found nodes directives codes) (d : Directive) :
    (v.apply d).Found nodes (directives ++ [d]) (codes ++ d.code?.toList) := by
  have hnotes : ((directives ++ [d]).filter (·.code? = none)).map Directive.unhandled =
      v.notes ++ if d.code? = none then [d.unhandled] else [] := by
    rw [List.filter_append, List.map_append, h.notes]
    by_cases hnone : d.code? = none <;> simp [hnone]
  have hcount (code : Code) : (directives ++ [d]).countP (fun d => d.States code) =
      directives.countP (fun d => d.States code) + if d.code? = some code then 1 else 0 := by
    simp [List.countP_append, List.countP_cons, Directive.code?_eq_some_iff]
  cases hcode : d.code? with
  | none =>
    rw [hcode] at hnotes hcount
    rw [apply_of_none hcode, Option.toList_none, List.append_nil]
    refine ⟨h.predecessor, h.errors, hnotes.symm, h.chainLength, h.accepted, ?_, ?_⟩
    · simp [hcount, h.breaks]
    · simp [hcount, h.rejected]
  | some code =>
    rw [hcode] at hnotes hcount
    rw [apply_of_code hcode, Option.toList_some, count_eq]
    refine ⟨h.predecessor, h.emit_errors code, ?_, h.chainLength, h.accepted, ?_, ?_⟩
    · rw [hnotes, if_neg (Option.some_ne_none code), List.append_nil]
    · simp [hcount, h.breaks, Nat.add_assoc]
    · simp [hcount, h.rejected, Nat.add_assoc]

theorem Found.applyAll (h : v.Found nodes directives codes) (corruptions : List Directive) :
    (corruptions.foldl Verifier.apply v).Found nodes (directives ++ corruptions)
      (codes ++ corruptions.filterMap Directive.code?) := by
  induction corruptions generalizing v directives codes with
  | nil => simpa using h
  | cons d rest ih =>
    have hrest := ih (h.apply d)
    rw [List.append_assoc, List.append_assoc] at hrest
    cases hcode : d.code? with
    | none => simpa [hcode] using hrest
    | some code => simpa [hcode] using hrest

theorem Found.push (h : v.Found nodes directives codes) (p : Push) :
    (v.push p.node p.corruptions).Found (nodes ++ [p.node]) (directives ++ p.corruptions)
      (codes ++ p.codes nodes.getLast?) := by
  have hpush := (h.link p.node).applyAll p.corruptions
  rw [List.append_assoc] at hpush
  exact hpush

/-- A fresh verifier after some nodes were pushed. -/
def pushAll (pushes : List Push) : Verifier :=
  pushes.foldl (fun v p => v.push p.node p.corruptions) .new

theorem found_pushAll (pushes : List Push) :
    (pushAll pushes).Found (pushes.map Push.node) (pushes.flatMap Push.corruptions)
      (codesFrom none pushes) := by
  induction pushes using List.reverseRecOn with
  | nil => exact found_new
  | append_singleton pushes p ih =>
    have hpush := ih.push p
    rw [codesFrom_snoc, Option.or_none, List.map_append, List.flatMap_append,
      List.flatMap_singleton, pushAll, List.foldl_append]
    exact hpush

/-- Every part of a result follows from the links of the nodes that were pushed and from what the
corruptions with them state. -/
theorem finish_pushAll (pushes : List Push) (applied : ℕ) :
    let result := (pushAll pushes).finish applied
    let links := brokenLinks (pushes.map Push.node)
    let directives := pushes.flatMap Push.corruptions
    result.metrics.chainLength = pushes.length ∧
    result.metrics.acceptedNodes + links = result.metrics.chainLength ∧
    result.metrics.hashChainBreaks = links + directives.countP (fun d => d.States .chainBreak) ∧
    result.metrics.rejectedNodes = links + directives.countP (fun d => d.States .truncated) ∧
    result.errors = (codesFrom none pushes).eraseDups.map Code.name ∧ result.errors.Nodup ∧
    (∀ code ∈ result.errors, Code.isRegistered code = true) ∧
    result.notes = (directives.filter (·.code? = none)).map Directive.unhandled ∧
    (result.detection = true ↔ result.errors ≠ []) ∧
    (result.detectionMs = some 0 ↔ result.errors ≠ []) := by
  obtain ⟨-, herrors, hnotes, hlength, haccepted, hbreaks, hrejected⟩ := found_pushAll pushes
  have hnames : ((pushAll pushes).finish applied).errors =
      (codesFrom none pushes).eraseDups.map Code.name := congrArg (List.map Code.name) herrors
  rw [List.length_map] at hlength haccepted
  refine ⟨hlength, ?_, hbreaks, hrejected, hnames, ?_, ?_, hnotes, ?_, ?_⟩
  · exact haccepted.trans hlength.symm
  · rw [hnames]
    exact (nodup_eraseDups _).map Code.name_injective
  · intro name hname
    obtain ⟨code, -, rfl⟩ := List.mem_map.mp (hnames ▸ hname)
    exact code.isRegistered_name
  · simp [finish]
  · simp [finish]

namespace ForgedLink

def node (nodeId hash previousHash : String) : Node :=
  ⟨nodeId, 0, hash, "controller", previousHash, "digest", none⟩

def directive (kind : String) : Directive := ⟨kind, none, none, none, none⟩

/-- A node with a tampered payload and an unknown corruption, and one that names a wrong hash and
is said to. -/
def pushes : List Push :=
  [⟨node "n1" "h1" "h0", [directive "tamper_payload", directive "Mystery"]⟩,
    ⟨node "n2" "h2" "forged", [directive "Hash_Chain_Break"]⟩]

theorem code_tampered : (directive "tamper_payload").code? = some .payloadTampered := by
  rw [Directive.code?_eq_some_iff, Directive.states_iff]
  exact .inr ⟨rfl, by cbv⟩

theorem code_mystery : (directive "Mystery").code? = none := by
  have hupper : (directive "Mystery").kind.toUpper = "MYSTERY" := by cbv
  refine Option.eq_none_iff_forall_ne_some.mpr fun code hcode => ?_
  rw [Directive.code?_eq_some_iff, Directive.states_iff, hupper] at hcode
  revert hcode
  cases code <;> decide

theorem code_break : (directive "Hash_Chain_Break").code? = some .chainBreak := by
  rw [Directive.code?_eq_some_iff, Directive.states_iff]
  exact .inl (by cbv)

end ForgedLink
open ForgedLink

theorem finish_pushAll_forgedLink :
    let result := (pushAll pushes).finish 3
    result.metrics.acceptedNodes = 1 ∧ result.metrics.hashChainBreaks = 2 ∧
    result.metrics.rejectedNodes = 1 ∧ result.errors = ["PAYLOAD_TAMPERED", "HASH_CHAIN_BREAK"] ∧
    Code.isRegistered "PAYLOAD_TAMPERED" = true ∧
    result.notes = [(directive "Mystery").unhandled] := by
  obtain ⟨hlength, haccepted, hbreaks, hrejected, herrors, -, hregistered, hnotes, -, -⟩ :=
    finish_pushAll pushes 3
  have hlinks : brokenLinks (pushes.map Push.node) = 1 := by decide
  have htwo : pushes.length = 2 := rfl
  have hbroken : BreaksFrom (some (node "n1" "h1" "h0")) (node "n2" "h2" "forged") := by decide
  have hcodes : codesFrom none pushes = [.payloadTampered, .chainBreak, .chainBreak] := by
    simp [codesFrom, Push.codes, pushes, code_tampered, code_mystery, code_break, hbroken,
      show ¬ BreaksFrom none (node "n1" "h1" "h0") from nofun]
  refine ⟨?_, ?_, ?_, ?_, ?_, ?_⟩
  · omega
  · rw [hbreaks, hlinks]
    simp [pushes, ← Directive.code?_eq_some_iff, code_tampered, code_mystery, code_break]
  · rw [hrejected, hlinks]
    simp [pushes, ← Directive.code?_eq_some_iff, code_tampered, code_mystery, code_break]
  · rw [herrors, hcodes]
    decide
  · refine hregistered _ ?_
    rw [herrors, hcodes]
    decide
  · rw [hnotes]
    simp [pushes, code_tampered, code_mystery, code_break]

end Verifier
end Conformance.EpochChain
