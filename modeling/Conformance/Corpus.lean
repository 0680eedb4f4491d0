import Conformance.Fault
import Conformance.Json.Record
import Conformance.Text.Blank
/-!
# Corpora

A corpus is a JSON text that holds a positive number of scenarios of one kind.
-/
namespace Conformance

/-- How the scenarios of one kind are read and counted. -/
structure Corpus (α : Type) where
  reader : Json.Reader α
  scenarioCount : α → Nat

namespace Corpus

inductive Refusal
  | empty
  | unparsable
  | noScenarios
  deriving DecidableEq

def Refusal.detail : Refusal → String
  | .empty => "corpus is empty"
  | .unparsable => "unparsable corpus"
  | .noScenarios => "corpus contains no scenarios"

def Refusal.fault (r : Refusal) : Fault :=
  ⟨.corpus, r.detail⟩

def parse {α : Type} (kind : Corpus α) (text : String) : Except Refusal α :=
  if Text.isBlankText text then .error .empty
  else match kind.reader.read? text with
    | none => .error .unparsable
    | some corpus => if kind.scenarioCount corpus = 0 then .error .noScenarios else .ok corpus

end Corpus
end Conformance
