import Conformance.Report
import Conformance.Word
/-!
# Requests

A command line names a suite to run, or asks to run all targets or to compare
summaries. Two options hold for every command and may stand before and after its
name, once at each place.
-/
namespace Conformance.CommandLine

inductive Suite
  | schema
  | chain
  | replay
  | storm
  | keys
  | sealing
  | handshake
  | fork
  deriving DecidableEq

namespace Suite

def all : List Suite :=
  [schema, chain, replay, storm, keys, sealing, handshake, fork]

def command : Suite → String
  | schema => "schema"
  | chain => "eare"
  | replay => "replay"
  | storm => "storm"
  | keys => "kdf"
  | sealing => "aead"
  | handshake => "handshake"
  | fork => "fork"

def defaultPath : Suite → String
  | schema => "vectors/cbor_test_vectors.json"
  | chain => "vectors/corrupted_eare.json"
  | replay => "vectors/replay_poisoning.json"
  | storm => "vectors/replay_storm_profiles.json"
  | keys => "vectors/kdf_vectors.json"
  | sealing => "vectors/aead_vectors.json"
  | handshake => "vectors/end_to_end_test_vectors.json"
  | fork => "vectors/epoch_forks.json"

end Suite

inductive Command
  | suite (suite : Suite) (path : Option String)
  | diff (targets : Option String) (timeoutSecs : Nat)
  | compare (summaries : List String)
  deriving DecidableEq

structure Request where
  resultsDirectory : String
  language : String
  command : Command
  deriving DecidableEq

/-- Defaults that the environment may set. -/
structure Environment where
  resultsDirectory : Option String
  timeoutSecs : Option String

def defaultTimeoutSecs : Nat := 120

/-- Options with their values, and the words that are none. -/
structure Words where
  options : List (String × String)
  positional : List String

def globalOptions : List String :=
  ["--results-dir", "--language"]

/-- An option and its value in one word, joined by an equals sign. -/
def splitOption (word : String) : String × Option String :=
  let name := word.toList.takeWhile (· ≠ '=')
  match word.toList.drop name.length with
  | [] => (word, none)
  | _ :: value => (String.ofList name, some (String.ofList value))

def looksLikeOption (word : String) : Bool :=
  word.startsWith "-" && word ≠ "-"

/-- The value of an option, joined to it or in the next word, and the words after it. -/
def optionValue? (joined : Option String) (rest : List String) : Option (String × List String) :=
  match joined, rest with
  | some value, rest => some (value, rest)
  | none, [] => none
  | none, value :: rest => if looksLikeOption value then none else some (value, rest)

theorem length_of_optionValue? {joined : Option String} {rest after : List String} {value : String}
    (h : optionValue? joined rest = some (value, after)) : after.length ≤ rest.length := by
  unfold optionValue? at h
  split at h
  · simp_all
  · simp at h
  · split at h
    · simp at h
    · simp_all

/-- Takes an option that is one of some names off the front of the words. -/
def takeOption? (names : List String) (word : String) (rest : List String) :
    Option ((String × String) × { after : List String // after.length ≤ rest.length }) :=
  let (name, joined) := splitOption word
  if names.contains name then
    match h : optionValue? joined rest with
    | none => none
    | some (value, after) => some ((name, value), ⟨after, length_of_optionValue? h⟩)
  else none

/-- The options before the name of a command, and the words from that name on. -/
def leading (options : List (String × String)) : List String →
    Option (List (String × String) × String × List String)
  | [] => none
  | word :: rest =>
    if looksLikeOption word then
      match takeOption? globalOptions word rest with
      | none => none
      | some (option, ⟨after, _⟩) => leading (option :: options) after
    else some (options, word, rest)
termination_by words => words.length

/-- Sorts the words after the name of a command; after a double dash there are no options. -/
def trailing (names : List String) : List String → Option Words
  | [] => some ⟨[], []⟩
  | word :: rest =>
    if word = "--" then some ⟨[], rest⟩
    else if looksLikeOption word then
      match takeOption? names word rest with
      | none => none
      | some (option, ⟨after, _⟩) =>
        (trailing names after).map fun w => { w with options := option :: w.options }
    else (trailing names rest).map fun w => { w with positional := word :: w.positional }
termination_by words => words.length

/-- No option is stated twice at one place, and no path is empty. -/
def areSound (options : List (String × String)) : Bool :=
  let names := options.map (·.1)
  names.eraseDups.length == names.length
    && options.all fun (name, value) =>
      !((name == "--results-dir" || name == "--targets") && value == "")

/-- The directory of results. What the environment says must be sound unless both places override
it; the place after the name of the command wins. -/
def resultsDirectory? (env : Environment) (before after : List (String × String)) : Option String :=
  let stated := (after.lookup "--results-dir").or (before.lookup "--results-dir")
  let isOverridden :=
    (after.lookup "--results-dir").isSome && (before.lookup "--results-dir").isSome
  if env.resultsDirectory = some "" ∧ ¬ isOverridden then none
  else some ((stated.or env.resultsDirectory).getD "results")

/-- A number of seconds that fits 64 bits, with an optional plus sign. -/
def seconds? (text : String) : Option Nat :=
  let digits := match text.toList with
    | '+' :: rest => rest
    | chars => chars
  if digits = [] ∨ ¬ digits.all Char.isDigit then none
  else
    let n : Nat := digits.foldl (fun n c => n * 10 + (c.toNat - 48)) 0
    if Word.fits n then some n else none

/-- The options that may follow the name of a command. -/
def optionsAfter (name : String) : List String :=
  if name = "diff" then globalOptions ++ ["--targets", "--timeout-secs"] else globalOptions

def Command.of? (env : Environment) (name : String) (w : Words) : Option Command := do
  if w.positional.contains "" then none
  if name = "compare" then return .compare w.positional
  if name = "diff" then
    if w.positional ≠ [] then none
    let timeout ← match (w.options.lookup "--timeout-secs").or env.timeoutSecs with
      | none => some defaultTimeoutSecs
      | some stated => seconds? stated
    return .diff (w.options.lookup "--targets") timeout
  let suite ← Suite.all.find? (·.command == name)
  if 1 < w.positional.length then none
  return .suite suite w.positional.head?

/-- Reads a command line; nothing is run where it is not understood. -/
def Request.of? (env : Environment) (arguments : List String) : Option Request := do
  let (before, name, rest) ← leading [] arguments
  let w ← trailing (optionsAfter name) rest
  if ¬ (areSound before ∧ areSound w.options) then none
  let command ← Command.of? env name w
  let directory ← resultsDirectory? env before w.options
  let language := (w.options.lookup "--language").or (before.lookup "--language")
  return ⟨directory, language.getD Summary.ownLanguage, command⟩

end Conformance.CommandLine
