import Conformance.Agreement.Divergence
import Conformance.Agreement.Launch
import Conformance.CommandLine.Request
import Conformance.EpochChain.Verdict
import Conformance.EpochFork.Verdict
import Conformance.Files.Disk
import Conformance.Handshake
import Conformance.Poisoning.Sections
import Conformance.Sealing.Vectors
/-!
# Commands

What a request prints and how it exits, over a disk on which it looks up files
and leaves its results, and a launcher by which it runs other implementations. A
suite prints one line for every scenario and a last line with its verdict, which
is also its exit code.
-/
namespace Conformance.CommandLine
open Conformance Files

/-- What a command leaves behind besides files: its exit code, its lines and its error. -/
structure Outcome where
  exitCode : Nat
  lines : List String
  error : Option String

/-- A failed command shows the error that ended it. -/
def Outcome.failed (lines : List String) (error : String) : Outcome :=
  ⟨1, lines, some error⟩

/-- What is printed: every line is ended by a newline. -/
def Outcome.printed (o : Outcome) : String :=
  String.join (o.lines.map (· ++ "\n"))

def exitCode (success : Bool) : Nat :=
  if success then 0 else 1

def runCorpus {α : Type} (corpus : Corpus α) (run : α → Except Fault Summary) (text : String) :
    Except Fault (Except Fault Summary) :=
  match corpus.parse text with
  | .ok content => .ok (run content)
  | .error refusal => .error refusal.fault

/-- Reads a corpus and runs it; the outer fault is one of reading. -/
def Suite.run : Suite → String → Except Fault (Except Fault Summary)
  | .schema => runCorpus Message.VectorSet.corpus Message.VectorSet.run
  | .chain => runCorpus EpochChain.corpus EpochChain.run
  | .replay => runCorpus Poisoning.Sections.corpus Poisoning.Sections.run
  | .storm => runCorpus Replay.ProfileSet.corpus Replay.ProfileSet.run
  | .keys => runCorpus KeySchedule.VectorSet.corpus KeySchedule.VectorSet.run
  | .sealing => runCorpus Sealing.VectorSet.corpus Sealing.VectorSet.run
  | .handshake => runCorpus Handshake.Flow.corpus Handshake.Flow.run
  | .fork => runCorpus EpochFork.corpus EpochFork.run

/-- The summary of the corpus under a path, whose faults of reading name the path. -/
def Suite.summary (suite : Suite) (path : String) (found : Except Refusal Entry) :
    Except Fault Summary :=
  match Files.text found with
  | .error reason => .error (Fault.within path ⟨.corpus, reason⟩)
  | .ok text =>
    match suite.run text with
    | .error fault => .error (fault.within path)
    | .ok result => result

def scenarioLine (r : Report) : String :=
  if r.passed then "PASS " ++ r.scenarioId
  else "FAIL " ++ r.scenarioId ++ ": " ++ String.intercalate "; " r.failures

def verdictLine (s : Summary) : String :=
  if s.allPassed then s!"All {s.scenarioCount} scenarios passed ({s.suite})"
  else s!"{s.failed} of {s.scenarioCount} scenarios failed ({s.suite})"

section
variable {m : Type → Type} [Monad m]

/-- Writes the result of a command, with the directories that lead to it. -/
def save (disk : Disk m) (path : String) (content : Json.Document) : m (Except String Unit) := do
  let parent := Path.parent path
  match ← disk.ensurePath parent with
  | .error _ => return .error s!"creating {parent}"
  | .ok _ =>
    match ← disk.write path (Bytes.ofString (content.indented 0)) with
    | .error _ => return .error s!"writing {path}"
    | .ok _ => return .ok ()

/-- Ends a command by writing its one file. -/
def writing (disk : Disk m) (path : String) (content : Json.Document) (code : Nat)
    (written before : List String) : m Outcome := do
  match ← save disk path content with
  | .error reason => return .failed before reason
  | .ok _ => return ⟨code, written, none⟩

def runSuite (disk : Disk m) (request : Request) (suite : Suite) (path : Option String) :
    m Outcome := do
  let path := path.getD suite.defaultPath
  match suite.summary path (← disk.look path) with
  | .error fault => return .failed [] fault.message
  | .ok summary =>
    let summary := { summary with language := request.language }
    let lines := summary.scenarios.map scenarioLine
    let name := summary.language ++ "_" ++ summary.suite ++ "_summary.json"
    writing disk (Path.join request.resultsDirectory name) summary.document
      (exitCode summary.allPassed) (lines ++ [verdictLine summary]) lines

/-- The summaries to compare: those named, or all in the directory of results. -/
def summaryPaths (disk : Disk m) (request : Request) (paths : List String) :
    m (Except String (List String)) := do
  if paths ≠ [] then return .ok paths
  else
    match ← disk.look request.resultsDirectory with
    | .ok (.directory names) =>
      let found := (names.filter (·.endsWith "_summary.json")).mergeSort (· ≤ ·)
      if found = [] then return .error "no summaries to compare"
      else return .ok (found.map (Path.join request.resultsDirectory))
    | _ => return .error s!"reading {request.resultsDirectory}"

def readSummary (path : String) (found : Except Refusal Entry) : Except String Summary :=
  match Files.text found with
  | .error _ => .error s!"reading {path}"
  | .ok text =>
    match Summary.reader.read? text with
    | some summary => .ok summary
    | none => .error s!"parsing {path}"

def readSummaries (disk : Disk m) : List String → m (Except String (List Summary))
  | [] => return .ok []
  | path :: rest => do
    match readSummary path (← disk.look path) with
    | .error reason => return .error reason
    | .ok summary => return (← readSummaries disk rest).map (summary :: ·)

/-- Prints every divergence and their number, and saves them. -/
def reportDivergences (disk : Disk m) (request : Request) (summaries : List Summary) :
    m Outcome :=
  let found := Agreement.divergences summaries
  let lines := found.map (fun d => "DIVERGE " ++ d.display)
    ++ [s!"{summaries.length} summaries compared, {found.length} divergences"]
  writing disk (Path.join request.resultsDirectory "verdict_agreement.json")
    (.list (found.map Agreement.Divergence.document)) (exitCode found.isEmpty) lines lines

def runCompare (disk : Disk m) (request : Request) (paths : List String) : m Outcome := do
  match ← summaryPaths disk request paths with
  | .error reason => return .failed [] reason
  | .ok paths =>
    match ← readSummaries disk paths with
    | .error reason => return .failed [] reason
    | .ok summaries => reportDivergences disk request summaries

def readTargets (path : String) (found : Except Refusal Entry) :
    Except Fault (List Agreement.Target) :=
  match Files.text found with
  | .error reason => .error (Fault.within path ⟨.environment, reason⟩)
  | .ok text =>
    match Agreement.Target.parseList? text with
    | none => .error ⟨.environment, path⟩
    | some [] => .error (Fault.within path ⟨.environment, "no targets listed"⟩)
    | some targets => .ok targets

def outcomeLine (o : Agreement.Outcome) : String :=
  if o.success then "PASS " ++ o.language
  else "FAIL " ++ o.language ++ ": " ++ o.errors.head?.getD ""

def runDiff (disk : Disk m) (launch : Agreement.Launcher m) (request : Request)
    (targets : Option String) (timeoutSecs : Nat) : m Outcome := do
  let targets ← match targets with
    | none => pure (.ok Agreement.defaultTargets)
    | some path => do
      let found ← disk.look path
      pure (readTargets path found)
  match targets with
  | .error fault => return .failed [] fault.message
  | .ok targets =>
    let aggregate ← Agreement.runAll launch (timeoutSecs * 1000) targets
    let lines := aggregate.results.map (fun (_, o) => outcomeLine o)
      ++ [s!"{aggregate.passed}/{aggregate.total} languages successful"]
    writing disk (Path.join request.resultsDirectory "cross_language_validation_results.json")
      aggregate.document (exitCode aggregate.allPassed) lines lines

def Request.run (disk : Disk m) (launch : Agreement.Launcher m) (request : Request) : m Outcome :=
  match request.command with
  | .suite suite path => runSuite disk request suite path
  | .diff targets timeoutSecs => runDiff disk launch request targets timeoutSecs
  | .compare paths => runCompare disk request paths

/-- A command line that is not understood exits with 2 and does nothing. -/
def runWith (disk : Disk m) (launch : Agreement.Launcher m) (env : Environment)
    (arguments : List String) : m Outcome :=
  match Request.of? env arguments with
  | none => return ⟨2, [], none⟩
  | some request => request.run disk launch

end
end Conformance.CommandLine
