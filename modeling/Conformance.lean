import Conformance.Canonical.Decoding
import Conformance.Files.Tree
import Conformance.Main
import Conformance.Agreement.Outcome
import Conformance.Proofs.Canonical.MessageEncoding
import Conformance.Proofs.ClientToken.SingleUse
import Conformance.Proofs.EpochChain.Verdict
import Conformance.Proofs.EpochFork.Detection
import Conformance.Proofs.Message.Validation
import Conformance.Proofs.Replay.Window
import Conformance.Proofs.Sealing.Message
import Conformance.Proofs.Summary
import Conformance.Proofs.Agreement.Divergence
import Conformance.Proofs.ClientToken.Content
import Conformance.Proofs.ClientToken.Interference
import Conformance.Proofs.Handshake
import Conformance.Proofs.KeySchedule.MediaFrames
import Conformance.Proofs.Replay.Storm
import Conformance.Proofs.EpochFork.Reconciliation
import Conformance.Proofs.Runner
import Conformance.Proofs.Message.Hashing
import Conformance.Proofs.EpochFork.Verdict
import Conformance.Proofs.Canonical.Duplicates
import Conformance.Proofs.Agreement.Aggregate
import Conformance.Proofs.Agreement.Reordering
import Conformance.Proofs.Agreement.OwnVerdict
import Conformance.Proofs.Canonical.Rearrangement
import Conformance.Proofs.Canonical.PrefixFree
import Conformance.Proofs.Text.Base64.Exact
import Conformance.Proofs.Text.Hex
import Conformance.Proofs.EpochChain.View
import Conformance.Proofs.EpochChain.Listing
import Conformance.Proofs.EpochChain.Tampering
import Conformance.Proofs.EpochFork.Timing
import Conformance.Proofs.EpochFork.Refusal
import Conformance.Proofs.Poisoning.Drift
import Conformance.Proofs.Poisoning.Timeline
import Conformance.Proofs.Replay.Traffic
import Conformance.Proofs.KeySchedule.Expansion
import Conformance.Proofs.Poisoning.Naming
import Conformance.Proofs.Sealing.Vectors
import Conformance.Proofs.KeySchedule.Vectors
import Conformance.Proofs.Replay.Retention
import Conformance.Proofs.EpochChain.Notes
import Conformance.Proofs.Canonical.HeaderForms
import Conformance.Proofs.Canonical.CountGuard
import Conformance.Proofs.EpochFork.Depth
