import AudioIntake.Buffer.Shelf
import AudioIntake.IntakeError
import AudioIntake.Link
import AudioIntake.Sequencer.Pooled
import AudioIntake.Session.Settled
import AudioIntake.Settings.Draft
import AudioIntake.Proofs.Distance
import AudioIntake.Proofs.Buffer.Loans
import AudioIntake.Proofs.Sequencer.Order
import AudioIntake.Proofs.Sequencer.Drain
import AudioIntake.Proofs.Sequencer.Sound
import AudioIntake.Proofs.Sequencer.Tiling
import AudioIntake.Proofs.Sequencer.Sweep
import AudioIntake.Proofs.Sequencer.Tick
import AudioIntake.Proofs.Sequencer.Calls
import AudioIntake.Proofs.Sequencer.Accounting
import AudioIntake.Proofs.Sequencer.RetryLadder
import AudioIntake.Proofs.Sequencer.Latency
import AudioIntake.Proofs.Sequencer.Unrolled
import AudioIntake.Proofs.Sequencer.Mirror
import AudioIntake.Proofs.Sequencer.Wrapping
import AudioIntake.Proofs.Sequencer.Arrivals
import AudioIntake.Proofs.Sequencer.Turns
import AudioIntake.Proofs.Sequencer.Window
import AudioIntake.Proofs.Sequencer.Ascent
import AudioIntake.Proofs.Pipeline.Actions
import AudioIntake.Proofs.Pipeline.Window
import AudioIntake.Proofs.Pipeline.LoneGap
import AudioIntake.Proofs.Pipeline.Ascent
import AudioIntake.Proofs.Pipeline.Resync
import AudioIntake.Proofs.Sequencer.Custody
import AudioIntake.Proofs.Sequencer.Ledger
import AudioIntake.Proofs.Pipeline.Custody
import AudioIntake.Proofs.Pipeline.Shutdown
import AudioIntake.Proofs.Session.Loops
import AudioIntake.Proofs.Wire.Octets
import AudioIntake.Proofs.Wire.Rerequest
import AudioIntake.Proofs.Session.Ownership
import AudioIntake.Proofs.Pipeline.Ending
import AudioIntake.Proofs.Session.Teardown
import AudioIntake.Proofs.Session.Provenance
import AudioIntake.Proofs.Sequencer.Asking
import AudioIntake.Pipeline.Sink
import AudioIntake.Proofs.Pipeline.Forwarding
import AudioIntake.Proofs.Session.Rerequests
import AudioIntake.Proofs.Session.Starting
import AudioIntake.Proofs.Sequencer.Consistency
import AudioIntake.Proofs.Sequencer.Restart
import AudioIntake.Proofs.Sequencer.NearestGap
import AudioIntake.Proofs.Settings.Rungs
import AudioIntake.Proofs.Sequencer.Climb
import AudioIntake.Proofs.Pipeline.Steps
import AudioIntake.Proofs.Pipeline.Stretches
import AudioIntake.Proofs.Pipeline.Waiting
import AudioIntake.Proofs.Pipeline.Timing
import AudioIntake.Proofs.Sequencer.Copies
import AudioIntake.Proofs.Sequencer.Walk
import AudioIntake.Proofs.Wire.Header
import AudioIntake.Proofs.Wire.ControlMessage
import AudioIntake.Proofs.Wire.Replies
import AudioIntake.Proofs.Buffer.Books
import AudioIntake.Proofs.Buffer.Shelves
import AudioIntake.Proofs.Address.IPv6
import AudioIntake.Proofs.Address.Endpoint
import AudioIntake.Proofs.Json.Grammar
import AudioIntake.Proofs.Json.Tokens
import AudioIntake.Proofs.Json.Skipping
import AudioIntake.Proofs.Settings.Spelling
import AudioIntake.Proofs.Settings.Extents
import AudioIntake.Proofs.Settings.Documents
import AudioIntake.Proofs.Settings.RoundTrip
import AudioIntake.Proofs.Sequencer.Counts
import AudioIntake.Proofs.Session.Counts
import AudioIntake.Proofs.Pipeline.Schedule
import AudioIntake.Proofs.Pipeline.Settling
import AudioIntake.Proofs.Session.Schedule
