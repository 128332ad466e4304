import AudioIntake.Proofs.Positions
import AudioIntake.Sequencer.Basic

/-!
# A sequencer that never wraps

The same algorithm over positions in the stream, which are integers: maps are keyed by positions,
the distance between two of them is their difference, and the position behind one is one more. What
arrives is labelled with the position that its number stands for.
-/

namespace AudioIntake

namespace Unrolled

structure Labelled where
  position : Int
  packet : Packet
  seqno_eq : packet.seqno = SeqNo.ofPosition position

structure Rerequest where
  first : Int
  count : UInt16

inductive Event where
  | input (position : Int) (retransmitted : Bool) (disposition : Disposition)
  | output (packet : Packet)
  | rerequest (request : Rerequest) (level : Nat)
  | evict (first : Int) (count : Nat)
  | flush

def Rerequest.wrap (q : Rerequest) : AudioIntake.Rerequest :=
  { first := SeqNo.ofPosition q.first, count := q.count }

/-- The event with numbers in the place of positions. -/
def Event.wrap : Event → AudioIntake.Event
  | input position retransmitted disposition =>
    .input (SeqNo.ofPosition position) retransmitted disposition
  | output packet => .output packet
  | rerequest request level => .rerequest request.wrap level
  | evict first count => .evict (SeqNo.ofPosition first) count
  | flush => .flush

structure Report where
  events : List Event
  requests : List Rerequest
  released : List Packet

namespace Report

def empty : Report := { events := [], requests := [], released := [] }

def append (a b : Report) : Report :=
  { events := a.events ++ b.events
    requests := a.requests ++ b.requests
    released := a.released ++ b.released }

instance : Append Report := ⟨append⟩

def delivered (r : Report) : List Packet :=
  r.events.filterMap fun
    | .output packet => some packet
    | _ => none

end Report

structure Run where
  first : Int
  count : Nat
  level : Nat

namespace Run

def request (run : Run) : Rerequest := { first := run.first, count := UInt16.ofNat run.count }

def stop (run : Run) : Int := run.first + run.count

def positions (run : Run) : List Int := (List.range run.count).map fun i : Nat => run.first + i

def consMissing (position : Int) (level : Nat) : List Run → List Run
  | [] => [{ first := position, count := 1, level }]
  | run :: runs =>
    if run.first = position + 1 then
      { first := position, count := run.count + 1, level := min level run.level } :: runs
    else { first := position, count := 1, level } :: run :: runs

end Run

structure Sequencer where
  ladder : Ladder
  low : Int
  started : Bool
  closed : Bool
  held : Std.ExtTreeMap Int Packet
  retries : Std.ExtTreeMap Int Nat
  tally : Tally

namespace Sequencer

def ofLadder (ladder : Ladder) : Sequencer :=
  { ladder, low := 0, started := false, closed := false, held := ∅, retries := ∅, tally := .zero }

def stats (s : Sequencer) : Stats := { s.tally with held := s.held.size }

def low? (s : Sequencer) : Option Int := if s.started then some s.low else none

/-! ### Delivering -/

def advance (s : Sequencer) : Sequencer :=
  { s with low := s.low + 1, tally := { s.tally with delivered := s.tally.delivered + 1 } }

def deliverHeld (s : Sequencer) : Sequencer × List Packet :=
  match _h : s.held[s.low]? with
  | none => (s, [])
  | some p =>
    let (t, ps) := deliverHeld { s with held := s.held.erase s.low }.advance
    (t, p :: ps)
termination_by s.held.size
decreasing_by exact size_erase_lt _h

def settle (s : Sequencer) : Sequencer := if s.held.isEmpty then { s with retries := ∅ } else s

def drain (s : Sequencer) : Sequencer × List Packet :=
  let (t, ps) := s.deliverHeld
  (t.settle, ps)

/-! ### Packets -/

def countReceived (s : Sequencer) : Sequencer :=
  { s with tally := { s.tally with received := s.tally.received + 1 } }

def refusal (p : Labelled) (d : Disposition) : Report :=
  { events := [.input p.position p.packet.retransmitted d], requests := []
    released := [p.packet] }

def start (s : Sequencer) (position : Int) : Sequencer :=
  if s.started then s else { s with low := position, started := true }

def place (s : Sequencer) (p : Labelled) : Sequencer × Report :=
  let s := { s with retries := s.retries.erase p.position }
  let lead := p.position - s.low
  if lead = 0 then
    let (s, ps) := s.advance.drain
    (s, { events := .input p.position p.packet.retransmitted .delivered ::
            (p.packet :: ps).map .output
          requests := []
          released := [] })
  else if lead < 0 then
    ({ s with tally := { s.tally with stale := s.tally.stale + 1 } }, refusal p .stale)
  else if s.held.contains p.position then
    ({ s with tally := { s.tally with duplicates := s.tally.duplicates + 1 } },
      refusal p .duplicate)
  else
    ({ s with held := s.held.insert p.position p.packet },
      { events := [.input p.position p.packet.retransmitted .held], requests := []
        released := [] })

def handle (s : Sequencer) (p : Labelled) : Sequencer × Report :=
  if s.closed then (s, refusal p .closed)
  else
    let s := s.countReceived
    if !s.started && p.packet.retransmitted then
      ({ s with tally := { s.tally with notStarted := s.tally.notStarted + 1 } },
        refusal p .notStarted)
    else (s.start p.position).place p

def discard (s : Sequencer) (p : Labelled) : Sequencer × Report :=
  if s.closed then (s, { Report.empty with released := [p.packet] })
  else
    let s := s.countReceived
    ({ s with tally := { s.tally with stale := s.tally.stale + 1 } }, refusal p .stale)

/-! ### Ticks -/

def span (s : Sequencer) : Nat :=
  (s.held.keys.foldl (fun far position => max far (position - s.low)) 0).toNat

def window (s : Sequencer) : List Int := (List.range s.span).map fun o : Nat => s.low + o

def missing (s : Sequencer) : List Int := s.window.filter fun k => !s.held.contains k

def age (s : Sequencer) : Sequencer :=
  { s with retries := s.missing.foldl (fun r k => r.insert k (r.getD k 0 + 1)) s.retries }

def runsAmong (s : Sequencer) (ks : List Int) : List Run :=
  ks.foldr
    (fun k runs =>
      if s.held.contains k then runs else Run.consMissing k (s.retries.getD k 0) runs)
    []

def runs (s : Sequencer) : List Run := s.runsAmong s.window

def evict (s : Sequencer) (run : Run) : Sequencer × Report :=
  let s :=
    { s with
      retries := run.positions.foldl (fun r k => r.erase k) s.retries
      tally :=
        { s.tally with
          evictedGaps := s.tally.evictedGaps + 1
          evictedPackets := s.tally.evictedPackets + run.count } }
  if run.first = s.low then
    let (s, ps) := { s with low := run.stop }.drain
    (s, { events := .evict run.first run.count :: ps.map .output, requests := [], released := [] })
  else (s, { events := [.evict run.first run.count], requests := [], released := [] })

def escalate (s : Sequencer) (run : Run) : Sequencer × Report :=
  if s.ladder.giveUpAt ≤ run.level then s.evict run
  else if run.level ∈ s.ladder.rerequestAt then
    ({ s with tally := { s.tally with rerequests := s.tally.rerequests + 1 } },
      { events := [.rerequest run.request run.level], requests := [run.request], released := [] })
  else (s, .empty)

def escalateAll (s : Sequencer) : List Run → Sequencer × Report
  | [] => (s, .empty)
  | run :: runs =>
    let (s, r) := s.escalate run
    let (s, rs) := s.escalateAll runs
    (s, r ++ rs)

def tick (s : Sequencer) : Sequencer × Report :=
  if s.closed || s.held.isEmpty then (s, .empty)
  else
    let s := s.age
    s.escalateAll s.runs

/-! ### Starting over -/

def forget (s : Sequencer) : Sequencer := { s with held := ∅, retries := ∅, started := false }

def flush (s : Sequencer) : Sequencer × Report :=
  ({ s.forget with tally := { s.tally with flushes := s.tally.flushes + 1 } },
    { events := [.flush], requests := [], released := s.held.values })

def close (s : Sequencer) : Sequencer × Report :=
  ({ s.forget with closed := true }, { Report.empty with released := s.held.values })

/-! ### Runs of calls -/

inductive Call where
  | handle (packet : Labelled)
  | discard (packet : Labelled)
  | tick
  | flush
  | close

def Call.wrap : Call → AudioIntake.Sequencer.Call
  | handle p => .handle p.packet
  | discard p => .discard p.packet
  | tick => .tick
  | flush => .flush
  | close => .close

def call (s : Sequencer) : Call → Sequencer × Report
  | .handle p => s.handle p
  | .discard p => s.discard p
  | .tick => s.tick
  | .flush => s.flush
  | .close => s.close

def run (s : Sequencer) : List Call → Sequencer × Report
  | [] => (s, .empty)
  | c :: cs =>
    let (s, r) := s.call c
    let (s, rs) := s.run cs
    (s, r ++ rs)

/-- A packet handled while there is a delivery point lies close to it. -/
def Reaches (s : Sequencer) : Call → Prop
  | .handle p => s.started = true → (p.position - s.low).natAbs ≤ 8191
  | _ => True

def InReach (s : Sequencer) : List Call → Prop
  | [] => True
  | c :: cs => s.Reaches c ∧ (s.call c).1.InReach cs

instance (s : Sequencer) (c : Call) : Decidable (s.Reaches c) :=
  match c with
  | .handle p =>
    inferInstanceAs (Decidable (s.started = true → (p.position - s.low).natAbs ≤ 8191))
  | .discard _ => isTrue trivial
  | .tick => isTrue trivial
  | .flush => isTrue trivial
  | .close => isTrue trivial

instance decidableInReach (s : Sequencer) (cs : List Call) : Decidable (s.InReach cs) :=
  match cs with
  | [] => isTrue trivial
  | c :: cs =>
    have := decidableInReach (s.call c).1 cs
    inferInstanceAs (Decidable (s.Reaches c ∧ (s.call c).1.InReach cs))

end Sequencer

end Unrolled

end AudioIntake
