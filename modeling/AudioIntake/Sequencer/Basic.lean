import AudioIntake.Sequencer.Event

/-!
# The sequencer

Packets arrive in any order and leave in the order of their numbers. A packet ahead of a gap is
held. While anything is held, every tick counts up the retry counter of each number missing in
front of the newest held packet; runs of missing numbers are asked for again at the levels of a
ladder and given up at its end, so that what waits behind them can leave.
-/

namespace AudioIntake

/-- The retry levels at which a run of missing packets is asked for, and the one at which it is
given up. -/
structure Ladder where
  rerequestAt : List Nat
  giveUpAt : Nat
deriving DecidableEq

structure Tally where
  received : Nat
  delivered : Nat
  stale : Nat
  duplicates : Nat
  notStarted : Nat
  rerequests : Nat
  evictedGaps : Nat
  evictedPackets : Nat
  flushes : Nat
deriving DecidableEq

def Tally.zero : Tally := ⟨0, 0, 0, 0, 0, 0, 0, 0, 0⟩

structure Stats extends Tally where
  held : Nat
deriving DecidableEq

/-- Consecutive missing numbers, and the least of their retry counters. -/
structure Run where
  first : SeqNo
  count : Nat
  level : Nat
deriving DecidableEq

namespace Run

def request (run : Run) : Rerequest := { first := run.first, count := UInt16.ofNat run.count }

def stop (run : Run) : SeqNo := run.first + run.count

def seqnos (run : Run) : List SeqNo := (List.range run.count).map (run.first + ·)

/-- Puts a missing number in front of runs that lie ahead of it. It joins the first of them when
nothing lies between. -/
def consMissing (seqno : SeqNo) (level : Nat) : List Run → List Run
  | [] => [{ first := seqno, count := 1, level }]
  | run :: runs =>
    if run.first = seqno.next then
      { first := seqno, count := run.count + 1, level := min level run.level } :: runs
    else { first := seqno, count := 1, level } :: run :: runs

end Run

structure Sequencer where
  ladder : Ladder
  /-- The number due next, once the stream has begun. -/
  low : SeqNo
  started : Bool
  closed : Bool
  /-- Packets that are early, each under its own number. -/
  held : Std.ExtTreeMap SeqNo Packet
  /-- For how many ticks a number has been missing. -/
  retries : Std.ExtTreeMap SeqNo Nat
  tally : Tally

theorem size_erase_lt {κ β : Type} [Ord κ] [Std.TransOrd κ] {m : Std.ExtTreeMap κ β} {k : κ} {v : β}
    (h : m[k]? = some v) : (m.erase k).size < m.size := by
  obtain ⟨mem, -⟩ := Std.ExtTreeMap.getElem?_eq_some_iff.mp h
  have positive : m.size ≠ 0 := by
    intro zero
    rw [Std.ExtTreeMap.eq_empty_iff_size_eq_zero.mpr zero] at mem
    exact Std.ExtTreeMap.not_mem_empty mem
  rw [Std.ExtTreeMap.size_erase, if_pos (Std.ExtTreeMap.contains_iff_mem.mpr mem)]
  omega

namespace Sequencer

def ofLadder (ladder : Ladder) : Sequencer :=
  { ladder, low := SeqNo.ofNat 0, started := false, closed := false, held := ∅, retries := ∅
    tally := .zero }

def stats (s : Sequencer) : Stats := { s.tally with held := s.held.size }

def low? (s : Sequencer) : Option SeqNo := if s.started then some s.low else none

def lead? (s : Sequencer) (seqno : SeqNo) : Option Int :=
  if s.started then some (seqno.delta s.low) else none

/-- Whether a gap is open, so that ticks are needed. -/
def inRecovery (s : Sequencer) : Bool := !s.held.isEmpty

/-! ### Delivering -/

def advance (s : Sequencer) : Sequencer :=
  { s with low := s.low.next, tally := { s.tally with delivered := s.tally.delivered + 1 } }

def deliverHeld (s : Sequencer) : Sequencer × List Packet :=
  match _h : s.held[s.low]? with
  | none => (s, [])
  | some p =>
    let (t, ps) := deliverHeld { s with held := s.held.erase s.low }.advance
    (t, p :: ps)
termination_by s.held.size
decreasing_by exact size_erase_lt _h

/-- Without held packets there is nothing to wait for. -/
def settle (s : Sequencer) : Sequencer := if s.held.isEmpty then { s with retries := ∅ } else s

def drain (s : Sequencer) : Sequencer × List Packet :=
  let (t, ps) := s.deliverHeld
  (t.settle, ps)

/-! ### Packets -/

def countReceived (s : Sequencer) : Sequencer :=
  { s with tally := { s.tally with received := s.tally.received + 1 } }

def refusal (p : Packet) (d : Disposition) : Report :=
  { events := [.input p.seqno p.retransmitted d], requests := [], released := [p] }

/-- A primary packet sets the delivery point if there is none. -/
def start (s : Sequencer) (seqno : SeqNo) : Sequencer :=
  if s.started then s else { s with low := seqno, started := true }

def place (s : Sequencer) (p : Packet) : Sequencer × Report :=
  let s := { s with retries := s.retries.erase p.seqno }
  let lead := p.seqno.delta s.low
  if lead = 0 then
    let (s, ps) := s.advance.drain
    (s, { events := .input p.seqno p.retransmitted .delivered :: (p :: ps).map .output
          requests := []
          released := [] })
  else if lead < 0 then
    ({ s with tally := { s.tally with stale := s.tally.stale + 1 } }, refusal p .stale)
  else if s.held.contains p.seqno then
    ({ s with tally := { s.tally with duplicates := s.tally.duplicates + 1 } },
      refusal p .duplicate)
  else
    ({ s with held := s.held.insert p.seqno p },
      { events := [.input p.seqno p.retransmitted .held], requests := [], released := [] })

def handle (s : Sequencer) (p : Packet) : Sequencer × Report :=
  if s.closed then (s, refusal p .closed)
  else
    let s := s.countReceived
    if !s.started && p.retransmitted then
      ({ s with tally := { s.tally with notStarted := s.tally.notStarted + 1 } },
        refusal p .notStarted)
    else (s.start p.seqno).place p

/-- Lets a packet go unseen and counts it as stale. -/
def discard (s : Sequencer) (p : Packet) : Sequencer × Report :=
  if s.closed then (s, { Report.empty with released := [p] })
  else
    let s := s.countReceived
    ({ s with tally := { s.tally with stale := s.tally.stale + 1 } }, refusal p .stale)

/-! ### Ticks -/

/-- The distance to the newest held packet. -/
def span (s : Sequencer) : Nat :=
  (s.held.keys.foldl (fun far seqno => max far (SeqNo.delta seqno s.low)) 0).toNat

/-- The numbers from the delivery point up to the newest held packet. -/
def window (s : Sequencer) : List SeqNo := (List.range s.span).map (s.low + ·)

def missing (s : Sequencer) : List SeqNo := s.window.filter fun n => !s.held.contains n

def age (s : Sequencer) : Sequencer :=
  { s with retries := s.missing.foldl (fun r n => r.insert n (r.getD n 0 + 1)) s.retries }

def runs (s : Sequencer) : List Run :=
  s.window.foldr
    (fun n runs =>
      if s.held.contains n then runs else Run.consMissing n (s.retries.getD n 0) runs)
    []

/-- Gives a run up. If it begins at the delivery point, what waits behind it is delivered. -/
def evict (s : Sequencer) (run : Run) : Sequencer × Report :=
  let s :=
    { s with
      retries := run.seqnos.foldl (fun r n => r.erase n) s.retries
      tally :=
        { s.tally with
          evictedGaps := s.tally.evictedGaps + 1
          evictedPackets := s.tally.evictedPackets + run.count } }
  if run.first = s.low then
    let (s, ps) := { s with low := run.stop }.drain
    (s, { events := .evict run.first run.count :: ps.map .output, requests := [], released := [] })
  else (s, { events := [.evict run.first run.count], requests := [], released := [] })

def escalate (s : Sequencer) (run : Run) : Sequencer × Report :=
  if s.ladder.giveUpAt ≤ run.level then s.evict run
  else if run.level ∈ s.ladder.rerequestAt then
    ({ s with tally := { s.tally with rerequests := s.tally.rerequests + 1 } },
      { events := [.rerequest run.request run.level], requests := [run.request], released := [] })
  else (s, .empty)

def escalateAll (s : Sequencer) : List Run → Sequencer × Report
  | [] => (s, .empty)
  | run :: runs =>
    let (s, r) := s.escalate run
    let (s, rs) := s.escalateAll runs
    (s, r ++ rs)

def tick (s : Sequencer) : Sequencer × Report :=
  if s.closed || s.held.isEmpty then (s, .empty)
  else
    let s := s.age
    s.escalateAll s.runs

/-! ### Starting over -/

def forget (s : Sequencer) : Sequencer := { s with held := ∅, retries := ∅, started := false }

/-- Forgets everything; the next primary packet sets the delivery point. -/
def flush (s : Sequencer) : Sequencer × Report :=
  ({ s.forget with tally := { s.tally with flushes := s.tally.flushes + 1 } },
    { events := [.flush], requests := [], released := s.held.values })

def close (s : Sequencer) : Sequencer × Report :=
  ({ s.forget with closed := true }, { Report.empty with released := s.held.values })

/-! ### Runs of calls -/

inductive Call where
  | handle (packet : Packet)
  | discard (packet : Packet)
  | tick
  | flush
  | close

def call (s : Sequencer) : Call → Sequencer × Report
  | .handle p => s.handle p
  | .discard p => s.discard p
  | .tick => s.tick
  | .flush => s.flush
  | .close => s.close

def run (s : Sequencer) : List Call → Sequencer × Report
  | [] => (s, .empty)
  | c :: cs =>
    let (s, r) := s.call c
    let (s, rs) := s.run cs
    (s, r ++ rs)

end Sequencer

end AudioIntake
