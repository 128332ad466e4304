import AudioIntake.Buffer.Pool
import AudioIntake.Pipeline.Queue
import AudioIntake.Pipeline.Timer
import AudioIntake.Sequencer.Admission
import AudioIntake.Transmitter

/-!
# The pipeline

One worker owns the sequencer. Commands reach it through a bounded queue; a timer drives its ticks
while a gap is open; the rerequests of a tick leave through a second bounded queue to a transmitter.
Delivered packets go to a consumer, which lets go of them, and a consumer that fails takes the
worker down with it. The pipeline moves by small actions, each of which does nothing when its time
has not come, so that any interleaving of its parties is a list of actions.
-/

namespace AudioIntake

inductive Command where
  | packet (packet : Packet)
  | flush
  | close

def Command.packets : Command → List Packet
  | .packet p => [p]
  | .flush => []
  | .close => []

inductive Phase where
  | running
  | stopped
  | failed
deriving DecidableEq

structure Journal where
  events : List (Nat × Event)
  delivered : List (Nat × Packet)
  handed : List Octets

def Journal.empty : Journal := { events := [], delivered := [], handed := [] }

structure Pipeline where
  maxLead : Int
  failsOn : Option SeqNo
  now : Nat
  pool : Pool
  queue : Queue Command
  sequencer : Sequencer
  timer : Timer
  /-- Whether a gap was open when the worker last looked. -/
  recovering : Bool
  /-- Rerequests of the last tick that are not yet in the outbox. -/
  pending : List Rerequest
  outbox : Queue Rerequest
  transmitter : Transmitter
  /-- The counts as of the last turn of the worker. -/
  published : Stats
  phase : Phase
  journal : Journal

namespace Pipeline

inductive Action where
  | submit (command : Command)
  | work
  | tick
  | offer
  | transmit
  | elapse (ms : Nat)

/-- The worker on its own, in front of an outbox that whoever starts it hands in. Builds the queue
and the timer, each of which refuses sizes it cannot have. -/
def spawn? (queueCapacity period : Nat) (maxLead : Int) (failsOn : Option SeqNo) (pool : Pool)
    (outbox : Queue Rerequest) (sequencer : Sequencer) : Option Pipeline := do
  let queue ← Queue.ofCapacity? queueCapacity
  let timer ← Timer.ofPeriod? period 0
  return {
    maxLead, failsOn, now := 0, pool, queue, sequencer, timer, recovering := false, pending := []
    outbox, transmitter := .start, published := sequencer.stats, phase := .running
    journal := .empty }

/-- The worker with a transmitter behind it, and the queue that joins them. -/
def build? (queueCapacity outboxCapacity period : Nat) (maxLead : Int) (failsOn : Option SeqNo)
    (pool : Pool) (sequencer : Sequencer) : Option Pipeline := do
  let outbox ← Queue.ofCapacity? outboxCapacity
  spawn? queueCapacity period maxLead failsOn pool outbox sequencer

def fails (p : Pipeline) (packet : Packet) : Bool := p.failsOn = some packet.seqno

def isReady (p : Pipeline) : Bool := p.phase = .running && p.pending.isEmpty

def letGo (p : Pipeline) (packets : List Packet) : Pipeline :=
  { p with pool := p.pool.releaseAll packets }

def note (p : Pipeline) (events : List Event) : Pipeline :=
  { p with
    journal :=
      { p.journal with events := p.journal.events ++ events.map fun e => (p.now, e) } }

def noteDelivered (p : Pipeline) (packets : List Packet) : Pipeline :=
  { p with
    journal :=
      { p.journal with
        delivered := p.journal.delivered ++ packets.map fun packet => (p.now, packet) } }

/-- A turn of the worker ends: the counts are published, and the timer starts anew if a gap has
opened. -/
def finishTurn (p : Pipeline) : Pipeline :=
  let open? := p.sequencer.inRecovery
  { p with
    published := p.sequencer.stats
    recovering := open?
    timer := if open? && !p.recovering then p.timer.reset p.now else p.timer }

def queued (p : Pipeline) : List Packet := p.queue.items.flatMap Command.packets

def eventsToFailure (p : Pipeline) : List Event → List Event
  | [] => []
  | .output packet :: events =>
    if p.fails packet then [.output packet] else .output packet :: p.eventsToFailure events
  | e :: events => e :: p.eventsToFailure events

/-- The consumer fails in the middle of a step. Whatever the worker had goes back to the pool, and
nothing more is published. -/
def fail (p : Pipeline) (next : Sequencer) (r : Report) : Pipeline :=
  let p := p.note (p.eventsToFailure r.events)
  let p := p.noteDelivered (r.delivered.takeWhile fun packet => !p.fails packet)
  let p := p.letGo (r.delivered ++ r.released ++ next.held.values ++ p.queued)
  { p with sequencer := next.forget, queue := p.queue.close, phase := .failed }

/-- A step of the sequencer is over, unless the consumer fails in it. -/
def absorb (p : Pipeline) (next : Sequencer) (r : Report) : Pipeline :=
  if r.delivered.any p.fails then p.fail next r
  else
    let p := ((p.note r.events).noteDelivered r.delivered).letGo (r.delivered ++ r.released)
    { p with sequencer := next, pending := r.requests }

/-- Ends the turn if the worker runs and has nothing left to hand over. -/
def finishIfIdle (p : Pipeline) : Pipeline := if p.isReady then p.finishTurn else p

/-- The worker stops. What it held and what waits behind goes back to the pool. -/
def stop (p : Pipeline) : Pipeline :=
  let (next, r) := p.sequencer.close
  let p := p.letGo (r.released ++ p.queued)
  { p with
    sequencer := next, queue := p.queue.close, published := next.stats, phase := .stopped }

/-- A command enters the queue, or is let go when the queue is closed. When there is no room it has
to wait, and nothing happens. -/
def submit (p : Pipeline) (c : Command) : Pipeline :=
  if !p.queue.isOpen then p.letGo c.packets
  else if p.queue.hasRoom then { p with queue := p.queue.push c }
  else p

def work (p : Pipeline) : Pipeline :=
  if p.isReady then
    match p.queue.items with
    | [] => p
    | c :: rest =>
      let p := { p with queue := { p.queue with items := rest } }
      match c with
      | .packet packet =>
        let (next, r) := p.sequencer.accept p.maxLead packet
        (p.absorb next r).finishIfIdle
      | .flush =>
        let (next, r) := p.sequencer.flush
        (p.absorb next r).finishIfIdle
      | .close => p.stop
  else p

/-- Whether the timer runs and the worker would heed it. -/
def awaitsTick (p : Pipeline) : Bool := p.isReady && p.recovering

def tickDue (p : Pipeline) : Bool := p.awaitsTick && p.timer.due ≤ p.now

def tick (p : Pipeline) : Pipeline :=
  if p.tickDue then
    let (next, r) := p.sequencer.tick
    ({ p with timer := p.timer.reset p.now }.absorb next r).finishIfIdle
  else p

/-- A rerequest enters the outbox, or is dropped when nobody takes rerequests. -/
def offer (p : Pipeline) : Pipeline :=
  match p.pending with
  | [] => p
  | r :: rest =>
    if !p.outbox.isOpen then { p with pending := rest }.finishIfIdle
    else if p.outbox.hasRoom then
      { p with outbox := p.outbox.push r, pending := rest }.finishIfIdle
    else p

def transmit (p : Pipeline) : Pipeline :=
  match p.outbox.items with
  | [] => p
  | r :: rest =>
    let (datagram, transmitter) := p.transmitter.encode r
    { p with
      outbox := { p.outbox with items := rest }
      transmitter
      journal := { p.journal with handed := p.journal.handed ++ [datagram] } }

def elapse (p : Pipeline) (ms : Nat) : Pipeline := { p with now := p.now + ms }

def act (p : Pipeline) : Action → Pipeline
  | .submit c => p.submit c
  | .work => p.work
  | .tick => p.tick
  | .offer => p.offer
  | .transmit => p.transmit
  | .elapse ms => p.elapse ms

def run (p : Pipeline) (actions : List Action) : Pipeline := actions.foldl act p

end Pipeline

end AudioIntake
