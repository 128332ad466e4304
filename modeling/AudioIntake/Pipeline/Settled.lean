import AudioIntake.Pipeline.Basic
import AudioIntake.Settings.Stream
import AudioIntake.Verdict

/-!
# A pipeline that settles between steps

Schedules of actions for callers that wait until nothing is left to do: every queued command has
been worked off, every rerequest has gone out, and every tick due by now has happened.
-/

namespace AudioIntake

inductive StartError where
  | invalid (setting : InvalidSetting)
  /-- A queue or the timer cannot be built in the size the settings ask for. -/
  | unbuildable
deriving DecidableEq

namespace Pipeline

/-- The settings are checked, and then a worker is built with a transmitter behind it. -/
def start (settings : StreamSettings) (failsOn : Option SeqNo) (pool : Pool) :
    Except StartError Pipeline :=
  match settings.check with
  | .error setting => .error (.invalid setting)
  | .ok () =>
    match build? settings.queueCapacity.toNat settings.rerequestQueueCapacity.toNat
        settings.tickIntervalMs.toNat settings.maxLead.toInt failsOn pool settings.sequencer with
    | some p => .ok p
    | none => .error .unbuildable

def withoutTransmitter (p : Pipeline) : Pipeline := { p with outbox := p.outbox.close }

def turnPage (p : Pipeline) : Pipeline := { p with journal := .empty }

def relay (p : Pipeline) : Pipeline := p.offer.transmit

def relayAll (p : Pipeline) : Pipeline := Nat.repeat relay p.pending.length p

def die (p : Pipeline) : Pipeline := p.fail p.sequencer .empty

/-- The worker sets the alarm for its next tick. It does not survive that if the clock refuses. -/
def armTimer (p : Pipeline) : Pipeline :=
  if p.awaitsTick then
    match p.timer.arm? p.now with
    | some timer => { p with timer }
    | none => p.die
  else p

def heedAlarm (p : Pipeline) : Pipeline :=
  if p.timer.slot.isSome then p else p.tick.relayAll.armTimer

def settle (p : Pipeline) : Pipeline :=
  Nat.repeat (fun p => p.work.armTimer.heedAlarm) p.queue.items.length p

def doze (p : Pipeline) (sleeper : Alarm) : Pipeline × Option Alarm :=
  match if p.phase = .running then p.timer.alarm? else none with
  | none => ({ p with now := sleeper.goesOff p.now }, none)
  | some alarm =>
    let (now, sleeper, alarm) := sleeper.waitEither alarm p.now
    ({ p with now, timer := { p.timer with slot := alarm.map Alarm.slot } }, sleeper)

/-- Lets alarms go off, a given number of times at most, until the sleeper's does. -/
def sleepOn (p : Pipeline) (sleeper : Alarm) : Nat → Pipeline
  | 0 => p.elapse (sleeper.due - p.now)
  | times + 1 =>
    match p.doze sleeper with
    | (p, none) => p.heedAlarm
    | (p, some sleeper) => p.heedAlarm.sleepOn sleeper times

/-- While nothing arrives, each tick takes every open gap a level up, and no gap outlives its last
level. So no more alarms than these go off in one sleep, the sleeper's own among them. -/
def alarmsPerSleep (p : Pipeline) : Nat := p.sequencer.ladder.giveUpAt + 2

/-- Milliseconds go by, with every tick that falls due in them. A tick due at the very end belongs
to them. The sleep is over when the clock lets the sleeper's alarm go off, which may be later, and
there is none if the clock refuses that alarm. -/
def sleep? (p : Pipeline) (ms : Nat) : Option Pipeline :=
  (Alarm.set? p.now (p.now + ms)).map fun sleeper =>
    if sleeper.due ≤ p.now then p else p.sleepOn sleeper p.alarmsPerSleep

/-- A submitter gives way to the worker after this many commands in a row. -/
def burst : Nat := 128

/-- Submits a command and says whether it was taken. A submitter that finds the queue full waits, and
one whose burst is over gives way; the worker then works off the whole queue, and may be gone
afterwards. -/
def submitWaiting (p : Pipeline) (c : Command) : Pipeline × Bool :=
  let p := if p.queue.items.length < min p.queue.capacity burst then p else p.settle
  (p.submit c, p.queue.isOpen)

def submitAll (p : Pipeline) (cs : List Command) : Pipeline × Bool :=
  cs.foldl (fun (p, _) c => p.submitWaiting c) (p, true)

def submitSettled (p : Pipeline) (c : Command) : Pipeline × Bool :=
  let (p, taken) := p.submitWaiting c
  (p.settle, taken)

def lend (p : Pipeline) (seqnos : List SeqNo) (retransmitted : Bool) : Pipeline × List Packet :=
  let (pool, packets) := seqnos.foldl
    (fun (pool, packets) seqno =>
      let (packet, pool) := pool.acquire
      (pool, (packet.setSeqno seqno).setRetransmitted retransmitted :: packets))
    (p.pool, [])
  ({ p with pool }, packets.reverse)

/-- Takes all the packets from the pool before the first of them is submitted. -/
def submitPackets (p : Pipeline) (seqnos : List SeqNo) (retransmitted : Bool) : Pipeline × Bool :=
  let (p, packets) := p.lend seqnos retransmitted
  let (p, taken) := p.submitAll (packets.map .packet)
  (p.settle, taken)

/-- Submits packets right behind a close, so that they are never looked at. -/
def closeBefore (p : Pipeline) (seqnos : List SeqNo) : Pipeline :=
  let (p, packets) := p.lend seqnos false
  (p.submitAll (.close :: packets.map .packet)).1.settle

def receive (p : Pipeline) (judge : Packet → Judgement) (datagram : Octets) :
    Pipeline × Verdict × Bool :=
  let (packet, pool) := p.pool.acquire
  let p := { p with pool }
  let packet := packet.receive datagram
  match (judge packet).verdict with
  | .sequence audio =>
    let (p, taken) := p.submitSettled (.packet audio)
    (p, .sequence audio, taken)
  | .flush =>
    let (p, taken) := (p.letGo [packet]).submitSettled .flush
    (p, .flush, taken)
  | .discard => (p.letGo [packet], .discard, true)

end Pipeline

end AudioIntake
