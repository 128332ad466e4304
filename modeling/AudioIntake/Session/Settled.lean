import AudioIntake.Session.Basic
import AudioIntake.Settings.Session

/-!
# A session that settles between steps

What a caller does with a session, waiting each time until nothing is left to do. Datagrams reach
the session through the host, which may refuse to carry them.
-/

namespace AudioIntake

/-- What the host does with datagrams sent to a session. -/
inductive Host where
  | carries
  | refuses
deriving DecidableEq

inductive SessionError where
  | start (error : StartError)
  | portTaken (channel : Channel)
  | sendRefused
  /-- The clock takes no alarm for the end of a sleep. -/
  | sleepRefused
deriving DecidableEq

namespace Session

variable {α : Type}

inductive Step (α : Type) where
  | datagram (channel : Channel) (content : Octets) (source : α)
  | flush
  | sleep (ms : Nat)

def start (settings : StreamSettings) (maxIdleBuffers : Nat) (peer : Option α)
    (taken : Option Channel) (failsOn : Option SeqNo) : Except SessionError (Session α) :=
  match settings.check with
  | .error setting => .error (.start (.invalid setting))
  | .ok () =>
    match taken with
    | some channel => .error (.portTaken channel)
    | none =>
      match Pipeline.start settings failsOn (.ofSize Pool.defaultBufferSize maxIdleBuffers) with
      | .error e => .error (.start e)
      | .ok pipeline => .ok (ofPipeline pipeline peer)

def relay (s : Session α) : Session α := { s with pipeline := s.pipeline.offer }.transmit

def relayAll (s : Session α) : Session α := Nat.repeat relay s.pipeline.pending.length s

def armTimer (s : Session α) : Session α := { s with pipeline := s.pipeline.armTimer }

def heedAlarm (s : Session α) : Session α :=
  if s.pipeline.timer.slot.isSome then s
  else { s with pipeline := s.pipeline.tick }.relayAll.armTimer

def settle (s : Session α) : Session α :=
  Nat.repeat (fun s => { s with pipeline := s.pipeline.work }.armTimer.heedAlarm)
    s.pipeline.queue.items.length s

def sleepOn (s : Session α) (sleeper : Alarm) : Nat → Session α
  | 0 => { s with pipeline := s.pipeline.elapse (sleeper.due - s.pipeline.now) }
  | times + 1 =>
    match s.pipeline.doze sleeper with
    | (pipeline, none) => { s with pipeline }.heedAlarm
    | (pipeline, some sleeper) => { s with pipeline }.heedAlarm.sleepOn sleeper times

/-- Milliseconds go by, with every tick that falls due in them, unless the clock refuses. -/
def sleep? (s : Session α) (ms : Nat) : Option (Session α) :=
  let now := s.pipeline.now
  (Alarm.set? now (now + ms)).map fun sleeper =>
    if sleeper.due ≤ now then s else s.sleepOn sleeper s.pipeline.alarmsPerSleep

def submit (s : Session α) (c : Command) : Session α × Bool :=
  let (pipeline, taken) := s.pipeline.submitWaiting c
  ({ s with pipeline }.settle, taken)

/-- Takes a step and says whether the worker took what the step submitted. -/
def step (s : Session α) (host : Host) : Step α → Except SessionError (Session α × Bool)
  | .datagram channel content source =>
    match host with
    | .carries => .ok (((s.arrive channel content source).hand channel).settle, true)
    | .refuses => .error .sendRefused
  | .flush => .ok (s.submit .flush)
  | .sleep ms =>
    match s.sleep? ms with
    | some s => .ok (s, true)
    | none => .error .sleepRefused

def teardown (s : Session α) : Session α :=
  let s := ({ s with cancelled := true }.submit .close).1
  ((s.leave .data).leave .control).leave .timing

def turnPage (s : Session α) : Session α :=
  { s with pipeline := s.pipeline.turnPage, sent := [] }

end Session

end AudioIntake
