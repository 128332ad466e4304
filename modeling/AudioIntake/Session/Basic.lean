import AudioIntake.Pipeline.Settled

/-!
# Sessions

A session has three receive loops around one pipeline. Each loop owns a buffer of the pool while it
listens; what it receives it either lets go or hands to the queue, and once the queue is closed it
stops at the first packet or flush it would have to hand over. Datagrams of the timing channel are
let go unread. Rerequests go to a configured peer, or else to the sender of the latest control
datagram.
-/

namespace AudioIntake

inductive Channel where
  | data
  | control
  | timing
deriving DecidableEq

inductive Loop where
  | listening (buffer : Packet)
  | handing (command : Command)
  | stopped

def Loop.packets : Loop → List Packet
  | .listening buffer => [buffer]
  | .handing c => c.packets
  | .stopped => []

structure Session (α : Type) where
  pipeline : Pipeline
  data : Loop
  control : Loop
  timing : Loop
  /-- Where rerequests go, once that is known. -/
  peer : Option α
  learns : Bool
  cancelled : Bool
  sent : List (α × Octets)

namespace Session

variable {α : Type}

inductive Action (α : Type) where
  | arrive (channel : Channel) (datagram : Octets) (source : α)
  | hand (channel : Channel)
  | flush
  | work
  | tick
  | offer
  | transmit
  | elapse (ms : Nat)
  | cancel
  | leave (channel : Channel)
  /-- The socket of a channel fails. -/
  | lose (channel : Channel)
  | close

def loop (s : Session α) : Channel → Loop
  | .data => s.data
  | .control => s.control
  | .timing => s.timing

def setLoop (s : Session α) (channel : Channel) (l : Loop) : Session α :=
  match channel with
  | .data => { s with data := l }
  | .control => { s with control := l }
  | .timing => { s with timing := l }

def listen (s : Session α) (channel : Channel) : Session α :=
  let (buffer, pool) := s.pipeline.pool.acquire
  { s with pipeline := { s.pipeline with pool } }.setLoop channel (.listening buffer)

def letGo (s : Session α) (packets : List Packet) : Session α :=
  { s with pipeline := s.pipeline.letGo packets }

def judge (channel : Channel) (p : Packet) : Verdict :=
  match channel with
  | .data => (Judgement.ofData p).verdict
  | .control => (Judgement.ofControl p).verdict
  | .timing => .discard

def learn (s : Session α) (channel : Channel) (source : α) : Session α :=
  if s.learns ∧ channel = .control then { s with peer := some source } else s

def arrive (s : Session α) (channel : Channel) (datagram : Octets) (source : α) : Session α :=
  match s.loop channel with
  | .listening buffer =>
    let s := s.learn channel source
    let p := buffer.receive datagram
    match judge channel p with
    | .sequence audio => s.setLoop channel (.handing (.packet audio))
    | .flush => (s.letGo [p]).setLoop channel (.handing .flush)
    | .discard => (s.letGo [p]).listen channel
  | _ => s

def hand (s : Session α) (channel : Channel) : Session α :=
  match s.loop channel with
  | .handing c =>
    let queue := s.pipeline.queue
    if queue.isOpen && !queue.hasRoom then s
    else
      let s := { s with pipeline := s.pipeline.submit c }
      if queue.isOpen then s.listen channel else s.setLoop channel .stopped
  | _ => s

/-- A loop that listens lets go of its buffer and ends. -/
def quit (s : Session α) (channel : Channel) : Session α :=
  match s.loop channel with
  | .listening buffer => (s.letGo [buffer]).setLoop channel .stopped
  | _ => s

def leave (s : Session α) (channel : Channel) : Session α :=
  if s.cancelled then s.quit channel else s

/-- The next rerequest goes to the peer, or is lost while no peer is known. -/
def transmit (s : Session α) : Session α :=
  let handed := s.pipeline.transmit.journal.handed.drop s.pipeline.journal.handed.length
  { s with
    pipeline := s.pipeline.transmit
    sent := match s.peer with
      | some peer => s.sent ++ handed.map fun datagram => (peer, datagram)
      | none => s.sent }

def act (s : Session α) : Action α → Session α
  | .arrive channel datagram source => s.arrive channel datagram source
  | .hand channel => s.hand channel
  | .flush => { s with pipeline := s.pipeline.submit .flush }
  | .work => { s with pipeline := s.pipeline.work }
  | .tick => { s with pipeline := s.pipeline.tick }
  | .offer => { s with pipeline := s.pipeline.offer }
  | .transmit => s.transmit
  | .elapse ms => { s with pipeline := s.pipeline.elapse ms }
  | .cancel => { s with cancelled := true }
  | .leave channel => s.leave channel
  | .lose channel => s.quit channel
  | .close => { s with pipeline := s.pipeline.submit .close }

def run (s : Session α) (actions : List (Action α)) : Session α := actions.foldl act s

def ofPipeline (pipeline : Pipeline) (peer : Option α) : Session α :=
  let idle : Session α :=
    { pipeline, data := .stopped, control := .stopped, timing := .stopped, peer
      learns := peer.isNone, cancelled := false, sent := [] }
  ((idle.listen .data).listen .control).listen .timing

end Session

end AudioIntake
