import AudioIntake.Proofs.Pipeline.Custody
import AudioIntake.Session.Settled

/-!
# The receive loops of a session

Whatever a session does, it does to one of its loops, to its pipeline, or to the pool they share.
What the loops have is gathered one channel against the other two, so that a step of one loop is
reasoned about the same way whichever it is; and what every action of the pipeline keeps, whatever
the state of the pool, is kept by every action of the session.
-/

namespace AudioIntake

/-- The packet that a loop has received and not yet handed over. -/
def Loop.waiting : Loop → List Packet
  | .handing c => c.packets
  | _ => []

namespace Session

variable {α : Type} {s t : Session α} {f : Loop → List Packet} {channel : Channel} {l : Loop}
  {received : List (Channel × Octets)}

def gather (s : Session α) (f : Loop → List Packet) : List Packet :=
  f s.data ++ f s.control ++ f s.timing

/-- What the loops of the other channels have. -/
def elsewhere (s : Session α) (f : Loop → List Packet) : Channel → List Packet
  | .data => f s.control ++ f s.timing
  | .control => f s.data ++ f s.timing
  | .timing => f s.data ++ f s.control

theorem gather_perm (s : Session α) (f : Loop → List Packet) (channel : Channel) :
    (s.gather f).Perm (f (s.loop channel) ++ s.elsewhere f channel) := by
  refine List.perm_iff_count.mpr fun p => ?_
  cases channel <;> simp only [gather, elsewhere, loop, List.count_append] <;> omega

theorem gather_setLoop_perm (s : Session α) (f : Loop → List Packet) (channel : Channel)
    (l : Loop) : ((s.setLoop channel l).gather f).Perm (f l ++ s.elsewhere f channel) := by
  refine ((s.setLoop channel l).gather_perm f channel).trans ?_
  cases channel <;> exact .refl _

@[simp] theorem pipeline_setLoop (s : Session α) (channel : Channel) (l : Loop) :
    (s.setLoop channel l).pipeline = s.pipeline := by
  cases channel <;> rfl

@[simp] theorem pipeline_learn (s : Session α) (channel : Channel) (source : α) :
    (s.learn channel source).pipeline = s.pipeline := by
  rw [learn]
  split <;> rfl

@[simp] theorem elsewhere_learn (s : Session α) (f : Loop → List Packet) (channel : Channel)
    (source : α) (other : Channel) :
    (s.learn channel source).elsewhere f other = s.elsewhere f other := by
  rw [learn]
  split <;> cases other <;> rfl

@[simp] theorem pipeline_listen (s : Session α) (channel : Channel) :
    (s.listen channel).pipeline = { s.pipeline with pool := s.pipeline.pool.acquire.2 } := by
  rw [listen, pipeline_setLoop]

/-! ### What an action does -/

/-- The datagrams that the loops take from their sockets in an action, cut to the size of a
buffer. -/
def heard (s : Session α) : Action α → List (Channel × Octets)
  | .arrive channel datagram _ =>
    match s.loop channel with
    | .listening _ => [(channel, datagram.take Pool.defaultBufferSize)]
    | _ => []
  | _ => []

/-- What the loop of a channel makes of a session in one step, with what it takes from its socket. -/
inductive Stepped (s : Session α) (channel : Channel) :
    List (Channel × Octets) → Session α → Prop where
  | still : Stepped s channel [] s
  | sequenced {buffer audio : Packet} {datagram : Octets} (source : α)
      (hloop : s.loop channel = .listening buffer)
      (hjudge : judge channel (buffer.receive datagram) = .sequence audio) :
      Stepped s channel [(channel, datagram.take Pool.defaultBufferSize)]
        ((s.learn channel source).setLoop channel (.handing (.packet audio)))
  | flushed {buffer : Packet} {datagram : Octets} (source : α)
      (hloop : s.loop channel = .listening buffer)
      (hjudge : judge channel (buffer.receive datagram) = .flush) :
      Stepped s channel [(channel, datagram.take Pool.defaultBufferSize)]
        (((s.learn channel source).letGo [buffer.receive datagram]).setLoop channel
          (.handing .flush))
  | discarded {buffer : Packet} {datagram : Octets} (source : α)
      (hloop : s.loop channel = .listening buffer)
      (hjudge : judge channel (buffer.receive datagram) = .discard) :
      Stepped s channel [(channel, datagram.take Pool.defaultBufferSize)]
        (((s.learn channel source).letGo [buffer.receive datagram]).listen channel)
  | entered {c : Command} (hloop : s.loop channel = .handing c)
      (hopen : s.pipeline.queue.isOpen = true) (hroom : s.pipeline.queue.hasRoom = true) :
      Stepped s channel [] ({ s with pipeline := s.pipeline.submit c }.listen channel)
  | refused {c : Command} (hloop : s.loop channel = .handing c)
      (hclosed : s.pipeline.queue.isOpen = false) :
      Stepped s channel [] ({ s with pipeline := s.pipeline.submit c }.setLoop channel .stopped)
  | left {buffer : Packet} (hloop : s.loop channel = .listening buffer) :
      Stepped s channel [] ((s.letGo [buffer]).setLoop channel .stopped)

theorem stepped_arrive (s : Session α) (channel : Channel) (datagram : Octets) (source : α) :
    Stepped s channel (s.heard (.arrive channel datagram source))
      (s.arrive channel datagram source) := by
  rw [heard, arrive]
  cases hloop : s.loop channel with
  | listening buffer =>
      dsimp only
      cases hjudge : judge channel (buffer.receive datagram) with
      | sequence audio => exact .sequenced source hloop hjudge
      | flush => exact .flushed source hloop hjudge
      | discard => exact .discarded source hloop hjudge
  | handing c => exact .still
  | stopped => exact .still

theorem stepped_hand (s : Session α) (channel : Channel) :
    Stepped s channel [] (s.hand channel) := by
  rw [hand]
  cases hloop : s.loop channel with
  | handing c =>
      dsimp only
      cases hopen : s.pipeline.queue.isOpen
      · exact .refused hloop hopen
      · cases hroom : s.pipeline.queue.hasRoom
        · exact .still
        · exact .entered hloop hopen hroom
  | listening buffer => exact .still
  | stopped => exact .still

theorem stepped_quit (s : Session α) (channel : Channel) :
    Stepped s channel [] (s.quit channel) := by
  rw [quit]
  cases hloop : s.loop channel with
  | listening buffer => exact .left hloop
  | handing c => exact .still
  | stopped => exact .still

theorem stepped_leave (s : Session α) (channel : Channel) :
    Stepped s channel [] (s.leave channel) := by
  rw [leave]
  split
  · exact s.stepped_quit channel
  · exact .still

/-- An action of a session is an action of its pipeline that brings no packet with it, or a step of one
of the loops, or it tells them to leave. -/
inductive Acted (s : Session α) : List (Channel × Octets) → Session α → Prop where
  | own (b : Pipeline.Action) (hquiet : b ≠ .transmit) (hentering : s.pipeline.entering b = []) :
      Acted s [] { s with pipeline := s.pipeline.act b }
  | transmitted : Acted s [] s.transmit
  | cancelled : Acted s [] { s with cancelled := true }
  | stepped {heard : List (Channel × Octets)} {t : Session α} (channel : Channel)
      (h : Stepped s channel heard t) : Acted s heard t

theorem acted_act (s : Session α) (a : Action α) : Acted s (s.heard a) (s.act a) := by
  cases a with
  | arrive channel datagram source => exact .stepped channel (s.stepped_arrive channel datagram source)
  | hand channel => exact .stepped channel (s.stepped_hand channel)
  | flush => exact .own (.submit .flush) nofun (s.pipeline.entering_submit_of_nil rfl)
  | work => exact .own .work nofun rfl
  | tick => exact .own .tick nofun rfl
  | offer => exact .own .offer nofun rfl
  | transmit => exact .transmitted
  | elapse ms => exact .own (.elapse ms) nofun rfl
  | cancel => exact .cancelled
  | leave channel => exact .stepped channel (s.stepped_leave channel)
  | lose channel => exact .stepped channel (s.stepped_quit channel)
  | close => exact .own (.submit .close) nofun (s.pipeline.entering_submit_of_nil rfl)

/-! ### The pipeline inside -/

/-- The second pipeline is the first after one action of its own at most, and some use of the
pool. -/
inductive Leads (p : Pipeline) : Pipeline → Prop where
  | pooled (pool : Pool) : Leads p { p with pool }
  | acted (a : Pipeline.Action) (pool : Pool) : Leads p { p.act a with pool }

theorem Stepped.leads (h : Stepped s channel received t) : Leads s.pipeline t.pipeline := by
  cases h with
  | still => exact .pooled _
  | sequenced =>
      rw [pipeline_setLoop, pipeline_learn]
      exact .pooled _
  | flushed =>
      rw [pipeline_setLoop, letGo, pipeline_learn]
      exact .pooled _
  | discarded =>
      rw [pipeline_listen, letGo, pipeline_learn]
      exact .pooled _
  | @entered c =>
      rw [pipeline_listen]
      exact .acted (.submit c) _
  | @refused c =>
      rw [pipeline_setLoop]
      exact .acted (.submit c) _
  | left =>
      rw [pipeline_setLoop]
      exact .pooled _

theorem leads_act (s : Session α) (a : Action α) : Leads s.pipeline (s.act a).pipeline := by
  have hacted := s.acted_act a
  generalize s.heard a = received at hacted
  generalize s.act a = t at hacted ⊢
  cases hacted with
  | own b => exact .acted b _
  | transmitted => exact .acted .transmit _
  | cancelled => exact .pooled _
  | stepped channel h => exact h.leads

/-- What every action of the pipeline keeps, whatever is in the pool, holds after every run of the
session. -/
theorem run_induction {P : Pipeline → Prop} (hact : ∀ p a, P p → P (p.act a))
    (hpool : ∀ p pool, P p → P { p with pool }) (hs : P s.pipeline) (actions : List (Action α)) :
    P (s.run actions).pipeline := by
  induction actions generalizing s with
  | nil => exact hs
  | cons a actions ih =>
      apply ih
      have hled := s.leads_act a
      generalize (s.act a).pipeline = q at hled ⊢
      cases hled with
      | pooled pool => exact hpool _ pool hs
      | acted b pool => exact hpool _ pool (hact _ b hs)

theorem run_append (s : Session α) (as bs : List (Action α)) :
    s.run (as ++ bs) = (s.run as).run bs := List.foldl_append

/-! ### Where sessions begin -/

theorem pipeline_ofPipeline (p : Pipeline) (peer : Option α) :
    ∃ pool, (ofPipeline p peer).pipeline = { p with pool } := by
  refine ⟨p.pool.acquire.2.acquire.2.acquire.2, ?_⟩
  simp only [ofPipeline, pipeline_listen]

theorem start_eq {settings : StreamSettings} {maxIdle : Nat} {peer : Option α}
    {taken : Option Channel} {failsOn : Option SeqNo}
    (h : start settings maxIdle peer taken failsOn = .ok s) :
    ∃ p, Pipeline.start settings failsOn (.ofSize Pool.defaultBufferSize maxIdle) = .ok p ∧
      s = ofPipeline p peer := by
  unfold start at h
  split at h
  · cases h
  · split at h
    · cases h
    · split at h
      · cases h
      · rename_i p hp
        cases h
        exact ⟨p, hp, rfl⟩

end Session

end AudioIntake
