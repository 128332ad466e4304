import AudioIntake.Proofs.Pipeline.Forwarding
import AudioIntake.Proofs.Session.Loops

/-!
# The rerequests of a session

The control socket is a sink that loses what it is given while no peer is known. What it sends are
therefore some of the datagrams it is given, in their order, and all of them if the peer is known
from the start. What it is given does not hang on that, nor on any other sink.
-/

namespace AudioIntake

namespace Session

variable {α : Type} {s t u : Session α} {channel : Channel} {received : List (Channel × Octets)}

/-- Nothing is sent on the way from one to the other, and a peer that is known stays known. -/
structure Silent (s t : Session α) : Prop where
  sent_eq : t.sent = s.sent
  handed_eq : t.pipeline.journal.handed = s.pipeline.journal.handed
  peer_known : s.peer.isSome = true → t.peer.isSome = true

namespace Silent

theorem refl (s : Session α) : Silent s s := ⟨rfl, rfl, id⟩

theorem trans (h : Silent s t) (h' : Silent t u) : Silent s u where
  sent_eq := h'.sent_eq.trans h.sent_eq
  handed_eq := h'.handed_eq.trans h.handed_eq
  peer_known hs := h'.peer_known (h.peer_known hs)

theorem setLoop (s : Session α) (channel : Channel) (l : Loop) :
    Silent s (s.setLoop channel l) := by
  cases channel <;> exact ⟨rfl, rfl, id⟩

theorem letGo (s : Session α) (packets : List Packet) : Silent s (s.letGo packets) :=
  ⟨rfl, rfl, id⟩

theorem learn (s : Session α) (channel : Channel) (source : α) :
    Silent s (s.learn channel source) := by
  rw [Session.learn]
  split
  · exact ⟨rfl, rfl, fun _ => rfl⟩
  · exact refl s

theorem listen (s : Session α) (channel : Channel) : Silent s (s.listen channel) := by
  have hacquired : Silent s
      { s with pipeline := { s.pipeline with pool := s.pipeline.pool.acquire.2 } } :=
    ⟨rfl, rfl, id⟩
  exact hacquired.trans (setLoop _ channel _)

theorem act (s : Session α) {b : Pipeline.Action} (hb : s.pipeline.emitted b = []) :
    Silent s { s with pipeline := s.pipeline.act b } where
  sent_eq := rfl
  handed_eq := by
    dsimp only
    rw [Pipeline.handed_act, hb, List.append_nil]
  peer_known := id

theorem of_stepped (h : Stepped s channel received t) : Silent s t := by
  have hsubmitted : ∀ c : Command, Silent s { s with pipeline := s.pipeline.submit c } := fun c =>
    act (b := .submit c) s rfl
  cases h with
  | still => exact refl s
  | sequenced source => exact (learn s channel source).trans (setLoop _ channel _)
  | flushed source =>
      exact ((learn s channel source).trans (letGo _ _)).trans (setLoop _ channel _)
  | discarded source => exact ((learn s channel source).trans (letGo _ _)).trans (listen _ channel)
  | @entered c => exact (hsubmitted c).trans (listen _ channel)
  | @refused c => exact (hsubmitted c).trans (setLoop _ channel _)
  | left => exact (letGo s _).trans (setLoop _ channel _)

end Silent

/-- What the sink is given in an action it sends if a peer is known. -/
structure Sends (s : Session α) (new : List Octets) (t : Session α) : Prop where
  handed_eq : t.pipeline.journal.handed = s.pipeline.journal.handed ++ new
  sent_eq : t.sent.map Prod.snd = s.sent.map Prod.snd ++ if s.peer.isSome then new else []
  peer_known : s.peer.isSome = true → t.peer.isSome = true

theorem Silent.sends (h : Silent s t) : Sends s [] t where
  handed_eq := h.handed_eq.trans (List.append_nil _).symm
  sent_eq := by
    rw [h.sent_eq, ite_self, List.append_nil]
  peer_known := h.peer_known

theorem sends_transmit (s : Session α) :
    Sends s (s.pipeline.emitted .transmit) s.transmit where
  handed_eq := s.pipeline.handed_act .transmit
  sent_eq := by
    have hhanded : s.pipeline.transmit.journal.handed =
        s.pipeline.journal.handed ++ s.pipeline.emitted .transmit := s.pipeline.handed_act .transmit
    rw [transmit, hhanded, List.drop_left]
    cases s.peer with
    | none => exact (List.append_nil _).symm
    | some peer => simp [Function.comp_def]
  peer_known := id

theorem sends_act (s : Session α) (a : Action α) : ∃ new, Sends s new (s.act a) := by
  have hacted := s.acted_act a
  generalize s.heard a = received at hacted
  generalize s.act a = t at hacted ⊢
  cases hacted with
  | own b hquiet => exact ⟨[], (Silent.act s (s.pipeline.emitted_of_ne hquiet)).sends⟩
  | transmitted => exact ⟨_, s.sends_transmit⟩
  | cancelled => exact ⟨[], Silent.sends ⟨rfl, rfl, id⟩⟩
  | stepped channel h => exact ⟨[], (Silent.of_stepped h).sends⟩

theorem sent_sublist_run (h : (s.sent.map Prod.snd).Sublist s.pipeline.journal.handed)
    (actions : List (Action α)) :
    ((s.run actions).sent.map Prod.snd).Sublist (s.run actions).pipeline.journal.handed := by
  induction actions generalizing s with
  | nil => exact h
  | cons a actions ih =>
      apply ih
      obtain ⟨new, hsends⟩ := s.sends_act a
      rw [hsends.sent_eq, hsends.handed_eq]
      apply h.append
      split
      · exact .refl new
      · exact List.nil_sublist new

theorem sent_run_of_peer (hpeer : s.peer.isSome = true)
    (h : s.sent.map Prod.snd = s.pipeline.journal.handed) (actions : List (Action α)) :
    (s.run actions).sent.map Prod.snd = (s.run actions).pipeline.journal.handed := by
  induction actions generalizing s with
  | nil => exact h
  | cons a actions ih =>
      obtain ⟨new, hsends⟩ := s.sends_act a
      apply ih (hsends.peer_known hpeer)
      rw [hsends.sent_eq, hsends.handed_eq, h, if_pos hpeer]

theorem forwarding_run (h : s.pipeline.Forwarding) (actions : List (Action α)) :
    (s.run actions).pipeline.Forwarding := by
  apply run_induction (P := Pipeline.Forwarding)
  · exact fun p a hp => Pipeline.forwarding_act hp a
  · intro p pool hp
    obtain ⟨forwarded, hforwards⟩ := hp.forwards
    exact
      { sound := hp.sound
        isOpen := hp.isOpen
        tidy := hp.tidy.congr rfl rfl rfl rfl
        forwards := ⟨forwarded, hforwards.reported_eq, hforwards.handed_eq, hforwards.stamp_eq⟩ }
  · exact h

/-! ### The whole of it -/

section Started

variable {settings : StreamSettings} {maxIdle : Nat} {peer : Option α} {taken : Option Channel}
  {failsOn : Option SeqNo}

theorem forwarding_start (h : start settings maxIdle peer taken failsOn = .ok s) :
    s.pipeline.Forwarding := by
  obtain ⟨p, hp, rfl⟩ := start_eq h
  obtain ⟨-, -, -, rfl⟩ := Pipeline.start_eq hp
  exact
    { sound := Sequencer.sound_ofLadder settings.ladder
      isOpen := rfl
      tidy := .of_open rfl rfl
      forwards := ⟨[], rfl, rfl, rfl⟩ }

/-- A session sends some of what the sink is given, and all of it to a peer known from the start. -/
theorem sent_of_start (h : start settings maxIdle peer taken failsOn = .ok s)
    (actions : List (Action α)) :
    let t := s.run actions
    (t.sent.map Prod.snd).Sublist t.pipeline.journal.handed ∧
      (peer.isSome = true → t.sent.map Prod.snd = t.pipeline.journal.handed) := by
  intro t
  obtain ⟨p, hp, rfl⟩ := start_eq h
  obtain ⟨-, -, -, rfl⟩ := Pipeline.start_eq hp
  refine ⟨sent_sublist_run ?_ actions, fun hpeer => sent_run_of_peer hpeer ?_ actions⟩
  · exact .slnil
  · rfl

end Started

/-- Whatever its sink answers, a pipeline gives it the rerequests that were asked for, each once and in
their order, stamped from 1 on and around, and nothing else; the last of them when the worker is gone
and the outbox is empty. Each is noted and can be read from its datagram. The same holds in a
session, whose sink drops what it is given while no peer is known. -/
theorem rerequests_sent_in_order :
    (∀ queueCapacity outboxCapacity period maxLead failsOn pool ladder p,
      Pipeline.build? queueCapacity outboxCapacity period maxLead failsOn pool
        (.ofLadder ladder) = some p → ∀ steps,
      let o := Outlet.run { pipeline := p, log := [] } steps
      o.pipeline.SendsAll ∧ o.log.length = o.pipeline.journal.handed.length) ∧
    (∀ settings maxIdle peer taken failsOn (s : Session α),
      start settings maxIdle peer taken failsOn = .ok s → ∀ actions,
      let t := s.run actions
      t.pipeline.SendsAll ∧ (t.sent.map Prod.snd).Sublist t.pipeline.journal.handed ∧
        (peer.isSome = true → t.sent.map Prod.snd = t.pipeline.journal.handed)) := by
  constructor
  · intro queueCapacity outboxCapacity period maxLead failsOn pool ladder p hbuild steps o
    obtain ⟨hforwarding, hempty⟩ := Pipeline.forwarding_build hbuild
    constructor
    · have hrun := Pipeline.forwarding_run hforwarding (steps.map Prod.fst)
      rw [← Outlet.pipeline_run { pipeline := p, log := [] } steps] at hrun
      exact hrun.sendsAll
    · apply Outlet.length_log_run
      rw [hempty]
      rfl
  · intro settings maxIdle peer taken failsOn s hstart actions t
    exact ⟨(forwarding_run (forwarding_start hstart) actions).sendsAll, sent_of_start hstart actions⟩

/-- The sink fails on the first and the third of four rerequests, the last of which is sent when the
worker has stopped; and a peer shows up after the first of two. -/
theorem rerequests_sent_past_failures :
    let packet := fun n => Command.packet (.ofOctets (SeqNo.ofNat n) [] false)
    let gaps := [.submit (packet 65534), .submit (packet 0), .submit (packet 2), .work, .work, .work]
    let tick := [Pipeline.Action.elapse 10, .tick]
    let relay := fun answer => [(Pipeline.Action.offer, .taken), (.transmit, answer)]
    let steps := (gaps ++ tick).map (·, .taken) ++ relay (.failed "refused") ++ relay .taken ++
      tick.map (·, .taken) ++ relay (.failed "refused") ++
      [(.offer, .taken), (.submit .close, .taken), (.work, .taken), (.transmit, .taken)]
    let audio := fun n => [0x80, 0x60] ++ (SeqNo.ofNat n).octets ++ List.replicate 8 0
    let arrive := fun n => [Action.arrive .data (audio n) (), .hand .data, .work]
    let ticks := fun n => (List.replicate n [Action.elapse 10, .tick]).flatten ++ [.offer, .transmit]
    let actions := arrive 65534 ++ arrive 0 ++ ticks 3 ++ [.arrive .control [] ()] ++ ticks 8
    let settings := StreamSettings.default
    (∃ p, Pipeline.build? 4 1 10 100 none (.ofSize 16 4) (.ofLadder ⟨[1, 2], 4⟩) = some p ∧
      let o := Outlet.run { pipeline := p, log := [] } steps
      o.pipeline.phase = .stopped ∧ o.pipeline.outbox.items = [] ∧
        o.pipeline.reported =
          [⟨SeqNo.ofNat 65535, 1⟩, ⟨SeqNo.ofNat 1, 1⟩, ⟨SeqNo.ofNat 65535, 1⟩, ⟨SeqNo.ofNat 1, 1⟩] ∧
        o.pipeline.journal.handed = Rerequest.stampAll o.pipeline.reported ∧ o.log.length = 4) ∧
    ∃ s : Session Unit, start settings 0 none none none = .ok s ∧
      (s.run actions).pipeline.reported = [⟨SeqNo.ofNat 65535, 1⟩, ⟨SeqNo.ofNat 65535, 1⟩] ∧
      (s.run actions).pipeline.SendsAll ∧
      (s.run actions).sent.map Prod.snd = (s.run actions).pipeline.journal.handed.drop 1 ∧
      (s.run actions).sent.length = 1 := by
  intro packet gaps tick relay steps audio arrive ticks actions settings
  constructor
  · have hsent := rerequests_sent_in_order (α := Unit) |>.1 4 1 10 100 none (.ofSize 16 4)
      ⟨[1, 2], 4⟩ _ rfl steps
    refine ⟨_, rfl, by decide +kernel, by decide +kernel, by decide +kernel, ?_, by decide +kernel⟩
    exact hsent.1.handed_eq (by decide +kernel) (by decide +kernel)
  · have hsent := rerequests_sent_in_order (α := Unit) |>.2 settings 0 none none none _ rfl actions
    exact ⟨_, rfl, by decide +kernel, hsent.1, by decide +kernel, by decide +kernel⟩

end Session

end AudioIntake
