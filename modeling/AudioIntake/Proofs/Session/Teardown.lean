import AudioIntake.Proofs.Pipeline.Ending
import AudioIntake.Proofs.Session.Ownership

/-!
# Tearing a session down

Teardown has completed when the worker and the three receive loops have stopped. From then on nothing
more happens: no buffer is out, the consumer is given nothing, and whatever is sent is let go. Until
then it is still possible to get there, whatever is waiting where.
-/

namespace AudioIntake

def Loop.hasStopped : Loop → Bool
  | .stopped => true
  | _ => false

theorem Loop.hasStopped_iff {l : Loop} : l.hasStopped = true ↔ l = .stopped := by
  cases l <;> simp [hasStopped]

namespace Session

variable {α : Type} {s t : Session α} {size : Nat} {channel other : Channel} {l : Loop}
  {received : List (Channel × Octets)}

structure TornDown (s : Session α) : Prop where
  phase_ne : s.pipeline.phase ≠ .running
  loop_eq : ∀ channel, s.loop channel = .stopped

theorem tornDown_iff : s.TornDown ↔ s.pipeline.phase ≠ .running ∧ s.data.hasStopped = true ∧
    s.control.hasStopped = true ∧ s.timing.hasStopped = true := by
  simp only [Loop.hasStopped_iff]
  constructor
  · intro h
    exact ⟨h.phase_ne, h.loop_eq .data, h.loop_eq .control, h.loop_eq .timing⟩
  · rintro ⟨hphase, hdata, hcontrol, htiming⟩
    exact ⟨hphase, fun channel => by cases channel <;> assumption⟩

instance (s : Session α) : Decidable s.TornDown := decidable_of_iff _ tornDown_iff.symm

/-! ### Loops that have stopped -/

theorem loop_setLoop (s : Session α) (channel : Channel) (l : Loop) :
    (s.setLoop channel l).loop channel = l := by
  cases channel <;> rfl

theorem loop_setLoop_of_ne (s : Session α) (l : Loop) (hne : other ≠ channel) :
    (s.setLoop channel l).loop other = s.loop other := by
  cases channel <;> cases other <;> first | rfl | exact absurd rfl hne

theorem loop_listen_of_ne (s : Session α) (hne : other ≠ channel) :
    (s.listen channel).loop other = s.loop other := by
  rw [listen, loop_setLoop_of_ne _ _ hne]
  cases other <;> rfl

theorem loop_learn (s : Session α) (channel : Channel) (source : α) (other : Channel) :
    (s.learn channel source).loop other = s.loop other := by
  rw [learn]
  split <;> cases other <;> rfl

theorem loop_letGo (s : Session α) (packets : List Packet) (channel : Channel) :
    (s.letGo packets).loop channel = s.loop channel := by
  cases channel <;> rfl

/-- The loop of one channel does not touch those of the others. -/
theorem Stepped.loop_eq (h : Stepped s channel received t) (hne : other ≠ channel) :
    t.loop other = s.loop other := by
  have hsubmitted : ∀ c : Command,
      ({ s with pipeline := s.pipeline.submit c } : Session α).loop other = s.loop other := by
    intro c
    cases other <;> rfl
  cases h with
  | still => rfl
  | sequenced => rw [loop_setLoop_of_ne _ _ hne, loop_learn]
  | flushed => rw [loop_setLoop_of_ne _ _ hne, loop_letGo, loop_learn]
  | discarded => rw [loop_listen_of_ne _ hne, loop_letGo, loop_learn]
  | @entered c => rw [loop_listen_of_ne _ hne, hsubmitted c]
  | @refused c => rw [loop_setLoop_of_ne _ _ hne, hsubmitted c]
  | left => rw [loop_setLoop_of_ne _ _ hne, loop_letGo]

/-- A loop that has stopped takes no step. -/
theorem Stepped.eq_of_stopped (h : Stepped s channel received t)
    (hstopped : s.loop channel = .stopped) : t = s := by
  cases h with
  | still => rfl
  | sequenced _ hloop | flushed _ hloop | discarded _ hloop | entered hloop | refused hloop
  | left hloop =>
      rw [hstopped] at hloop
      cases hloop

theorem loop_act_of_stopped (h : s.loop channel = .stopped) (a : Action α) :
    (s.act a).loop channel = .stopped := by
  have hacted := s.acted_act a
  generalize s.heard a = received at hacted
  generalize s.act a = t at hacted ⊢
  cases hacted with
  | stepped other hstep =>
      by_cases hne : channel = other
      · subst hne
        rwa [hstep.eq_of_stopped h]
      · rwa [hstep.loop_eq hne]
  | _ => cases channel <;> exact h

theorem loop_run_of_stopped (h : s.loop channel = .stopped) (actions : List (Action α)) :
    (s.run actions).loop channel = .stopped := by
  induction actions generalizing s with
  | nil => exact h
  | cons a actions ih => exact ih (loop_act_of_stopped h a)

/-! ### After the end -/

theorem tidy_run (h : s.pipeline.Tidy) (actions : List (Action α)) :
    (s.run actions).pipeline.Tidy := by
  apply run_induction (P := Pipeline.Tidy)
  · exact fun p a hp => Pipeline.tidy_act hp a
  · exact fun p pool hp => hp.congr rfl rfl rfl rfl
  · exact h

theorem roomy_run (h : s.pipeline.Roomy) (actions : List (Action α)) :
    (s.run actions).pipeline.Roomy := by
  apply run_induction (P := Pipeline.Roomy)
  · exact fun p a hp => Pipeline.roomy_act hp a
  · exact fun p pool hp => ⟨hp.queue_pos, hp.outbox_pos⟩
  · exact h

theorem run_of_gone (hgone : s.pipeline.phase ≠ .running) (actions : List (Action α)) :
    (s.run actions).pipeline.phase ≠ .running ∧
      (s.run actions).pipeline.consumed = s.pipeline.consumed := by
  apply run_induction (P := fun p => p.phase ≠ .running ∧ p.consumed = s.pipeline.consumed)
  · rintro p a ⟨hphase, hconsumed⟩
    obtain ⟨hsame, hstays⟩ := Pipeline.act_of_gone hphase a
    exact ⟨by rwa [hstays], hsame.trans hconsumed⟩
  · exact fun p pool hp => hp
  · exact ⟨hgone, rfl⟩

/-- A close in the queue holds back what stands behind it, however the session goes on. -/
theorem given_run {before behind : List Command}
    (hitems : s.pipeline.queue.items = before ++ .close :: behind) (actions : List (Action α)) :
    ∃ new, (s.run actions).pipeline.consumed = s.pipeline.consumed ++ new ∧
      new.Subperm (before.flatMap Command.packets ++ s.pipeline.sequencer.held.values) := by
  have hholds : (s.run actions).pipeline.HoldsBack s.pipeline.consumed
      (before.flatMap Command.packets ++ s.pipeline.sequencer.held.values) := by
    apply run_induction (P := Pipeline.HoldsBack _ _)
    · exact fun p a hp => Pipeline.holdsBack_act hp a
    · rintro p pool ⟨new, rest, hconsumed, hwithin, hbarred⟩
      refine ⟨new, rest, hconsumed, hwithin, ?_⟩
      cases hbarred with
      | waiting hitems hahead => exact .waiting hitems hahead
      | gone hgone => exact .gone hgone
    · exact ⟨[], _, (List.append_nil _).symm, .refl _, .waiting hitems (.refl _)⟩
  obtain ⟨new, rest, hconsumed, hwithin, -⟩ := hholds
  exact ⟨new, hconsumed, (List.sublist_append_left new rest).subperm.trans hwithin⟩

namespace TornDown

theorem run (h : s.TornDown) (actions : List (Action α)) : (s.run actions).TornDown where
  phase_ne := (run_of_gone h.phase_ne actions).1
  loop_eq channel := loop_run_of_stopped (h.loop_eq channel) actions

theorem gather_eq (h : s.TornDown) : s.gather Loop.packets = [] := by
  have hdata : s.data = .stopped := h.loop_eq .data
  have hcontrol : s.control = .stopped := h.loop_eq .control
  have htiming : s.timing = .stopped := h.loop_eq .timing
  rw [gather, hdata, hcontrol, htiming]
  rfl

theorem outstanding_eq (h : s.TornDown) (htidy : s.pipeline.Tidy) (hbalanced : Balanced size s) :
    s.pipeline.pool.stats.outstanding = 0 := by
  have hvacant := htidy.vacant h.phase_ne
  have hpackets : s.pipeline.packets = [] := by
    rw [Pipeline.packets, Pipeline.queued, hvacant.items_eq, hvacant.held_eq, Tables.values_empty]
    rfl
  have hout := hbalanced.outstanding_eq
  rwa [h.gather_eq, hpackets] at hout

end TornDown

/-- Whoever sends a command to a worker that is gone learns so, and the packet is let go. -/
theorem submitWaiting_of_vacant {p : Pipeline} (h : p.Vacant) (c : Command) :
    p.submitWaiting c = (p.letGo c.packets, false) := by
  have hsettled : p.settle = p := by
    rw [Pipeline.settle, h.items_eq]
    rfl
  rw [Pipeline.submitWaiting, hsettled, ite_self, Pipeline.submit, h.isOpen_eq]
  rfl

/-! ### Getting there -/

theorem exists_run_of_reaches {q : Pipeline} (h : Pipeline.Reaches s.pipeline q) :
    ∃ actions, (s.run actions).pipeline = q := by
  obtain ⟨own, hown, rfl⟩ := h
  induction own generalizing s with
  | nil => exact ⟨[], rfl⟩
  | cons a own ih =>
      obtain ⟨ha, hown⟩ := List.forall_mem_cons.mp hown
      have hsame : ∃ b, (s.act b).pipeline = s.pipeline.act a := by
        cases a with
        | submit c =>
            cases c with
            | close => exact ⟨.close, rfl⟩
            | _ => cases ha
        | work => exact ⟨.work, rfl⟩
        | offer => exact ⟨.offer, rfl⟩
        | transmit => exact ⟨.transmit, rfl⟩
        | _ => cases ha
      obtain ⟨b, hb⟩ := hsame
      obtain ⟨actions, hactions⟩ := ih (s := s.act b) hown
      exact ⟨b :: actions, hactions.trans (congrArg (Pipeline.run · own) hb)⟩

theorem cancelled_setLoop (s : Session α) (channel : Channel) (l : Loop) :
    (s.setLoop channel l).cancelled = s.cancelled := by
  cases channel <;> rfl

/-- Once the queue is closed and the loops are told to leave, each of them does. -/
theorem exists_left (hgone : s.pipeline.phase ≠ .running) (htidy : s.pipeline.Tidy)
    (hcancelled : s.cancelled = true) (channel : Channel) :
    ∃ actions, (s.run actions).loop channel = .stopped ∧ (s.run actions).cancelled = true := by
  cases hloop : s.loop channel with
  | stopped => exact ⟨[], hloop, hcancelled⟩
  | listening buffer =>
      have hleft : s.leave channel = (s.letGo [buffer]).setLoop channel .stopped := by
        rw [leave, if_pos hcancelled, quit, hloop]
      refine ⟨[.leave channel], ?_⟩
      change (s.leave channel).loop channel = .stopped ∧ (s.leave channel).cancelled = true
      rw [hleft, loop_setLoop, cancelled_setLoop]
      exact ⟨rfl, hcancelled⟩
  | handing c =>
      have hclosed := (htidy.vacant hgone).isOpen_eq
      have hleft : s.hand channel =
          { s with pipeline := s.pipeline.submit c }.setLoop channel .stopped := by
        rw [hand, hloop]
        dsimp only
        rw [hclosed]
        rfl
      refine ⟨[.hand channel], ?_⟩
      change (s.hand channel).loop channel = .stopped ∧ (s.hand channel).cancelled = true
      rw [hleft, loop_setLoop, cancelled_setLoop]
      exact ⟨rfl, hcancelled⟩

theorem exists_tornDown_of_gone (hgone : s.pipeline.phase ≠ .running) (htidy : s.pipeline.Tidy)
    (hcancelled : s.cancelled = true) : ∃ actions, (s.run actions).TornDown := by
  obtain ⟨first, hdata, hstill⟩ := exists_left hgone htidy hcancelled .data
  have hgone' := (run_of_gone hgone first).1
  have htidy' := tidy_run htidy first
  obtain ⟨second, hcontrol, hstill'⟩ := exists_left hgone' htidy' hstill .control
  obtain ⟨third, htiming, -⟩ :=
    exists_left (run_of_gone hgone' second).1 (tidy_run htidy' second) hstill' .timing
  refine ⟨first ++ (second ++ third), (run_of_gone hgone _).1, fun channel => ?_⟩
  rw [run_append, run_append]
  cases channel with
  | data => exact loop_run_of_stopped (loop_run_of_stopped hdata second) third
  | control => exact loop_run_of_stopped hcontrol third
  | timing => exact htiming

theorem exists_tornDown (htidy : s.pipeline.Tidy) (hroomy : s.pipeline.Roomy) :
    ∃ actions, (s.run actions).TornDown := by
  have hstopped : ∃ actions, (s.run actions).pipeline.phase ≠ .running := by
    by_cases hphase : s.pipeline.phase = .running
    · obtain ⟨q, hreaches, hgone⟩ := Pipeline.exists_gone (htidy.isOpen_of_running hphase)
        hroomy.queue_pos hroomy.outbox_pos
      obtain ⟨actions, rfl⟩ := exists_run_of_reaches hreaches
      exact ⟨actions, hgone⟩
    · exact ⟨[], hphase⟩
  obtain ⟨actions, hgone⟩ := hstopped
  obtain ⟨more, htorn⟩ := exists_tornDown_of_gone (s := (s.run actions).act .cancel) hgone
    (tidy_run htidy actions) rfl
  exact ⟨actions ++ .cancel :: more, by rwa [run_append]⟩

/-! ### The whole of it -/

theorem tidy_start {settings : StreamSettings} {maxIdle : Nat} {peer : Option α}
    {taken : Option Channel} {failsOn : Option SeqNo}
    (h : start settings maxIdle peer taken failsOn = .ok s) :
    s.pipeline.Tidy ∧ s.pipeline.Roomy := by
  obtain ⟨p, hp, rfl⟩ := start_eq h
  obtain ⟨pool, hpipeline⟩ := pipeline_ofPipeline p peer
  obtain ⟨-, hqueue, houtbox, rfl⟩ := Pipeline.start_eq hp
  rw [hpipeline]
  exact ⟨.of_open rfl rfl, hqueue, houtbox⟩

/-- At every moment the buffers that are out are those of the receive loops, those in the queue and
those held. Once the session is torn down none is out, nothing more reaches the consumer, and what is
sent fails and is let go. A close lets only what stood before it reach the consumer. And from every
moment on the session can be torn down. -/
theorem buffers_owned {settings : StreamSettings} {maxIdle : Nat} {peer : Option α}
    {taken : Option Channel} {failsOn : Option SeqNo}
    (hstart : start settings maxIdle peer taken failsOn = .ok s) (actions : List (Action α)) :
    let t := s.run actions
    t.pipeline.pool.stats.outstanding = (t.gather Loop.packets).length +
        t.pipeline.queued.length + t.pipeline.sequencer.stats.held ∧
      (t.TornDown → ∀ more, (t.run more).TornDown ∧
        (t.run more).pipeline.pool.stats.outstanding = 0 ∧
        (t.run more).pipeline.consumed = t.pipeline.consumed ∧
        ∀ c, (t.run more).pipeline.submitWaiting c =
          ((t.run more).pipeline.letGo c.packets, false)) ∧
      (∀ before behind more, t.pipeline.queue.items = before ++ .close :: behind →
        ∃ new, (t.run more).pipeline.consumed = t.pipeline.consumed ++ new ∧
          new.Subperm (before.flatMap Command.packets ++ t.pipeline.sequencer.held.values)) ∧
      ∃ more, (t.run more).TornDown := by
  intro t
  obtain ⟨htidy, hroomy⟩ := tidy_start hstart
  have hbalanced := balanced_run (balanced_start hstart) actions
  refine ⟨?_, ?_, ?_, ?_⟩
  · have hout := hbalanced.outstanding_eq
    rw [List.length_append, Pipeline.packets, List.length_append, Tables.length_values,
      ← Nat.add_assoc] at hout
    exact hout
  · intro htorn more
    have hlater := htorn.run more
    have htidy' := tidy_run (tidy_run htidy actions) more
    refine ⟨hlater, ?_, (run_of_gone htorn.phase_ne more).2, ?_⟩
    · exact hlater.outstanding_eq htidy' (balanced_run hbalanced more)
    · exact submitWaiting_of_vacant (htidy'.vacant hlater.phase_ne)
  · intro before behind more hitems
    exact given_run hitems more
  · exact exists_tornDown (tidy_run htidy actions) (roomy_run hroomy actions)

/-- A session is torn down while one packet waits in front of the close and another behind it. -/
theorem buffers_owned_at_teardown :
    let audio := fun n => [0x80, 0x60] ++ (SeqNo.ofNat n).octets ++ List.replicate 8 0
    let arrive := fun n => [Action.arrive .data (audio n) (), .hand .data]
    let actions := arrive 65534 ++ [.work] ++ arrive 0 ++ [.work] ++ arrive 1 ++ [.close] ++ arrive 2
    let teardown := [.cancel, .work, .work, .hand .data, .leave .control, .leave .timing]
    let settings := { StreamSettings.default with queueCapacity := 2 }
    ∃ s : Session Unit, start settings 0 none none none = .ok s ∧
      ((s.run actions).gather Loop.packets).length = 3 ∧
      (s.run actions).pipeline.queued.length = 1 ∧
      (s.run actions).pipeline.sequencer.stats.held = 1 ∧
      (s.run actions).pipeline.pool.stats.outstanding = 5 ∧
      (s.run (actions ++ teardown)).TornDown ∧
      (s.run (actions ++ teardown)).pipeline.consumed.map Packet.seqno = [SeqNo.ofNat 65534] ∧
      ∀ more, ((s.run (actions ++ teardown)).run more).pipeline.pool.stats.outstanding = 0 := by
  intro audio arrive actions teardown settings
  have howned := buffers_owned (rfl : start settings 0 (none : Option Unit) none none = .ok _)
  refine ⟨_, rfl, by decide +kernel, by decide +kernel, by decide +kernel, ?_, by decide +kernel,
    by decide +kernel, ?_⟩
  · exact (howned actions).1.trans (by decide +kernel)
  · intro more
    exact ((howned (actions ++ teardown)).2.1 (by decide +kernel) more).2.1

end Session

end AudioIntake
