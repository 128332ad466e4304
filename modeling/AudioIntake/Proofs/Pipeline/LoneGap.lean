import AudioIntake.Proofs.Pipeline.Actions
import AudioIntake.Proofs.Sequencer.Ascent
import AudioIntake.Proofs.Sequencer.Latency

/-!
# One packet behind a gap

A worker that has delivered one packet and holds another one is left alone. Each tick brings the gap
between them one level up, or gives it up and delivers the packet behind it; the rerequests of a
tick leave one by one, and then the next tick can come. So there is a run in which the two packets
are delivered one right after the other, however wide the gap was.
-/

namespace AudioIntake

namespace Sequencer

variable {s : Sequencer} {b : Packet} {waited : Nat}

/-- A tick can only deliver what is held. -/
theorem getElem?_held_of_ticked (hs : s.Sound) {c : Packet} (hc : c ∈ s.tick.2.delivered) :
    s.held[c.seqno]? = some c := by
  obtain ⟨n, hsweep, -⟩ := sweeps_tick hs
  rw [hsweep.delivered_eq, List.mem_filterMap] at hc
  obtain ⟨i, -, hget⟩ := hc
  rw [(sound_age hs).seqno_eq hget]
  exact hget

/-- A tick that delivers the only packet held does nothing else that counts before, and one that
does not deliver it does nothing that counts at all. -/
theorem tick_of_alone (hs : s.Sound) (hwaits : s.Waits b waited)
    (halone : ∀ k ∈ s.held, k = b.seqno) :
    (∃ silent rest, s.tick.2.events = silent ++ .output b :: rest ∧ ∀ e ∈ silent, e.IsSilent) ∨
      (∀ e ∈ s.tick.2.events, e.IsSilent) ∧ s.tick.1.Waits b (waited + 1) ∧
        waited + 1 < s.ladder.giveUpAt ∧ ∀ k ∈ s.tick.1.held, k = b.seqno := by
  have hflush : ∀ e ∈ s.tick.2.events, e ≠ .flush := by
    rintro _ hmem rfl
    exact flush_not_mem_tick hs hmem
  have honly : ∀ c ∈ s.tick.2.delivered, c = b := by
    intro c hc
    have hheld := getElem?_held_of_ticked hs hc
    have hmem := (Std.ExtTreeMap.getElem?_eq_some_iff.mp hheld).1
    rw [halone _ hmem, hwaits.held] at hheld
    exact (Option.some.inj hheld).symm
  cases hdelivered : s.tick.2.delivered with
  | cons c rest =>
      obtain rfl := honly c (hdelivered ▸ List.mem_cons_self)
      rw [Report.delivered, List.filterMap_eq_cons_iff] at hdelivered
      obtain ⟨silent, e, more, hevents, hsilent, he, -⟩ := hdelivered
      cases e with
      | output d =>
          obtain rfl := Option.some.inj he
          refine Or.inl ⟨silent, more, hevents, fun e he => ⟨hsilent e he, hflush e ?_⟩⟩
          rw [hevents]
          exact List.mem_append_left _ he
      | _ => cases he
  | nil =>
      rcases hwaits.tick hs with hleaves | ⟨hstill, hlt⟩
      · rcases hleaves.2 with hmem | ⟨hcall | hcall, -⟩
        · change b ∈ s.tick.2.delivered at hmem
          rw [hdelivered] at hmem
          cases hmem
        · cases hcall
        · cases hcall
      · refine Or.inr ⟨fun e he => ⟨?_, hflush e he⟩, hstill, hlt, fun k hk => ?_⟩
        · exact List.filterMap_eq_nil_iff.mp hdelivered e he
        · obtain ⟨n, hsweep, -⟩ := sweeps_tick hs
          exact halone k (hsweep.mem_held.mp hk).1

end Sequencer

namespace Pipeline

variable {p q : Pipeline} {a b : Packet} {left : Nat}

/-- `a` was delivered last, with no flush since. -/
def Delivered (p : Pipeline) (a : Packet) : Prop :=
  ∃ before middle : List Event, p.journal.events.map Prod.snd = before ++ .output a :: middle ∧
    ∀ e ∈ middle, e.IsSilent

/-- `b` is delivered right after `a`, with no flush between. -/
def Follows (p : Pipeline) (a b : Packet) : Prop :=
  ∃ before middle after : List Event,
    p.journal.events.map Prod.snd = before ++ .output a :: middle ++ .output b :: after ∧
      ∀ e ∈ middle, e.IsSilent

theorem Delivered.silent (h : p.Delivered a) {es : List Event}
    (hevents : q.journal.events.map Prod.snd = p.journal.events.map Prod.snd ++ es)
    (hes : ∀ e ∈ es, e.IsSilent) : q.Delivered a := by
  obtain ⟨before, middle, hbefore, hmiddle⟩ := h
  refine ⟨before, middle ++ es, ?_, List.forall_mem_append.mpr ⟨hmiddle, hes⟩⟩
  rw [hevents, hbefore, List.append_assoc, List.cons_append]

theorem Delivered.follows (h : p.Delivered a) {es rest : List Event}
    (hevents : q.journal.events.map Prod.snd =
      p.journal.events.map Prod.snd ++ (es ++ .output b :: rest))
    (hes : ∀ e ∈ es, e.IsSilent) : q.Follows a b := by
  obtain ⟨before, middle, hbefore, hmiddle⟩ := h
  refine ⟨before, middle ++ es, rest, ?_, List.forall_mem_append.mpr ⟨hmiddle, hes⟩⟩
  rw [hevents, hbefore]
  simp only [List.append_assoc, List.cons_append]

/-- `a` was delivered last, `b` is all that is held, and at most `left` more ticks go by before the
gap in front of it is given up. -/
structure Awaits (p : Pipeline) (a b : Packet) (left : Nat) : Prop where
  phase_eq : p.phase = .running
  failsOn_eq : p.failsOn = none
  recovering_eq : p.recovering = true
  sound : p.sequencer.Sound
  alone : ∀ k ∈ p.sequencer.held, k = b.seqno
  waits : ∃ waited, p.sequencer.Waits b waited ∧ p.sequencer.ladder.giveUpAt ≤ waited + left
  delivered : p.Delivered a
  outbox_isOpen : p.outbox.isOpen = true
  outbox_capacity : 0 < p.outbox.capacity

namespace Awaits

theorem finishIfIdle (h : Awaits p a b left) : Awaits p.finishIfIdle a b left := by
  obtain ⟨waited, hwaits, -⟩ := h.waits
  have hopen := Sequencer.inRecovery_iff.mpr ⟨_, hwaits.mem⟩
  rw [Pipeline.finishIfIdle]
  split
  · exact { h with recovering_eq := hopen }
  · exact h

/-! ### Rerequests leave -/

theorem relay {r : Rerequest} {rest : List Rerequest} (h : Awaits p a b left)
    (hpending : p.pending = r :: rest) (hclear : p.outbox.items = []) :
    let q := p.run [.offer, .transmit]
    Awaits q a b left ∧ q.pending = rest ∧ q.outbox.items = [] := by
  have hroom : p.outbox.hasRoom = true := by
    rw [Queue.hasRoom, hclear]
    exact decide_eq_true h.outbox_capacity
  have hoffer : p.offer = { p with outbox := p.outbox.push r, pending := rest }.finishIfIdle := by
    rw [offer, hpending]
    dsimp only
    rw [if_neg (by rw [h.outbox_isOpen]; decide), if_pos hroom]
  have hpushed : Awaits { p with outbox := p.outbox.push r, pending := rest } a b left := { h with }
  have hoffered : Awaits p.offer a b left := hoffer ▸ hpushed.finishIfIdle
  have hkeeps := keeps_finishIfIdle { p with outbox := p.outbox.push r, pending := rest }
  rw [← hoffer] at hkeeps
  have hitems : p.offer.outbox.items = [r] := by
    rw [hkeeps.outbox_eq, Queue.push, hclear]
    rfl
  change Awaits p.offer.transmit a b left ∧ p.offer.transmit.pending = rest ∧
    p.offer.transmit.outbox.items = []
  rw [transmit, hitems]
  exact ⟨{ hoffered with }, hkeeps.pending_eq, rfl⟩

theorem relayAll (h : Awaits p a b left) (hclear : p.outbox.items = []) :
    ∃ actions, let q := p.run actions
      Awaits q a b left ∧ q.pending = [] ∧ q.outbox.items = [] := by
  generalize hpending : p.pending = pending
  induction pending generalizing p with
  | nil => exact ⟨[], h, hpending, hclear⟩
  | cons r rest ih =>
      obtain ⟨hone, hrest, hitems⟩ := h.relay hpending hclear
      obtain ⟨actions, hall⟩ := ih hone hitems hrest
      refine ⟨[.offer, .transmit] ++ actions, ?_⟩
      rw [run_append]
      exact hall

/-! ### Ticks -/

theorem ticked (h : Awaits p a b left) :
    let q := (p.completed p.sequencer.tick.1 p.sequencer.tick.2).finishIfIdle
    q.Follows a b ∨ ∃ left', left = left' + 1 ∧ Awaits q a b left' := by
  obtain ⟨waited, hwaits, hleft⟩ := h.waits
  have hwritten := map_events_completed p p.sequencer.tick.1 p.sequencer.tick.2
  rcases Sequencer.tick_of_alone h.sound hwaits h.alone with
    ⟨silent, rest, hevents, hsilent⟩ | ⟨hsilent, hstill, hlt, halone⟩
  · refine Or.inl ?_
    rw [hevents] at hwritten
    have hfollows := h.delivered.follows hwritten hsilent
    rw [Follows] at hfollows ⊢
    rw [(keeps_finishIfIdle _).journal_eq]
    exact hfollows
  · have hladder : p.sequencer.tick.1.ladder = p.sequencer.ladder :=
      Sequencer.ladder_call h.sound .tick
    have hgive : p.sequencer.tick.1.ladder.giveUpAt ≤ waited + 1 + (left - 1) := by
      rw [hladder]
      omega
    refine Or.inr ⟨left - 1, by omega, Awaits.finishIfIdle ?_⟩
    exact
      { h with
        sound := Sequencer.sound_call h.sound .tick
        alone := halone
        waits := ⟨waited + 1, hstill, hgive⟩
        delivered := h.delivered.silent hwritten hsilent }

theorem tick (h : Awaits p a b left) (hidle : p.pending = []) (hclear : p.outbox.items = []) :
    let q := p.run [.elapse p.timer.due, .tick]
    q.Follows a b ∨ ∃ left', left = left' + 1 ∧ Awaits q a b left' ∧ q.outbox.items = [] := by
  let u := p.elapse p.timer.due
  have hdue : u.tickDue = true := by
    simp [u, tickDue, awaitsTick, isReady, elapse, h.phase_eq, hidle, h.recovering_eq]
  change u.tick.Follows a b ∨ ∃ left', left = left' + 1 ∧ Awaits u.tick a b left' ∧
    u.tick.outbox.items = []
  rw [tick_of_due hdue (any_fails_of_none h.failsOn_eq _)]
  have hreset : Awaits { u with timer := u.timer.reset u.now } a b left := { h with }
  rcases hreset.ticked with hfollows | ⟨left', hleft, hticked⟩
  · exact Or.inl hfollows
  · refine Or.inr ⟨left', hleft, hticked, ?_⟩
    rw [(keeps_finishIfIdle _).outbox_eq]
    exact hclear

/-- The rerequests of the last tick leave, and the next tick comes. -/
theorem round (h : Awaits p a b left) (hclear : p.outbox.items = []) :
    ∃ actions, let q := p.run actions
      q.Follows a b ∨ ∃ left', left = left' + 1 ∧ Awaits q a b left' ∧ q.outbox.items = [] := by
  obtain ⟨relays, hrelayed, hidle, hclear⟩ := h.relayAll hclear
  have hticked := hrelayed.tick hidle hclear
  refine ⟨relays ++ [.elapse (p.run relays).timer.due, .tick], ?_⟩
  rw [run_append]
  exact hticked

/-- Left alone, the worker delivers the packet that it holds. -/
theorem follows (h : Awaits p a b left) (hclear : p.outbox.items = []) :
    ∃ actions, (p.run actions).Follows a b := by
  -- By induction on the ticks left: with none left, a round cannot bring another.
  induction left generalizing p with
  | zero =>
      obtain ⟨actions, hfollows | ⟨left, hleft, -⟩⟩ := h.round hclear
      · exact ⟨actions, hfollows⟩
      · omega
  | succ left ih =>
      obtain ⟨actions, hfollows | ⟨left', hleft, hticked, hclear⟩⟩ := h.round hclear
      · exact ⟨actions, hfollows⟩
      · obtain rfl := Nat.succ.inj hleft
        obtain ⟨more, hfollows⟩ := ih hticked hclear
        refine ⟨actions ++ more, ?_⟩
        rw [run_append]
        exact hfollows

end Awaits

/-! ### Two packets arrive -/

/-- A worker with nothing to do. -/
structure Calm (p : Pipeline) : Prop where
  phase_eq : p.phase = .running
  failsOn_eq : p.failsOn = none
  pending_eq : p.pending = []
  queue_items : p.queue.items = []
  queue_isOpen : p.queue.isOpen = true
  queue_capacity : 0 < p.queue.capacity

/-- The worker admits a packet and asks for nothing. -/
structure Admits (p : Pipeline) (packet : Packet) (q : Pipeline) : Prop where
  calm : Calm q
  sequencer_eq : q.sequencer = (p.sequencer.accept p.maxLead packet).1
  recovering_eq : q.recovering = q.sequencer.inRecovery
  maxLead_eq : q.maxLead = p.maxLead
  outbox_eq : q.outbox = p.outbox
  events_eq : q.journal.events.map Prod.snd =
    p.journal.events.map Prod.snd ++ (p.sequencer.accept p.maxLead packet).2.events

theorem Calm.admits (h : Calm p) (packet : Packet)
    (hquiet : (p.sequencer.accept p.maxLead packet).2.requests = []) :
    Admits p packet (p.run [.submit (.packet packet), .work]) := by
  have hroom : p.queue.hasRoom = true := by
    rw [Queue.hasRoom, h.queue_items]
    exact decide_eq_true h.queue_capacity
  let u := { p with queue := { p.queue with items := [.packet packet] } }
  have hsubmit : p.submit (.packet packet) = u := by
    rw [submit_of_room h.queue_isOpen hroom, Queue.push, h.queue_items]
    rfl
  have hready : u.isReady = true := by simp [u, isReady, h.phase_eq, h.pending_eq]
  have hwork := work_of_packet hready rfl (any_fails_of_none h.failsOn_eq _)
  have hdone : (p.completed (p.sequencer.accept p.maxLead packet).1
      (p.sequencer.accept p.maxLead packet).2).isReady = true := by
    simp [isReady, completed, letGo, noteDelivered, note, h.phase_eq, hquiet]
  have hqueue : { p.queue with items := [] } = p.queue := by rw [← h.queue_items]
  have hrun : p.run [.submit (.packet packet), .work] =
      (p.completed (p.sequencer.accept p.maxLead packet).1
        (p.sequencer.accept p.maxLead packet).2).finishTurn := by
    change (p.submit (.packet packet)).work = _
    rw [hsubmit, hwork]
    dsimp only [u]
    rw [hqueue, finishIfIdle, if_pos hdone]
  rw [hrun]
  exact
    { calm := { h with pending_eq := hquiet }
      sequencer_eq := rfl
      recovering_eq := rfl
      maxLead_eq := rfl
      outbox_eq := rfl
      events_eq := map_events_completed p (p.sequencer.accept p.maxLead packet).1
        (p.sequencer.accept p.maxLead packet).2 }

/-- The worker has delivered a packet and holds nothing. -/
structure Begun (p : Pipeline) (a : Packet) : Prop extends Calm p where
  sound : p.sequencer.Sound
  low_eq : p.sequencer.low = a.seqno.next
  started_eq : p.sequencer.started = true
  held_eq : p.sequencer.held = ∅
  delivered : p.Delivered a
  outbox_items : p.outbox.items = []
  outbox_isOpen : p.outbox.isOpen = true
  outbox_capacity : 0 < p.outbox.capacity

theorem begun_of_start {settings : StreamSettings} {pool : Pool}
    (hstart : start settings none pool = .ok p) (hprimary : a.retransmitted = false) :
    let q := p.run [.submit (.packet a), .work]
    Begun q a ∧ q.maxLead = settings.maxLead.toInt := by
  obtain ⟨-, hqueue, houtbox, hp⟩ := start_eq hstart
  have hcalm : Calm p := hp ▸ ⟨rfl, rfl, rfl, rfl, rfl, hqueue⟩
  have hfresh := fresh_start hstart
  have hsound : p.sequencer.Sound := hfresh.sequencer_eq ▸ Sequencer.sound_ofLadder _
  have hidle : p.sequencer.started = false := hfresh.sequencer_eq ▸ rfl
  have hopen : p.sequencer.closed = false := hfresh.sequencer_eq ▸ rfl
  have haccept : p.sequencer.accept p.maxLead a = p.sequencer.handle a :=
    Sequencer.accept_of_near fun hstarted => absurd (hidle.symm.trans hstarted) (by decide)
  rw [Sequencer.handle_of_idle hsound hopen hidle hprimary] at haccept
  have hfirst := hcalm.admits a (by rw [haccept])
  have hnext := Sequencer.sound_turn hsound p.maxLead (.packet a)
  have hstate := hfirst.sequencer_eq
  have hevents := hfirst.events_eq
  change (p.sequencer.accept p.maxLead a).1.Sound at hnext
  rw [← hstate] at hnext
  rw [haccept] at hstate hevents
  rw [hfresh.journal_eq] at hevents
  refine ⟨{ hfirst.calm with
    sound := hnext
    low_eq := hstate ▸ rfl
    started_eq := hstate ▸ rfl
    held_eq := hstate ▸ rfl
    delivered := ⟨[.input a.seqno a.retransmitted .delivered], [], hevents, nofun⟩
    outbox_items := hfirst.outbox_eq ▸ hfresh.outbox_eq
    outbox_isOpen := ?_
    outbox_capacity := ?_ }, hfirst.maxLead_eq.trans hfresh.maxLead_eq⟩
  · rw [hfirst.outbox_eq, hp]
  · rw [hfirst.outbox_eq, hp]
    exact houtbox

theorem Begun.awaits (h : Begun p a) (hahead : 0 < b.seqno.delta a.seqno.next)
    (hnear : b.seqno.delta a.seqno.next ≤ p.maxLead) :
    let q := p.run [.submit (.packet b), .work]
    Awaits q a b p.sequencer.ladder.giveUpAt ∧ q.outbox.items = [] := by
  rw [← h.low_eq] at hahead hnear
  have haccept : p.sequencer.accept p.maxLead b = p.sequencer.handle b :=
    Sequencer.accept_of_near fun _ => hnear
  obtain ⟨hevents, hquiet, hheld, halone⟩ :=
    Sequencer.handle_early h.sound h.started_eq h.held_eq hahead
  have hsecond := h.toCalm.admits b (by rw [haccept, hquiet])
  have hstate := hsecond.sequencer_eq
  have hwritten := hsecond.events_eq
  rw [haccept] at hstate hwritten
  rw [hevents] at hwritten
  refine ⟨?_, hsecond.outbox_eq ▸ h.outbox_items⟩
  exact
    { phase_eq := hsecond.calm.phase_eq
      failsOn_eq := hsecond.calm.failsOn_eq
      recovering_eq := by
        rw [hsecond.recovering_eq, hstate]
        exact Sequencer.inRecovery_iff.mpr ⟨_, (Std.ExtTreeMap.getElem?_eq_some_iff.mp hheld).1⟩
      sound := hstate ▸ Sequencer.sound_call h.sound (.handle b)
      alone := hstate ▸ halone
      waits := by
        rw [hstate]
        refine ⟨0, ⟨hheld, fun _ _ _ => Nat.zero_le _⟩, ?_⟩
        rw [(Sequencer.handled_handle h.sound b).ladder_eq]
        exact Nat.le_add_left _ _
      delivered := h.delivered.silent hwritten (by simp [Event.IsSilent, Event.delivery?])
      outbox_isOpen := hsecond.outbox_eq ▸ h.outbox_isOpen
      outbox_capacity := hsecond.outbox_eq ▸ h.outbox_capacity }

/-- Any two packets within the largest lead can be delivered one right after the other. -/
theorem exists_follows {settings : StreamSettings} {pool : Pool}
    (hstart : start settings none pool = .ok p) (hprimary : a.retransmitted = false)
    (hahead : 0 < b.seqno.delta a.seqno.next)
    (hnear : b.seqno.delta a.seqno.next ≤ settings.maxLead.toInt) :
    ∃ actions, (p.run actions).Follows a b := by
  obtain ⟨hbegun, hlead⟩ := begun_of_start hstart hprimary
  rw [← hlead] at hnear
  obtain ⟨hawaits, hclear⟩ := hbegun.awaits hahead hnear
  obtain ⟨actions, hfollows⟩ := hawaits.follows hclear
  refine ⟨[.submit (.packet a), .work] ++ ([.submit (.packet b), .work] ++ actions), ?_⟩
  rw [run_append, run_append]
  exact hfollows

end Pipeline

end AudioIntake
