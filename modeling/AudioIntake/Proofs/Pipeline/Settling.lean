import AudioIntake.Proofs.Pipeline.Ending
import AudioIntake.Proofs.Pipeline.Steps

/-!
# Settling leaves nothing to do

A turn of the worker takes one command off the queue, and no rerequest waits behind a command. A
tick makes rerequests, and each of them goes through the outbox as soon as it is in. So a pipeline
in which some commands wait, and nothing else, has settled after as many turns.
-/

namespace AudioIntake.Pipeline

variable {p q : Pipeline} {n : Nat} {sleeper : Alarm}

/-- No more than `n` commands wait, and no rerequest is in the outbox. -/
structure Waits (n : Nat) (p : Pipeline) : Prop where
  tidy : p.Tidy
  roomy : p.Roomy
  outbox_eq : p.outbox.items = []
  length_le : p.queue.items.length ≤ n

namespace Waits

theorem mono {n' : Nat} (h : Waits n p) (hle : n ≤ n') : Waits n' p :=
  { h with length_le := Nat.le_trans h.length_le hle }

/-- The clock and the timer do not matter. -/
theorem congr (h : Waits n p) (hqueue : q.queue = p.queue)
    (hsequencer : q.sequencer = p.sequencer) (hpending : q.pending = p.pending)
    (hphase : q.phase = p.phase) (houtbox : q.outbox = p.outbox) : Waits n q where
  tidy := h.tidy.congr hqueue hsequencer hpending hphase
  roomy := ⟨hqueue ▸ h.roomy.queue_pos, houtbox ▸ h.roomy.outbox_pos⟩
  outbox_eq := houtbox ▸ h.outbox_eq
  length_le := hqueue ▸ h.length_le

/-- A worker that is gone leaves no command behind. -/
theorem of_gone (htidy : p.Tidy) (hroomy : p.Roomy) (houtbox : p.outbox.items = [])
    (hgone : p.phase ≠ .running) : Waits n p where
  tidy := htidy
  roomy := hroomy
  outbox_eq := houtbox
  length_le := by
    rw [(htidy.vacant hgone).items_eq]
    exact Nat.zero_le n

end Waits

/-! ### Rerequests -/

theorem outbox_transmit (p : Pipeline) : p.transmit.outbox.items = p.outbox.items.tail := by
  rw [transmit]
  split
  · rename_i hitems
    rw [hitems]
    rfl
  · rename_i hitems
    rw [hitems]
    rfl

/-- A transmitter touches the outbox only. -/
theorem rest_transmit (p : Pipeline) :
    p.transmit.pending = p.pending ∧ p.transmit.queue = p.queue := by
  rw [transmit]
  split <;> exact ⟨rfl, rfl⟩

/-- What an offer puts in an empty outbox is one rerequest at most. -/
theorem tail_outbox_offer (hempty : p.outbox.items = []) : p.offer.outbox.items.tail = [] := by
  have hacted := p.acted_offer
  generalize p.offer = q at hacted ⊢
  cases hacted with
  | offered _ _ _ h =>
      rw [h.outbox_eq]
      dsimp only
      split
      · rw [Queue.push, hempty]
        rfl
      · rw [hempty]
        rfl
  | transmitted _ houtbox => exact absurd (hempty.symm.trans houtbox) (List.cons_ne_nil _ _).symm
  | idle _ h | turned _ _ _ h | failed _ _ _ h | stopped _ _ h =>
      rw [h.outbox_eq]
      exact congrArg List.tail hempty

/-- With the outbox empty the first rerequest enters it and leaves it again. -/
theorem relay_of_waits (h : Waits n p) : Waits n p.relay ∧ p.relay.pending = p.pending.tail := by
  obtain ⟨hpending, hqueue⟩ : p.offer.pending = p.pending.tail ∧ p.offer.queue = p.queue := by
    cases hpending : p.pending with
    | nil =>
        rw [offer, hpending]
        exact ⟨hpending, rfl⟩
    | cons r rest =>
        obtain ⟨hrelayed, hrest⟩ := relayed_offer h.roomy.outbox_pos h.outbox_eq hpending
        exact ⟨hrest, hrelayed.queue_eq⟩
  obtain ⟨hpending', hqueue'⟩ := p.offer.rest_transmit
  refine ⟨?_, hpending'.trans hpending⟩
  exact
    { tidy := tidy_act (tidy_act h.tidy .offer) .transmit
      roomy := roomy_act (roomy_act h.roomy .offer) .transmit
      outbox_eq := p.offer.outbox_transmit.trans (tail_outbox_offer h.outbox_eq)
      length_le := by
        change p.offer.transmit.queue.items.length ≤ n
        rw [hqueue', hqueue]
        exact h.length_le }

theorem relayAll_of_waits (h : Waits n p) : Waits n p.relayAll ∧ p.relayAll.pending = [] := by
  -- After so many rerequests the rest of them wait.
  have hrelayed : ∀ count, Waits n (Nat.repeat relay count p) ∧
      (Nat.repeat relay count p).pending = p.pending.drop count := by
    intro count
    induction count with
    | zero => exact ⟨h, rfl⟩
    | succ count ih =>
        obtain ⟨hwaits, hpending⟩ := relay_of_waits ih.1
        refine ⟨hwaits, ?_⟩
        rw [Nat.repeat, hpending, ih.2, List.tail_drop]
  obtain ⟨hwaits, hpending⟩ := hrelayed p.pending.length
  exact ⟨hwaits, hpending.trans (List.drop_length)⟩

/-! ### Turns -/

theorem armTimer_of_waits (h : Waits n p) (hpending : p.pending = []) :
    Waits n p.armTimer ∧ p.armTimer.pending = [] := by
  rw [armTimer]
  split
  · split
    · exact ⟨h.congr rfl rfl rfl rfl rfl, hpending⟩
    · have hgone : p.die.phase ≠ .running := by
        change Phase.failed ≠ .running
        decide
      refine ⟨.of_gone (.of_vacant hgone ⟨rfl, rfl, rfl, hpending⟩) ?_ h.outbox_eq hgone, hpending⟩
      exact ⟨h.roomy.queue_pos, h.roomy.outbox_pos⟩
  · exact ⟨h, hpending⟩

/-- Without rerequests that wait, nothing changes in the outbox. -/
theorem outbox_of_acted {a : Action} (h : Acted p a q) (hpending : p.pending = [])
    (hempty : p.outbox.items = []) : q.outbox = p.outbox := by
  cases h with
  | offered _ hwaits => exact absurd (hpending.symm.trans hwaits) (List.cons_ne_nil _ _).symm
  | transmitted _ hwaits => exact absurd (hempty.symm.trans hwaits) (List.cons_ne_nil _ _).symm
  | idle _ h | turned _ _ _ h | failed _ _ _ h | stopped _ _ h => exact h.outbox_eq

theorem tick_of_waits (h : Waits n p) : Waits n p.tick := by
  by_cases hdue : p.tickDue = true
  · have htidy : p.tick.Tidy := tidy_act h.tidy .tick
    have hroomy : p.tick.Roomy := roomy_act h.roomy .tick
    have houtbox : p.tick.outbox.items = [] := by
      rw [outbox_of_acted p.acted_tick (pending_of_isReady (isReady_of_tickDue hdue)) h.outbox_eq]
      exact h.outbox_eq
    have houtcome := absorb_outcome { p with timer := p.timer.reset p.now } (p.next .tick)
      (p.report .tick)
    have hticked : p.tick = ({ p with timer := p.timer.reset p.now }.absorb (p.next .tick)
        (p.report .tick)).finishIfIdle := if_pos hdue
    rw [← hticked] at houtcome
    rcases houtcome with hgone | ⟨hqueue, -⟩
    · exact .of_gone htidy hroomy houtbox hgone
    · exact ⟨htidy, hroomy, houtbox, hqueue ▸ h.length_le⟩
  · rw [tick_of_early hdue]
    exact h

/-- No rerequest comes of a command. -/
theorem pending_work (hpending : p.pending = []) : p.work.pending = [] := by
  have hacted := p.acted_work
  generalize p.work = q at hacted ⊢
  cases hacted with
  | turned hturn _ _ h =>
      rw [turn?, Option.ite_none_right_eq_some, Option.bind_eq_some_iff] at hturn
      obtain ⟨-, c, -, hc⟩ := hturn
      rw [h.pending_eq]
      exact requests_report_of_command hc
  | offered _ hwaits => exact absurd (hpending.symm.trans hwaits) (List.cons_ne_nil _ _).symm
  | idle _ h | failed _ _ _ h | stopped _ _ h | transmitted _ _ h =>
      exact h.pending_eq.trans hpending

theorem work_of_waits (h : Waits (n + 1) p) (hpending : p.pending = []) : Waits n p.work := by
  have htidy : p.work.Tidy := tidy_act h.tidy .work
  have hroomy : p.work.Roomy := roomy_act h.roomy .work
  have houtbox : p.work.outbox.items = [] := by
    rw [outbox_of_acted p.acted_work hpending h.outbox_eq]
    exact h.outbox_eq
  cases hitems : p.queue.items with
  | nil =>
      have hidle := (work_of_idle (p := p) fun hstep => hstep.2 hitems).2
      refine ⟨htidy, hroomy, houtbox, ?_⟩
      rw [hidle, hitems]
      exact Nat.zero_le n
  | cons c rest =>
      have hrunning : p.phase = .running := by
        by_contra hgone
        rw [(h.tidy.vacant hgone).items_eq] at hitems
        cases hitems
      rcases work_outcome (isReady_of_running hrunning hpending) hitems with hgone | ⟨hqueue, -⟩
      · exact .of_gone htidy hroomy houtbox hgone
      · refine ⟨htidy, hroomy, houtbox, ?_⟩
        have hlength := h.length_le
        rw [hitems, List.length_cons] at hlength
        rw [hqueue]
        exact Nat.le_of_succ_le_succ hlength

theorem heedAlarm_of_waits (h : Waits n p) (hpending : p.pending = []) :
    Waits n p.heedAlarm ∧ p.heedAlarm.pending = [] := by
  rw [heedAlarm]
  split
  · exact ⟨h, hpending⟩
  · obtain ⟨hrelayed, hnone⟩ := relayAll_of_waits (tick_of_waits h)
    exact armTimer_of_waits hrelayed hnone

/-! ### At rest -/

/-- No command waits, and no rerequest. -/
structure AtRest (p : Pipeline) : Prop extends Waits 0 p where
  pending_eq : p.pending = []

theorem AtRest.congr (h : p.AtRest) (hqueue : q.queue = p.queue)
    (hsequencer : q.sequencer = p.sequencer) (hpending : q.pending = p.pending)
    (hphase : q.phase = p.phase) (houtbox : q.outbox = p.outbox) : q.AtRest where
  toWaits := h.toWaits.congr hqueue hsequencer hpending hphase houtbox
  pending_eq := hpending.trans h.pending_eq

theorem atRest_settle (h : Waits n p) (hpending : p.pending = []) : p.settle.AtRest := by
  -- After so many turns the rest of the commands wait.
  have hturned : ∀ count,
      Waits (p.queue.items.length - count)
        (Nat.repeat (fun p => p.work.armTimer.heedAlarm) count p) ∧
      (Nat.repeat (fun p => p.work.armTimer.heedAlarm) count p).pending = [] := by
    intro count
    induction count with
    | zero => exact ⟨{ h with length_le := Nat.le_refl _ }, hpending⟩
    | succ count ih =>
        obtain ⟨hwaits, hnone⟩ := ih
        have hleft : p.queue.items.length - count ≤ p.queue.items.length - (count + 1) + 1 := by
          omega
        have hworked := work_of_waits (hwaits.mono hleft) hnone
        obtain ⟨harmed, hquiet⟩ := armTimer_of_waits hworked (pending_work hnone)
        exact heedAlarm_of_waits harmed hquiet
  obtain ⟨hwaits, hnone⟩ := hturned p.queue.items.length
  rw [Nat.sub_self] at hwaits
  exact ⟨hwaits, hnone⟩

theorem AtRest.heedAlarm (h : p.AtRest) : p.heedAlarm.AtRest := by
  obtain ⟨hwaits, hnone⟩ := heedAlarm_of_waits h.toWaits h.pending_eq
  exact ⟨hwaits, hnone⟩

theorem AtRest.doze (h : p.AtRest) (sleeper : Alarm) : (p.doze sleeper).1.AtRest := by
  rw [Pipeline.doze]
  split
  · exact h.congr rfl rfl rfl rfl rfl
  · exact h.congr rfl rfl rfl rfl rfl

theorem AtRest.sleepOn (h : p.AtRest) (sleeper : Alarm) (times : Nat) :
    (p.sleepOn sleeper times).AtRest := by
  induction times generalizing p sleeper with
  | zero => exact h.congr rfl rfl rfl rfl rfl
  | succ times ih =>
      have hdozed := h.doze sleeper
      rw [Pipeline.sleepOn]
      split
      · rename_i awake hdoze
        rw [hdoze] at hdozed
        exact hdozed.heedAlarm
      · rename_i awake sleeper hdoze
        rw [hdoze] at hdozed
        exact ih hdozed.heedAlarm sleeper

theorem submit_of_waits (h : Waits n p) (c : Command) :
    Waits (n + 1) (p.submit c) ∧ (p.submit c).pending = p.pending := by
  have htidy : (p.submit c).Tidy := tidy_act h.tidy (.submit c)
  have hroomy : (p.submit c).Roomy := roomy_act h.roomy (.submit c)
  have hlength := h.length_le
  have hmoved := p.moved_submit c
  generalize p.submit c = q at htidy hroomy hmoved ⊢
  cases hmoved with
  | idle => exact ⟨h.mono (Nat.le_succ n), rfl⟩
  | refused => exact ⟨⟨htidy, hroomy, h.outbox_eq, Nat.le_succ_of_le hlength⟩, rfl⟩
  | queued =>
      refine ⟨⟨htidy, hroomy, h.outbox_eq, ?_⟩, rfl⟩
      rw [Queue.push, List.length_append]
      exact Nat.succ_le_succ hlength

/-- At rest there is room for the next command, and nobody has to wait or give way. -/
theorem AtRest.submitWaiting_eq (h : p.AtRest) (c : Command) :
    p.submitWaiting c = (p.submit c, p.queue.isOpen) := by
  rw [submitWaiting, if_pos]
  rw [Nat.le_zero.mp h.length_le]
  exact Nat.lt_min.mpr ⟨h.roomy.queue_pos, by decide⟩

theorem AtRest.settle_submit (h : p.AtRest) (c : Command) : (p.submit c).settle.AtRest := by
  obtain ⟨hwaits, hpending⟩ := submit_of_waits h.toWaits c
  exact atRest_settle hwaits (hpending.trans h.pending_eq)

end AudioIntake.Pipeline
