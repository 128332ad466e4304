import AudioIntake.Proofs.Pipeline.Custody

/-!
# Shutting the worker down

A worker that is gone has left nothing behind: its queue is closed and empty, nothing is held, and no
rerequest is waiting. A close in the queue is a barrier: whatever happens next, the consumer is given
only packets that were held or stood in front of it.
-/

namespace AudioIntake.Pipeline

variable {p q : Pipeline} {a : Pipeline.Action} {bound : List Packet}

structure Vacant (p : Pipeline) : Prop where
  isOpen_eq : p.queue.isOpen = false
  items_eq : p.queue.items = []
  held_eq : p.sequencer.held = ∅
  pending_eq : p.pending = []

/-- A running worker takes commands, and one that is gone has left nothing behind. -/
structure Tidy (p : Pipeline) : Prop where
  isOpen_of_running : p.phase = .running → p.queue.isOpen = true
  vacant : p.phase ≠ .running → p.Vacant

theorem Tidy.of_open (hphase : p.phase = .running) (hopen : p.queue.isOpen = true) : p.Tidy where
  isOpen_of_running _ := hopen
  vacant hgone := absurd hphase hgone

theorem Tidy.of_vacant (hgone : p.phase ≠ .running) (h : p.Vacant) : p.Tidy where
  isOpen_of_running hphase := absurd hphase hgone
  vacant _ := h

/-- The buffers, the timer, the outbox and the journal do not matter. -/
theorem Tidy.congr (h : p.Tidy) (hqueue : q.queue = p.queue) (hsequencer : q.sequencer = p.sequencer)
    (hpending : q.pending = p.pending) (hphase : q.phase = p.phase) : q.Tidy where
  isOpen_of_running hrunning := by
    rw [hqueue]
    exact h.isOpen_of_running (hphase ▸ hrunning)
  vacant hgone := by
    have hvacant := h.vacant (hphase ▸ hgone)
    exact
      { isOpen_eq := hqueue ▸ hvacant.isOpen_eq
        items_eq := hqueue ▸ hvacant.items_eq
        held_eq := hsequencer ▸ hvacant.held_eq
        pending_eq := hpending ▸ hvacant.pending_eq }

theorem pending_of_isReady (h : p.isReady = true) : p.pending = [] := by
  rw [isReady, Bool.and_eq_true] at h
  exact List.isEmpty_iff.mp h.2

/-! ### What is left behind -/

theorem Tidy.finish (h : p.Tidy) : p.finishIfIdle.Tidy := by
  rw [finishIfIdle]
  split
  · exact h.congr rfl rfl rfl rfl
  · exact h

theorem tidy_absorb (hphase : p.phase = .running) (hopen : p.queue.isOpen = true)
    (hpending : p.pending = []) (next : Sequencer) (r : Report) : (p.absorb next r).Tidy := by
  by_cases hfails : r.delivered.any p.fails = true
  · rw [absorb_of_fails hfails]
    exact .of_vacant (by simp [fail]) ⟨rfl, rfl, rfl, hpending⟩
  · rw [absorb_of_fine (Bool.not_eq_true _ ▸ hfails)]
    exact .of_open hphase hopen

theorem tidy_act (h : p.Tidy) (a : Action) : (p.act a).Tidy := by
  have hmoved := p.moved_act a
  generalize p.act a = q at hmoved ⊢
  have habsorbed : ∀ u : Pipeline, p.isReady = true → u.phase = p.phase →
      u.queue.isOpen = p.queue.isOpen → u.pending = p.pending →
      ∀ next r, (u.absorb next r).finishIfIdle.Tidy := by
    intro u hready hphase hopen hpending next r
    have hrunning := phase_of_isReady hready
    apply Tidy.finish
    apply tidy_absorb
    · exact hphase.trans hrunning
    · exact hopen.trans (h.isOpen_of_running hrunning)
    · exact hpending.trans (pending_of_isReady hready)
  -- A rerequest that waits shows that the worker is still there.
  have hwaits : ∀ r rest, p.pending = r :: rest → p.phase = .running := by
    intro r rest hpending
    by_contra hgone
    rw [(h.vacant hgone).pending_eq] at hpending
    cases hpending
  cases hmoved with
  | idle => exact h
  | refused => exact h.congr rfl rfl rfl rfl
  | queued hopen =>
      have hphase : p.phase = .running := by
        by_contra hgone
        exact absurd ((h.vacant hgone).isOpen_eq.symm.trans hopen) (by decide)
      exact .of_open hphase hopen
  | worked hready | ticked hready => refine habsorbed _ hready ?_ ?_ ?_ _ _ <;> rfl
  | stopped hready =>
      have hpending := pending_of_isReady hready
      exact .of_vacant (by simp [stop]) ⟨rfl, rfl, rfl, hpending⟩
  | dropped hpending | offered hpending =>
      have hphase := hwaits _ _ hpending
      apply Tidy.finish
      exact .of_open hphase (h.isOpen_of_running hphase)
  | transmitted => exact h.congr rfl rfl rfl rfl
  | elapsed => exact h.congr rfl rfl rfl rfl

/-! ### What a close holds back -/

/-- What may still reach the consumer lies within `bound`: it is held or waits in front of a close,
or the worker is gone. -/
inductive Barred (bound : List Packet) (p : Pipeline) : Prop where
  | waiting {before behind : List Command} (hitems : p.queue.items = before ++ .close :: behind)
      (hahead : (before.flatMap Command.packets ++ p.sequencer.held.values).Subperm bound) :
      Barred bound p
  | gone (hgone : p.phase ≠ .running) : Barred bound p

theorem Barred.finish (h : Barred bound p) : Barred bound p.finishIfIdle := by
  rw [finishIfIdle]
  split
  · cases h with
    | waiting hitems hahead => exact .waiting hitems hahead
    | gone hgone => exact .gone hgone
  · exact h

theorem consumed_finishIfIdle (p : Pipeline) : p.finishIfIdle.consumed = p.consumed := by
  rw [consumed, (keeps_finishIfIdle p).journal_eq, consumed]

/-- A turn gives the consumer packets that were held or came with it. -/
theorem barred_absorb {before behind : List Command} (turn : Turn)
    (hitems : p.queue.items = before ++ .close :: behind)
    (hahead : (turn.packets ++ before.flatMap Command.packets ++
      p.sequencer.held.values).Subperm bound) :
    ∃ new rest, (p.absorb (p.next turn) (p.report turn)).consumed = p.consumed ++ new ∧
      (new ++ rest).Subperm bound ∧ Barred rest (p.absorb (p.next turn) (p.report turn)) := by
  obtain ⟨_, _, hdisposes⟩ := p.sequencer.disposes_turn p.maxLead turn
  have hcustody := hdisposes.custody
  have hreaches : ((p.report turn).delivered ++
      (before.flatMap Command.packets ++ (p.next turn).held.values)).Subperm bound := by
    refine List.subperm_iff_count.mpr fun packet => ?_
    have hcount := List.perm_iff_count.mp hcustody packet
    have hbound := List.subperm_iff_count.mp hahead packet
    simp only [next, report, List.count_append] at hcount hbound ⊢
    omega
  by_cases hfails : (p.report turn).delivered.any p.fails = true
  · rw [absorb_of_fails hfails]
    refine ⟨_, [], p.consumed_note _, ?_, .gone (by simp [fail])⟩
    have hcut := (p.eventsToFailure_isPrefix (p.report turn).events).filterMap Event.delivery?
    rw [List.append_nil]
    exact hcut.sublist.subperm.trans ((List.sublist_append_left _ _).subperm.trans hreaches)
  · rw [absorb_of_fine (Bool.not_eq_true _ ▸ hfails)]
    exact ⟨_, _, p.consumed_note _, hreaches, .waiting hitems (.refl _)⟩

/-- A worker that is gone stays gone and gives the consumer nothing. -/
theorem act_of_gone (hgone : p.phase ≠ .running) (a : Action) :
    (p.act a).consumed = p.consumed ∧ (p.act a).phase = p.phase := by
  have hacted := p.acted_act a
  generalize p.act a = q at hacted ⊢
  cases hacted with
  | idle _ h => exact ⟨by rw [consumed, h.journal_eq, consumed], h.phase_eq⟩
  | turned _ hready => exact absurd (phase_of_isReady hready) hgone
  | failed _ hready => exact absurd (phase_of_isReady hready) hgone
  | stopped _ hready => exact absurd (phase_of_isReady hready) hgone
  | offered _ _ _ h => exact ⟨by rw [consumed, h.journal_eq, consumed], h.phase_eq⟩
  | transmitted _ _ h => exact ⟨by rw [consumed, h.journal_eq, consumed], h.phase_eq⟩

/-- An action gives the consumer some of the packets within the bound, and the others stay within
it. -/
theorem barred_act (h : Barred bound p) (a : Action) :
    ∃ new rest, (p.act a).consumed = p.consumed ++ new ∧ (new ++ rest).Subperm bound ∧
      Barred rest (p.act a) := by
  cases h with
  | gone hgone =>
      obtain ⟨hconsumed, hphase⟩ := act_of_gone hgone a
      refine ⟨[], [], by rw [hconsumed, List.append_nil], List.nil_subperm, .gone ?_⟩
      rwa [hphase]
  | @waiting before behind hitems hahead =>
      have hmoved := p.moved_act a
      generalize p.act a = q at hmoved ⊢
      have hstill : ∀ q : Pipeline, q.consumed = p.consumed → Barred bound q →
          ∃ new rest, q.consumed = p.consumed ++ new ∧ (new ++ rest).Subperm bound ∧
            Barred rest q := fun q hconsumed hbarred =>
        ⟨[], bound, by rw [hconsumed, List.append_nil], .refl _, hbarred⟩
      cases hmoved with
      | idle => exact hstill p rfl (.waiting hitems hahead)
      | refused => exact hstill _ rfl (.waiting hitems hahead)
      | @queued c =>
          have hpushed : (p.queue.push c).items = before ++ .close :: (behind ++ [c]) := by
            rw [Queue.push, hitems, List.append_assoc]
            rfl
          exact hstill _ rfl (.waiting hpushed hahead)
      | @worked c rest turn _ hhead hturn =>
          rw [hhead] at hitems
          cases before with
          | nil =>
              cases hitems
              cases hturn
          | cons first before =>
              cases hitems
              rw [List.flatMap_cons, ← packets_of_turn? hturn] at hahead
              obtain ⟨new, rest, hconsumed, hwithin, hbarred⟩ := barred_absorb
                (p := { p with queue := { p.queue with items := before ++ .close :: behind } })
                turn rfl hahead
              exact ⟨new, rest, (consumed_finishIfIdle _).trans hconsumed, hwithin, hbarred.finish⟩
      | stopped =>
          exact ⟨[], [], (List.append_nil _).symm, List.nil_subperm, .gone (by simp [stop])⟩
      | ticked =>
          obtain ⟨new, rest, hconsumed, hwithin, hbarred⟩ := barred_absorb
            (p := { p with timer := p.timer.reset p.now }) .tick hitems hahead
          exact ⟨new, rest, (consumed_finishIfIdle _).trans hconsumed, hwithin, hbarred.finish⟩
      | dropped | offered =>
          refine hstill _ (consumed_finishIfIdle _) (Barred.finish ?_)
          exact .waiting hitems hahead
      | transmitted => exact hstill _ rfl (.waiting hitems hahead)
      | elapsed => exact hstill _ rfl (.waiting hitems hahead)

/-- Since it was `given` some packets, the consumer has got no others than those within the bound, and
will not get any. -/
def HoldsBack (given bound : List Packet) (p : Pipeline) : Prop :=
  ∃ new rest, p.consumed = given ++ new ∧ (new ++ rest).Subperm bound ∧ Barred rest p

theorem holdsBack_act {given : List Packet} (h : HoldsBack given bound p) (a : Action) :
    HoldsBack given bound (p.act a) := by
  obtain ⟨new, rest, hconsumed, hwithin, hbarred⟩ := h
  obtain ⟨more, rest', hmore, hwithin', hbarred'⟩ := barred_act hbarred a
  refine ⟨new ++ more, rest', ?_, ?_, hbarred'⟩
  · rw [hmore, hconsumed, List.append_assoc]
  · rw [List.append_assoc]
    exact ((List.subperm_append_left new).mpr hwithin').trans hwithin

end AudioIntake.Pipeline
