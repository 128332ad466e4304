import AudioIntake.Proofs.Pipeline.Shutdown

/-!
# Every worker can be brought to an end

From any state the worker, the transmitter and one call for the end suffice to stop the worker: the
transmitter makes room for the rerequests that wait, the worker works off its queue, and in the
emptied queue there is room for the close.
-/

namespace AudioIntake.Pipeline

variable {p q u : Pipeline} {a : Pipeline.Action}

/-- What the worker and the transmitter do without anyone else, and the call for the end. -/
def Action.IsOwn : Action → Prop
  | .work => True
  | .offer => True
  | .transmit => True
  | .submit .close => True
  | _ => False

/-- The second pipeline has come from the first by such actions. -/
def Reaches (p q : Pipeline) : Prop := ∃ actions, (∀ a ∈ actions, a.IsOwn) ∧ q = p.run actions

namespace Reaches

theorem refl (p : Pipeline) : Reaches p p := ⟨[], nofun, rfl⟩

theorem of_act (p : Pipeline) (hown : a.IsOwn) : Reaches p (p.act a) :=
  ⟨[a], List.forall_mem_singleton.mpr hown, rfl⟩

theorem trans (h : Reaches p q) (h' : Reaches q u) : Reaches p u := by
  obtain ⟨actions, hactions, rfl⟩ := h
  obtain ⟨more, hmore, rfl⟩ := h'
  refine ⟨actions ++ more, ?_, (run_append p actions more).symm⟩
  exact List.forall_mem_append.mpr ⟨hactions, hmore⟩

end Reaches

/-! ### Handing the rerequests on -/

/-- Rerequests have been handed on, and nothing else has happened. -/
structure Relayed (p q : Pipeline) : Prop where
  reaches : Reaches p q
  queue_eq : q.queue = p.queue
  phase_eq : q.phase = p.phase
  capacity_eq : q.outbox.capacity = p.outbox.capacity

namespace Relayed

theorem refl (p : Pipeline) : Relayed p p := ⟨.refl p, rfl, rfl, rfl⟩

theorem trans (h : Relayed p q) (h' : Relayed q u) : Relayed p u where
  reaches := h.reaches.trans h'.reaches
  queue_eq := h'.queue_eq.trans h.queue_eq
  phase_eq := h'.phase_eq.trans h.phase_eq
  capacity_eq := h'.capacity_eq.trans h.capacity_eq

theorem finish (h : q.queue = p.queue ∧ q.phase = p.phase ∧ q.outbox.capacity = p.outbox.capacity)
    (hreaches : Reaches p q.finishIfIdle) : Relayed p q.finishIfIdle where
  reaches := hreaches
  queue_eq := by
    rw [finishIfIdle]
    split <;> exact h.1
  phase_eq := by
    rw [finishIfIdle]
    split <;> exact h.2.1
  capacity_eq := by
    rw [finishIfIdle]
    split <;> exact h.2.2

end Relayed

theorem exists_outbox_empty (p : Pipeline) :
    ∃ q, Relayed p q ∧ q.outbox.items = [] ∧ q.pending = p.pending := by
  generalize hitems : p.outbox.items = items
  induction items generalizing p with
  | nil => exact ⟨p, .refl p, hitems, rfl⟩
  | cons r rest ih =>
      have hreaches := Reaches.of_act (a := .transmit) p trivial
      rw [act, transmit, hitems] at hreaches
      obtain ⟨q, hq, hempty, hpending⟩ := ih { p with
        outbox := { p.outbox with items := rest }
        transmitter := (p.transmitter.encode r).2
        journal :=
          { p.journal with handed := p.journal.handed ++ [(p.transmitter.encode r).1] } } rfl
      exact ⟨q, .trans ⟨hreaches, rfl, rfl, rfl⟩ hq, hempty, hpending⟩

/-- With the outbox empty the worker can hand over its next rerequest. -/
theorem relayed_offer {r : Rerequest} {rest : List Rerequest} (hroom : 0 < p.outbox.capacity)
    (hempty : p.outbox.items = []) (hpending : p.pending = r :: rest) :
    Relayed p p.offer ∧ p.offer.pending = rest := by
  have hreaches : Reaches p p.offer := Reaches.of_act (a := .offer) p trivial
  have hasRoom : p.outbox.hasRoom = true := by
    rw [Queue.hasRoom, hempty]
    exact decide_eq_true hroom
  rw [offer, hpending] at hreaches ⊢
  dsimp only at hreaches ⊢
  rw [if_pos hasRoom] at hreaches ⊢
  split at hreaches
  · rename_i hclosed
    rw [if_pos hclosed]
    exact ⟨.finish ⟨rfl, rfl, rfl⟩ hreaches, (keeps_finishIfIdle _).pending_eq⟩
  · rename_i hopen
    rw [if_neg hopen]
    exact ⟨.finish ⟨rfl, rfl, rfl⟩ hreaches, (keeps_finishIfIdle _).pending_eq⟩

theorem exists_relayed (hroom : 0 < p.outbox.capacity) : ∃ q, Relayed p q ∧ q.pending = [] := by
  generalize hpending : p.pending = pending
  induction pending generalizing p with
  | nil => exact ⟨p, .refl p, hpending⟩
  | cons r rest ih =>
      obtain ⟨q, hq, hempty, hsame⟩ := exists_outbox_empty p
      have hroom' : 0 < q.outbox.capacity := hq.capacity_eq ▸ hroom
      obtain ⟨hoffered, hrest⟩ := relayed_offer hroom' hempty (hsame.trans hpending)
      obtain ⟨u, hu, hnone⟩ := ih (hoffered.capacity_eq ▸ hroom') hrest
      exact ⟨u, (hq.trans hoffered).trans hu, hnone⟩

/-! ### Working the queue off -/

theorem phase_finishIfIdle (p : Pipeline) : p.finishIfIdle.phase = p.phase :=
  (keeps_finishIfIdle p).phase_eq

theorem queue_finishIfIdle (p : Pipeline) : p.finishIfIdle.queue = p.queue := by
  rw [finishIfIdle]
  split <;> rfl

/-- A step leaves the queue as it is, unless the consumer fails in it. -/
theorem absorb_outcome (p : Pipeline) (next : Sequencer) (r : Report) :
    (p.absorb next r).finishIfIdle.phase ≠ .running ∨
      (p.absorb next r).finishIfIdle.queue = p.queue ∧
        (p.absorb next r).finishIfIdle.outbox = p.outbox := by
  rw [phase_finishIfIdle, queue_finishIfIdle, (keeps_finishIfIdle _).outbox_eq, absorb]
  split
  · left
    simp [fail]
  · exact .inr ⟨rfl, rfl⟩

/-- The worker takes the first command off its queue, unless it ends with it. -/
theorem work_outcome {c : Command} {rest : List Command} (hready : p.isReady = true)
    (hitems : p.queue.items = c :: rest) :
    p.work.phase ≠ .running ∨
      p.work.queue = { p.queue with items := rest } ∧ p.work.outbox = p.outbox := by
  obtain ⟨turn, hturn⟩ | rfl := turn?_or_close c
  · rw [work_of_turn hready hitems hturn]
    exact absorb_outcome _ _ _
  · left
    rw [work_of_close hready hitems]
    simp [stop]

theorem isReady_of_running (hphase : p.phase = .running) (hpending : p.pending = []) :
    p.isReady = true := by
  rw [isReady, hphase, hpending]
  rfl

theorem exists_gone (hopen : p.queue.isOpen = true) (hqueue : 0 < p.queue.capacity)
    (houtbox : 0 < p.outbox.capacity) : ∃ q, Reaches p q ∧ q.phase ≠ .running := by
  generalize hitems : p.queue.items = items
  induction items generalizing p with
  | nil =>
      obtain ⟨q, hq, hpending⟩ := exists_relayed houtbox
      by_cases hphase : q.phase = .running
      · have hroom : q.queue.hasRoom = true := by
          rw [hq.queue_eq, Queue.hasRoom, hitems]
          exact decide_eq_true hqueue
        have hclosing := submit_of_room (c := .close) (hq.queue_eq ▸ hopen) hroom
        have hready : (q.submit .close).isReady = true := by
          rw [hclosing]
          exact isReady_of_running hphase hpending
        have hlast : (q.submit .close).queue.items = [.close] := by
          rw [hclosing, Queue.push, hq.queue_eq, hitems]
          rfl
        refine ⟨(q.submit .close).work, ?_, ?_⟩
        · apply hq.reaches.trans
          exact (Reaches.of_act (a := .submit .close) q trivial).trans
            (Reaches.of_act (a := .work) (q.submit .close) trivial)
        · rw [work_of_close hready hlast]
          simp [stop]
      · exact ⟨q, hq.reaches, hphase⟩
  | cons c rest ih =>
      obtain ⟨q, hq, hpending⟩ := exists_relayed houtbox
      by_cases hphase : q.phase = .running
      · have hworked := work_outcome (isReady_of_running hphase hpending) (hq.queue_eq ▸ hitems)
        have hreaches := hq.reaches.trans (Reaches.of_act (a := .work) q trivial)
        rcases hworked with hgone | ⟨hqueue', houtbox'⟩
        · exact ⟨q.work, hreaches, hgone⟩
        · obtain ⟨u, hu, hgone⟩ := ih (p := q.work) (by rw [hqueue', hq.queue_eq]; exact hopen)
            (by rw [hqueue', hq.queue_eq]; exact hqueue)
            (by rw [houtbox', hq.capacity_eq]; exact houtbox) (by rw [hqueue'])
          exact ⟨u, hreaches.trans hu, hgone⟩
      · exact ⟨q, hq.reaches, hphase⟩

/-! ### The queues keep their size -/

structure Roomy (p : Pipeline) : Prop where
  queue_pos : 0 < p.queue.capacity
  outbox_pos : 0 < p.outbox.capacity

theorem outbox_capacity_act (p : Pipeline) (a : Action) :
    (p.act a).outbox.capacity = p.outbox.capacity := by
  have hacted := p.acted_act a
  generalize p.act a = q at hacted ⊢
  cases hacted with
  | offered _ _ _ h =>
      rw [h.outbox_eq]
      dsimp only
      split <;> rfl
  | transmitted _ _ h => rw [h.outbox_eq]
  | idle _ h | turned _ _ _ h | failed _ _ _ h | stopped _ _ h =>
      exact congrArg Queue.capacity h.outbox_eq

theorem queue_capacity_absorb (p : Pipeline) (next : Sequencer) (r : Report) :
    (p.absorb next r).finishIfIdle.queue.capacity = p.queue.capacity := by
  rw [queue_finishIfIdle, absorb]
  split <;> rfl

theorem queue_capacity_act (p : Pipeline) (a : Action) :
    (p.act a).queue.capacity = p.queue.capacity := by
  have hmoved := p.moved_act a
  generalize p.act a = q at hmoved ⊢
  cases hmoved with
  | worked | ticked => rw [queue_capacity_absorb]
  | dropped | offered => rw [queue_finishIfIdle]
  | _ => rfl

theorem roomy_act (h : p.Roomy) (a : Action) : (p.act a).Roomy where
  queue_pos := by
    rw [queue_capacity_act]
    exact h.queue_pos
  outbox_pos := by
    rw [outbox_capacity_act]
    exact h.outbox_pos

end AudioIntake.Pipeline
