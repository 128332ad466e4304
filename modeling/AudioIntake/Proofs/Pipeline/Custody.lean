import AudioIntake.Proofs.Buffer.Loans
import AudioIntake.Proofs.Pipeline.Actions
import AudioIntake.Proofs.Sequencer.Custody
import Mathlib.Data.List.Perm.Subperm

/-!
# Custody of packets in the pipeline

Inside a pipeline a packet waits in the queue or is held by the sequencer; outside, it has been given
to the consumer or back to the pool. `Passes` follows the packets through an action: what is gone
afterwards has been returned to the pool, each packet once, and what the consumer was given is part
of it. A worker that is gone leaves nothing behind, and nothing behind a close reaches the consumer.
-/

namespace AudioIntake

namespace Pipeline

variable {p q u : Pipeline} {c : Command} {turn : Turn}
  {incoming incoming' new gone : List Packet}

/-- The packets that the consumer has been given, the one it failed on among them. -/
def consumed (p : Pipeline) : List Packet := p.journal.events.filterMap fun e => e.2.delivery?

/-- The packets inside the pipeline. -/
def packets (p : Pipeline) : List Packet := p.queued ++ p.sequencer.held.values

theorem consumed_note (p : Pipeline) (es : List Event) :
    (p.note es).consumed = p.consumed ++ es.filterMap Event.delivery? := by
  rw [consumed, note, List.filterMap_append, List.filterMap_map]
  rfl

/-- Of the packets in the pipeline and those `entering` it, the ones `gone` afterwards are back in
the pool; the `new` ones among them went through the consumer. -/
structure Passes (p : Pipeline) (entering new gone : List Packet) (q : Pipeline) : Prop where
  custody : (p.packets ++ entering).Perm (gone ++ q.packets)
  pool_eq : q.pool = p.pool.releaseAll gone
  consumed_eq : q.consumed = p.consumed ++ new
  new_subperm : new.Subperm gone
  delivered_eq : ∃ kept, kept <+: new ∧
    q.journal.delivered.map Prod.snd = p.journal.delivered.map Prod.snd ++ kept

namespace Passes

/-- Nothing moves but what enters the queue. -/
theorem enter (hpackets : (p.packets ++ incoming).Perm q.packets) (hpool : q.pool = p.pool)
    (hevents : q.journal.events = p.journal.events)
    (hdelivered : q.journal.delivered = p.journal.delivered) : Passes p incoming [] [] q where
  custody := hpackets
  pool_eq := hpool
  consumed_eq := by rw [consumed, hevents, List.append_nil, consumed]
  new_subperm := List.nil_subperm
  delivered_eq := ⟨[], List.prefix_rfl, by rw [hdelivered, List.append_nil]⟩

/-- Nothing moves. -/
theorem still (hpackets : q.packets = p.packets) (hpool : q.pool = p.pool)
    (hevents : q.journal.events = p.journal.events)
    (hdelivered : q.journal.delivered = p.journal.delivered) : Passes p [] [] [] q :=
  .enter (.of_eq ((List.append_nil _).trans hpackets.symm)) hpool hevents hdelivered

theorem of_perm (h : Passes u incoming new gone q)
    (hpackets : (p.packets ++ incoming').Perm (u.packets ++ incoming)) (hpool : u.pool = p.pool)
    (hjournal : u.journal = p.journal) : Passes p incoming' new gone q where
  custody := hpackets.trans h.custody
  pool_eq := by rw [h.pool_eq, hpool]
  consumed_eq := by rw [h.consumed_eq, consumed, hjournal, consumed]
  new_subperm := h.new_subperm
  delivered_eq := by
    rw [← hjournal]
    exact h.delivered_eq

theorem finish (h : Passes p incoming new gone q) :
    Passes p incoming new gone q.finishIfIdle := by
  rw [finishIfIdle]
  split
  · exact ⟨h.custody, h.pool_eq, h.consumed_eq, h.new_subperm, h.delivered_eq⟩
  · exact h

end Passes

/-! ### Steps of the sequencer -/

theorem absorb_of_fails {next : Sequencer} {r : Report} (hfails : r.delivered.any p.fails = true) :
    p.absorb next r = p.fail next r := if_pos hfails

/-- The consumer is given what it completes, and then perhaps one packet more. -/
theorem takeWhile_isPrefix (p : Pipeline) (es : List Event) :
    (es.filterMap Event.delivery?).takeWhile (fun packet => !p.fails packet) <+:
      (p.eventsToFailure es).filterMap Event.delivery? := by
  induction es with
  | nil => exact List.prefix_rfl
  | cons e es ih =>
      cases e with
      | output packet =>
          have hhead : (Event.output packet :: es).filterMap Event.delivery? =
              packet :: es.filterMap Event.delivery? := rfl
          rw [hhead, List.takeWhile_cons, eventsToFailure]
          by_cases hfails : p.fails packet = true
          · rw [hfails]
            exact List.nil_prefix
          · rw [Bool.not_eq_true] at hfails
            rw [hfails]
            exact List.cons_prefix_cons.mpr ⟨rfl, ih⟩
      | _ => exact ih

theorem passes_completed (p : Pipeline) (turn : Turn) :
    Passes p turn.packets (p.report turn).delivered
      ((p.report turn).delivered ++ (p.report turn).released)
      (p.completed (p.next turn) (p.report turn)) where
  custody := by
    obtain ⟨_, _, hdisposes⟩ := p.sequencer.disposes_turn p.maxLead turn
    have hcustody := hdisposes.custody
    refine List.perm_iff_count.mpr fun packet => ?_
    have hcount := List.perm_iff_count.mp hcustody packet
    simp only [packets, completed, letGo, noteDelivered, note, queued, next, report,
      List.count_append] at hcount ⊢
    omega
  pool_eq := rfl
  consumed_eq := p.consumed_note _
  new_subperm := (List.sublist_append_left _ _).subperm
  delivered_eq := by
    refine ⟨_, List.prefix_rfl, ?_⟩
    simp [completed, letGo, noteDelivered, note, Function.comp_def]

theorem passes_fail (p : Pipeline) (turn : Turn) :
    Passes p turn.packets ((p.eventsToFailure (p.report turn).events).filterMap Event.delivery?)
      ((p.report turn).delivered ++ (p.report turn).released ++ (p.next turn).held.values ++ p.queued)
      (p.fail (p.next turn) (p.report turn)) where
  custody := by
    obtain ⟨_, _, hdisposes⟩ := p.sequencer.disposes_turn p.maxLead turn
    have hcustody := hdisposes.custody
    refine List.perm_iff_count.mpr fun packet => ?_
    have hcount := List.perm_iff_count.mp hcustody packet
    simp only [packets, fail, letGo, noteDelivered, note, queued, next, report, Queue.close,
      Sequencer.forget, Tables.values_empty, List.flatMap_nil, List.append_nil,
      List.count_append] at hcount ⊢
    omega
  pool_eq := rfl
  consumed_eq := p.consumed_note _
  new_subperm := by
    have hcut := (p.eventsToFailure_isPrefix (p.report turn).events).filterMap Event.delivery?
    rw [List.append_assoc, List.append_assoc]
    exact hcut.sublist.subperm.trans (List.sublist_append_left _ _).subperm
  delivered_eq := by
    refine ⟨_, p.takeWhile_isPrefix (p.report turn).events, ?_⟩
    simp [fail, letGo, noteDelivered, note, Function.comp_def]
    rfl

theorem passes_absorb (p : Pipeline) (turn : Turn) :
    ∃ new gone, Passes p turn.packets new gone (p.absorb (p.next turn) (p.report turn)) := by
  by_cases hfails : (p.report turn).delivered.any p.fails = true
  · rw [absorb_of_fails hfails]
    exact ⟨_, _, p.passes_fail turn⟩
  · rw [absorb_of_fine (Bool.not_eq_true _ ▸ hfails)]
    exact ⟨_, _, p.passes_completed turn⟩

theorem passes_stop (p : Pipeline) :
    Passes p [] [] (p.sequencer.close.2.released ++ p.queued) p.stop where
  custody := by
    simp only [packets, stop, letGo, queued, Queue.close, Sequencer.close, Sequencer.forget,
      Tables.values_empty, List.flatMap_nil, List.append_nil]
    exact List.perm_append_comm
  pool_eq := rfl
  consumed_eq := (List.append_nil _).symm
  new_subperm := List.nil_subperm
  delivered_eq := ⟨[], List.prefix_rfl, (List.append_nil _).symm⟩

theorem passes_letGo (p : Pipeline) (ps : List Packet) : Passes p ps [] ps (p.letGo ps) where
  custody := List.perm_append_comm
  pool_eq := rfl
  consumed_eq := (List.append_nil _).symm
  new_subperm := List.nil_subperm
  delivered_eq := ⟨[], List.prefix_rfl, (List.append_nil _).symm⟩

/-! ### Actions -/

/-- The packet that comes in with an action. A submitter that finds no room keeps it. -/
def entering (p : Pipeline) : Action → List Packet
  | .submit c => if p.queue.isOpen && !p.queue.hasRoom then [] else c.packets
  | _ => []

/-- The datagram that the sink is given in an action. -/
def emitted (p : Pipeline) : Action → List Octets
  | .transmit => (p.outbox.items.take 1).map fun r => r.encode p.transmitter.stamp
  | _ => []

theorem entering_submit_of_nil (p : Pipeline) (hc : c.packets = []) :
    p.entering (.submit c) = [] := by
  rw [entering, hc, ite_self]

theorem entering_of_closed (h : p.queue.isOpen = false) (c : Command) :
    p.entering (.submit c) = c.packets := by
  rw [entering, h]
  rfl

theorem entering_of_room (h : p.queue.hasRoom = true) (c : Command) :
    p.entering (.submit c) = c.packets := by
  rw [entering, h, Bool.not_true, Bool.and_false]
  rfl

theorem turn?_or_close (c : Command) : (∃ turn, c.turn? = some turn) ∨ c = .close := by
  cases c with
  | packet packet => exact .inl ⟨_, rfl⟩
  | flush => exact .inl ⟨_, rfl⟩
  | close => exact .inr rfl

theorem packets_of_turn? (hturn : c.turn? = some turn) : turn.packets = c.packets := by
  cases c <;> cases hturn <;> rfl

theorem isReady_of_tickDue (h : p.tickDue = true) : p.isReady = true := by
  simp only [tickDue, awaitsTick, Bool.and_eq_true] at h
  exact h.1.1

/-- The worker takes the turn that the first command asks for. -/
theorem work_of_turn {rest : List Command} (hready : p.isReady = true)
    (hitems : p.queue.items = c :: rest) (hturn : c.turn? = some turn) :
    p.work = ({ p with queue := { p.queue with items := rest } }.absorb (p.next turn)
      (p.report turn)).finishIfIdle := by
  rw [work, if_pos hready, hitems]
  cases c <;> cases hturn <;> rfl

theorem work_of_close {rest : List Command} (hready : p.isReady = true)
    (hitems : p.queue.items = .close :: rest) :
    p.work = { p with queue := { p.queue with items := rest } }.stop := by
  rw [work, if_pos hready, hitems]

/-- What an action does to the whole of a pipeline. -/
inductive Moved (p : Pipeline) : Action → Pipeline → Prop where
  | idle {a : Action} (hentering : p.entering a = []) (hsilent : p.emitted a = []) : Moved p a p
  | refused {c : Command} (hclosed : p.queue.isOpen = false) :
      Moved p (.submit c) (p.letGo c.packets)
  | queued {c : Command} (hopen : p.queue.isOpen = true) (hroom : p.queue.hasRoom = true) :
      Moved p (.submit c) { p with queue := p.queue.push c }
  | worked {c : Command} {rest : List Command} {turn : Turn} (hready : p.isReady = true)
      (hitems : p.queue.items = c :: rest) (hturn : c.turn? = some turn) :
      Moved p .work ({ p with queue := { p.queue with items := rest } }.absorb (p.next turn)
        (p.report turn)).finishIfIdle
  | stopped {rest : List Command} (hready : p.isReady = true)
      (hitems : p.queue.items = .close :: rest) :
      Moved p .work { p with queue := { p.queue with items := rest } }.stop
  | ticked (hready : p.isReady = true) :
      Moved p .tick ({ p with timer := p.timer.reset p.now }.absorb (p.next .tick)
        (p.report .tick)).finishIfIdle
  | dropped {r : Rerequest} {rest : List Rerequest} (hpending : p.pending = r :: rest)
      (hclosed : p.outbox.isOpen = false) : Moved p .offer { p with pending := rest }.finishIfIdle
  | offered {r : Rerequest} {rest : List Rerequest} (hpending : p.pending = r :: rest)
      (hopen : p.outbox.isOpen = true) (hroom : p.outbox.hasRoom = true) :
      Moved p .offer { p with outbox := p.outbox.push r, pending := rest }.finishIfIdle
  | transmitted {r : Rerequest} {rest : List Rerequest} (hitems : p.outbox.items = r :: rest) :
      Moved p .transmit
        { p with
          outbox := { p.outbox with items := rest }
          transmitter := (p.transmitter.encode r).2
          journal :=
            { p.journal with handed := p.journal.handed ++ [(p.transmitter.encode r).1] } }
  | elapsed {ms : Nat} : Moved p (.elapse ms) (p.elapse ms)

theorem moved_submit (p : Pipeline) (c : Command) : Moved p (.submit c) (p.submit c) := by
  rw [submit]
  cases hopen : p.queue.isOpen
  · exact .refused hopen
  · cases hroom : p.queue.hasRoom
    · have hentering : p.entering (.submit c) = [] := by
        rw [entering, hopen, hroom]
        rfl
      exact .idle hentering rfl
    · exact .queued hopen hroom

theorem moved_work (p : Pipeline) : Moved p .work p.work := by
  by_cases hready : p.isReady = true
  · cases hitems : p.queue.items with
    | nil =>
        rw [work, if_pos hready, hitems]
        exact .idle rfl rfl
    | cons c rest =>
        obtain ⟨turn, hturn⟩ | rfl := turn?_or_close c
        · rw [work_of_turn hready hitems hturn]
          exact .worked hready hitems hturn
        · rw [work_of_close hready hitems]
          exact .stopped hready hitems
  · rw [work, if_neg hready]
    exact .idle rfl rfl

theorem moved_tick (p : Pipeline) : Moved p .tick p.tick := by
  rw [tick]
  split
  · rename_i hdue
    exact .ticked (isReady_of_tickDue hdue)
  · exact .idle rfl rfl

theorem moved_offer (p : Pipeline) : Moved p .offer p.offer := by
  rw [offer]
  cases hpending : p.pending with
  | nil => exact .idle rfl rfl
  | cons r rest =>
      cases hopen : p.outbox.isOpen
      · exact .dropped hpending hopen
      · cases hroom : p.outbox.hasRoom
        · exact .idle rfl rfl
        · exact .offered hpending hopen hroom

theorem moved_transmit (p : Pipeline) : Moved p .transmit p.transmit := by
  rw [transmit]
  cases hitems : p.outbox.items with
  | nil =>
      have hsilent : p.emitted .transmit = [] := by
        rw [emitted, hitems]
        rfl
      exact .idle rfl hsilent
  | cons r rest => exact .transmitted hitems

theorem moved_act (p : Pipeline) (a : Action) : Moved p a (p.act a) := by
  cases a with
  | submit c => exact p.moved_submit c
  | work => exact p.moved_work
  | tick => exact p.moved_tick
  | offer => exact p.moved_offer
  | transmit => exact p.moved_transmit
  | elapse ms => exact .elapsed

theorem passes_act (p : Pipeline) (a : Action) :
    ∃ new gone, Passes p (p.entering a) new gone (p.act a) := by
  have hmoved := p.moved_act a
  generalize p.act a = q at hmoved ⊢
  -- A command that the worker takes up has left the queue.
  have htaken : ∀ c rest, p.queue.items = c :: rest → (p.packets ++ []).Perm
      ({ p with queue := { p.queue with items := rest } }.packets ++ c.packets) := by
    intro c rest hitems
    refine List.perm_iff_count.mpr fun packet => ?_
    simp only [packets, Pipeline.queued, hitems, List.flatMap_cons, List.append_nil,
      List.count_append]
    omega
  cases hmoved with
  | idle hentering =>
      rw [hentering]
      exact ⟨[], [], .still rfl rfl rfl rfl⟩
  | refused hclosed =>
      rw [entering_of_closed hclosed]
      exact ⟨_, _, p.passes_letGo _⟩
  | queued _ hroom =>
      rw [entering_of_room hroom]
      refine ⟨[], [], .enter ?_ rfl rfl rfl⟩
      refine List.perm_iff_count.mpr fun packet => ?_
      simp only [packets, Pipeline.queued, Queue.push, List.flatMap_append, List.flatMap_singleton,
        List.count_append]
      omega
  | @worked c rest turn _ hitems hturn =>
      obtain ⟨new, gone, h⟩ := passes_absorb { p with queue := { p.queue with items := rest } } turn
      rw [packets_of_turn? hturn] at h
      exact ⟨new, gone, (h.of_perm (htaken c rest hitems) rfl rfl).finish⟩
  | @stopped rest _ hitems =>
      have h := passes_stop { p with queue := { p.queue with items := rest } }
      exact ⟨_, _, h.of_perm (htaken .close rest hitems) rfl rfl⟩
  | ticked =>
      obtain ⟨new, gone, h⟩ := passes_absorb { p with timer := p.timer.reset p.now } .tick
      have hpackets : (p.packets ++ []).Perm
          ({ p with timer := p.timer.reset p.now }.packets ++ Turn.tick.packets) := .refl _
      exact ⟨new, gone, (h.of_perm hpackets rfl rfl).finish⟩
  | dropped =>
      refine ⟨[], [], Passes.finish ?_⟩
      exact .still rfl rfl rfl rfl
  | offered =>
      refine ⟨[], [], Passes.finish ?_⟩
      exact .still rfl rfl rfl rfl
  | transmitted => exact ⟨[], [], .still rfl rfl rfl rfl⟩
  | elapsed => exact ⟨[], [], .still rfl rfl rfl rfl⟩

end Pipeline

end AudioIntake
