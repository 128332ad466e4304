import AudioIntake.Pipeline.Settled
import AudioIntake.Proofs.Sequencer.Turns

/-!
# What an action does

An action lets the worker take a turn, takes the worker down, hands a rerequest on, or leaves all of
this as it is. `Acted p a q` lists what may become of a pipeline in an action, but for its buffers,
its clock, the commands that wait and the counts it has published. A property that every turn keeps
is kept by every action, and so holds of every pipeline that can be reached.
-/

namespace AudioIntake

def Command.turn? : Command → Option Turn
  | .packet p => some (.packet p)
  | .flush => some .flush
  | .close => none

namespace Pipeline

variable {p q u : Pipeline} {a : Pipeline.Action} {turn : Turn}

/-- The turn that the worker takes in an action, if it takes one. -/
def turn? (p : Pipeline) : Action → Option Turn
  | .work => if p.isReady then p.queue.items.head?.bind Command.turn? else none
  | .tick => if p.tickDue then some .tick else none
  | _ => none

/-- The sequencer after a turn of the worker. -/
def next (p : Pipeline) (turn : Turn) : Sequencer := (p.sequencer.turn p.maxLead turn).1

/-- What the sequencer reports of a turn of the worker. -/
def report (p : Pipeline) (turn : Turn) : Report := (p.sequencer.turn p.maxLead turn).2

structure Keeps (p q : Pipeline) : Prop where
  maxLead_eq : q.maxLead = p.maxLead
  failsOn_eq : q.failsOn = p.failsOn
  sequencer_eq : q.sequencer = p.sequencer
  pending_eq : q.pending = p.pending
  outbox_eq : q.outbox = p.outbox
  transmitter_eq : q.transmitter = p.transmitter
  phase_eq : q.phase = p.phase
  journal_eq : q.journal = p.journal

theorem Keeps.refl (p : Pipeline) : Keeps p p := ⟨rfl, rfl, rfl, rfl, rfl, rfl, rfl, rfl⟩

theorem Keeps.trans (h : Keeps p q) (h' : Keeps q u) : Keeps p u where
  maxLead_eq := h'.maxLead_eq.trans h.maxLead_eq
  failsOn_eq := h'.failsOn_eq.trans h.failsOn_eq
  sequencer_eq := h'.sequencer_eq.trans h.sequencer_eq
  pending_eq := h'.pending_eq.trans h.pending_eq
  outbox_eq := h'.outbox_eq.trans h.outbox_eq
  transmitter_eq := h'.transmitter_eq.trans h.transmitter_eq
  phase_eq := h'.phase_eq.trans h.phase_eq
  journal_eq := h'.journal_eq.trans h.journal_eq

/-- The same is written down on both sides. -/
theorem Keeps.record (h : Keeps p q) (hnow : q.now = p.now) (es : List Event) (ps : List Packet) :
    Keeps ((p.note es).noteDelivered ps) ((q.note es).noteDelivered ps) where
  maxLead_eq := h.maxLead_eq
  failsOn_eq := h.failsOn_eq
  sequencer_eq := h.sequencer_eq
  pending_eq := h.pending_eq
  outbox_eq := h.outbox_eq
  transmitter_eq := h.transmitter_eq
  phase_eq := h.phase_eq
  journal_eq := by
    simp only [noteDelivered, note]
    rw [h.journal_eq, hnow]

theorem keeps_finishIfIdle (p : Pipeline) : Keeps p p.finishIfIdle := by
  rw [finishIfIdle]
  split
  · exact ⟨rfl, rfl, rfl, rfl, rfl, rfl, rfl, rfl⟩
  · exact .refl p

inductive Acted (p : Pipeline) (a : Action) : Pipeline → Prop where
  | idle {q : Pipeline} (hturn : p.turn? a = none) (h : Keeps p q) : Acted p a q
  | turned {q : Pipeline} {turn : Turn} (hturn : p.turn? a = some turn) (hready : p.isReady = true)
      (hfine : (p.report turn).delivered.any p.fails = false)
      (h : Keeps
        { (p.note (p.report turn).events).noteDelivered (p.report turn).delivered with
          sequencer := p.next turn, pending := (p.report turn).requests } q) : Acted p a q
  | failed {q : Pipeline} {turn : Turn} (hturn : p.turn? a = some turn) (hready : p.isReady = true)
      (hfails : (p.report turn).delivered.any p.fails = true)
      (h : Keeps
        { (p.note (p.eventsToFailure (p.report turn).events)).noteDelivered
            ((p.report turn).delivered.takeWhile fun packet => !p.fails packet) with
          sequencer := (p.next turn).forget, phase := .failed } q) : Acted p a q
  | stopped {q : Pipeline} (hturn : p.turn? a = none) (hready : p.isReady = true)
      (h : Keeps { p with sequencer := p.sequencer.close.1, phase := .stopped } q) : Acted p a q
  | offered {q : Pipeline} {r : Rerequest} {rest : List Rerequest} (hturn : p.turn? a = none)
      (hpending : p.pending = r :: rest) (hroom : p.outbox.isOpen = true → p.outbox.hasRoom = true)
      (h : Keeps
        { p with
          pending := rest
          outbox := if p.outbox.isOpen then p.outbox.push r else p.outbox } q) : Acted p a q
  | transmitted {q : Pipeline} {r : Rerequest} {rest : List Rerequest} (hturn : p.turn? a = none)
      (houtbox : p.outbox.items = r :: rest)
      (h : Keeps
        { p with
          outbox := { p.outbox with items := rest }
          transmitter := (p.transmitter.encode r).2
          journal :=
            { p.journal with handed := p.journal.handed ++ [(p.transmitter.encode r).1] } } q) :
      Acted p a q

theorem phase_of_isReady (h : p.isReady = true) : p.phase = .running := by
  rw [isReady, Bool.and_eq_true] at h
  exact of_decide_eq_true h.1

theorem submit_of_room {c : Command} (hopen : p.queue.isOpen = true)
    (hroom : p.queue.hasRoom = true) : p.submit c = { p with queue := p.queue.push c } := by
  rw [submit, if_neg (by rw [hopen]; decide), if_pos hroom]

theorem acted_submit (p : Pipeline) (c : Command) : Acted p (.submit c) (p.submit c) := by
  refine .idle rfl ?_
  rw [submit]
  split
  · exact ⟨rfl, rfl, rfl, rfl, rfl, rfl, rfl, rfl⟩
  · split
    · exact ⟨rfl, rfl, rfl, rfl, rfl, rfl, rfl, rfl⟩
    · exact .refl p

theorem fails_congr (h : q.failsOn = p.failsOn) : q.fails = p.fails := by
  funext packet
  rw [fails, fails, h]

theorem eventsToFailure_congr (h : q.failsOn = p.failsOn) (es : List Event) :
    q.eventsToFailure es = p.eventsToFailure es := by
  induction es with
  | nil => rfl
  | cons e es ih => cases e <;> simp only [eventsToFailure, fails_congr h, ih]

/-- A turn is absorbed the same way whatever it was for. -/
theorem acted_absorb (turn : Turn) (hturn : p.turn? a = some turn) (hready : p.isReady = true)
    (h : Keeps p q) (hnow : q.now = p.now) :
    Acted p a (q.absorb (p.next turn) (p.report turn)).finishIfIdle := by
  have hfails := fails_congr h.failsOn_eq
  by_cases hany : (p.report turn).delivered.any p.fails = true
  · refine .failed hturn hready hany (.trans ?_ (keeps_finishIfIdle _))
    have hnoted : ∀ es, (q.note es).fails = p.fails := fun _ => hfails
    rw [absorb, hfails, if_pos hany, fail, eventsToFailure_congr h.failsOn_eq, hnoted]
    exact { h.record hnow _ _ with sequencer_eq := rfl, phase_eq := rfl }
  · refine .turned hturn hready (Bool.not_eq_true _ ▸ hany) (.trans ?_ (keeps_finishIfIdle _))
    rw [absorb, hfails, if_neg hany]
    exact { h.record hnow _ _ with sequencer_eq := rfl, pending_eq := rfl }

theorem acted_work (p : Pipeline) : Acted p .work p.work := by
  rw [work]
  split
  · rename_i hready
    split
    · rename_i hempty
      refine .idle ?_ (.refl p)
      rw [turn?, if_pos hready, hempty]
      rfl
    · rename_i c rest hitems
      have hturn : p.turn? .work = c.turn? := by
        rw [turn?, if_pos hready, hitems]
        rfl
      cases c with
      | packet packet =>
          exact acted_absorb (.packet packet) hturn hready
            ⟨rfl, rfl, rfl, rfl, rfl, rfl, rfl, rfl⟩ rfl
      | flush =>
          exact acted_absorb .flush hturn hready ⟨rfl, rfl, rfl, rfl, rfl, rfl, rfl, rfl⟩ rfl
      | close => exact .stopped hturn hready ⟨rfl, rfl, rfl, rfl, rfl, rfl, rfl, rfl⟩
  · rename_i hbusy
    exact .idle (if_neg hbusy) (.refl p)

theorem acted_tick (p : Pipeline) : Acted p .tick p.tick := by
  rw [tick]
  split
  · rename_i hdue
    have hready : p.isReady = true := by
      simp only [tickDue, awaitsTick, Bool.and_eq_true] at hdue
      exact hdue.1.1
    exact acted_absorb .tick (if_pos hdue) hready ⟨rfl, rfl, rfl, rfl, rfl, rfl, rfl, rfl⟩ rfl
  · rename_i hearly
    exact .idle (if_neg hearly) (.refl p)

theorem acted_offer (p : Pipeline) : Acted p .offer p.offer := by
  rw [offer]
  split
  · exact .idle rfl (.refl p)
  · rename_i r rest hpending
    split
    · rename_i hclosed
      have hclosed : p.outbox.isOpen = false := by simpa using hclosed
      refine .offered rfl hpending (fun hopen => ?_) (.trans ?_ (keeps_finishIfIdle _))
      · exact absurd (hopen.symm.trans hclosed) (by decide)
      · rw [hclosed]
        exact .refl _
    · rename_i hopen
      have hopen : p.outbox.isOpen = true := by simpa using hopen
      split
      · rename_i hroom
        refine .offered rfl hpending (fun _ => hroom) (.trans ?_ (keeps_finishIfIdle _))
        rw [hopen]
        exact .refl _
      · exact .idle rfl (.refl p)

theorem acted_transmit (p : Pipeline) : Acted p .transmit p.transmit := by
  rw [transmit]
  split
  · exact .idle rfl (.refl p)
  · rename_i r rest houtbox
    exact .transmitted rfl houtbox (.refl _)

theorem acted_act (p : Pipeline) (a : Action) : Acted p a (p.act a) := by
  cases a with
  | submit c => exact p.acted_submit c
  | work => exact p.acted_work
  | tick => exact p.acted_tick
  | offer => exact p.acted_offer
  | transmit => exact p.acted_transmit
  | elapse ms => exact .idle rfl ⟨rfl, rfl, rfl, rfl, rfl, rfl, rfl, rfl⟩

/-- A failure cuts the events of a turn short. -/
theorem eventsToFailure_isPrefix (p : Pipeline) (es : List Event) :
    p.eventsToFailure es <+: es := by
  induction es with
  | nil => exact List.prefix_rfl
  | cons e es ih =>
      cases e with
      | output packet =>
          rw [eventsToFailure]
          split
          · exact List.cons_prefix_cons.mpr ⟨rfl, List.nil_prefix⟩
          · exact List.cons_prefix_cons.mpr ⟨rfl, ih⟩
      | _ => exact List.cons_prefix_cons.mpr ⟨rfl, ih⟩

/-! ### Turns that nothing cuts short -/

/-- The worker after a step of the sequencer, before it looks whether its turn is over too. -/
def completed (p : Pipeline) (next : Sequencer) (r : Report) : Pipeline :=
  { ((p.note r.events).noteDelivered r.delivered).letGo (r.delivered ++ r.released) with
    sequencer := next, pending := r.requests }

theorem map_events_completed (p : Pipeline) (next : Sequencer) (r : Report) :
    (p.completed next r).journal.events.map Prod.snd =
      p.journal.events.map Prod.snd ++ r.events := by
  simp [completed, letGo, noteDelivered, note, Function.comp_def]

theorem any_fails_of_none (h : p.failsOn = none) (packets : List Packet) :
    packets.any p.fails = false := by
  simp [fails, h]

theorem absorb_of_fine {next : Sequencer} {r : Report} (hfine : r.delivered.any p.fails = false) :
    p.absorb next r = p.completed next r := by
  rw [absorb, if_neg (Bool.eq_false_iff.mp hfine)]
  rfl

theorem tick_of_due (hdue : p.tickDue = true)
    (hfine : p.sequencer.tick.2.delivered.any p.fails = false) :
    p.tick = ({ p with timer := p.timer.reset p.now }.completed p.sequencer.tick.1
      p.sequencer.tick.2).finishIfIdle := by
  rw [tick, if_pos hdue]
  exact congrArg finishIfIdle (absorb_of_fine hfine)

theorem work_of_packet {packet : Packet} {rest : List Command} (hready : p.isReady = true)
    (hitems : p.queue.items = .packet packet :: rest)
    (hfine : (p.sequencer.accept p.maxLead packet).2.delivered.any p.fails = false) :
    p.work = ({ p with queue := { p.queue with items := rest } }.completed
      (p.sequencer.accept p.maxLead packet).1
      (p.sequencer.accept p.maxLead packet).2).finishIfIdle := by
  rw [work, if_pos hready, hitems]
  exact congrArg finishIfIdle (absorb_of_fine hfine)

/-! ### Where runs begin -/

/-- A pipeline that has just been started with usable settings. -/
structure Fresh (settings : StreamSettings) (p : Pipeline) : Prop where
  check_eq : settings.check = .ok ()
  maxLead_eq : p.maxLead = settings.maxLead.toInt
  sequencer_eq : p.sequencer = .ofLadder settings.ladder
  phase_eq : p.phase = .running
  pending_eq : p.pending = []
  outbox_eq : p.outbox.items = []
  transmitter_eq : p.transmitter = .start
  journal_eq : p.journal = .empty

theorem spawn?_eq {queueCapacity period : Nat} {maxLead : Int} {failsOn : Option SeqNo}
    {pool : Pool} {outbox : Queue Rerequest} {sequencer : Sequencer}
    (h : spawn? queueCapacity period maxLead failsOn pool outbox sequencer = some p) :
    0 < queueCapacity ∧ 0 < period ∧
      p =
        { maxLead
          failsOn
          now := 0
          pool
          queue := { capacity := queueCapacity, items := [], isOpen := true }
          sequencer
          timer := { period, due := 0, slot := none }
          recovering := false
          pending := []
          outbox
          transmitter := .start
          published := sequencer.stats
          phase := .running
          journal := .empty } := by
  rw [spawn?] at h
  simp only [Option.bind_eq_bind, Option.bind_eq_some_iff, Queue.ofCapacity?, Timer.ofPeriod?,
    Option.ite_none_right_eq_some, Option.ite_none_left_eq_some] at h
  obtain ⟨_, ⟨hqueue, ⟨⟩⟩, _, ⟨hperiod, ⟨⟩⟩, hp⟩ := h
  cases hp
  exact ⟨hqueue.1, Nat.pos_of_ne_zero hperiod, rfl⟩

theorem build?_eq {queueCapacity outboxCapacity period : Nat} {maxLead : Int}
    {failsOn : Option SeqNo} {pool : Pool} {sequencer : Sequencer}
    (h : build? queueCapacity outboxCapacity period maxLead failsOn pool sequencer = some p) :
    0 < outboxCapacity ∧
      spawn? queueCapacity period maxLead failsOn pool
        { capacity := outboxCapacity, items := [], isOpen := true } sequencer = some p := by
  rw [build?] at h
  simp only [Option.bind_eq_bind, Option.bind_eq_some_iff, Queue.ofCapacity?,
    Option.ite_none_right_eq_some] at h
  obtain ⟨_, ⟨houtbox, ⟨⟩⟩, hp⟩ := h
  exact ⟨houtbox.1, hp⟩

theorem start_eq {settings : StreamSettings} {failsOn : Option SeqNo} {pool : Pool}
    (h : start settings failsOn pool = .ok p) :
    settings.check = .ok () ∧ 0 < settings.queueCapacity.toNat ∧
      0 < settings.rerequestQueueCapacity.toNat ∧
      p =
        { maxLead := settings.maxLead.toInt
          failsOn
          now := 0
          pool
          queue := { capacity := settings.queueCapacity.toNat, items := [], isOpen := true }
          sequencer := settings.sequencer
          timer := { period := settings.tickIntervalMs.toNat, due := 0, slot := none }
          recovering := false
          pending := []
          outbox :=
            { capacity := settings.rerequestQueueCapacity.toNat, items := [], isOpen := true }
          transmitter := .start
          published := settings.sequencer.stats
          phase := .running
          journal := .empty } := by
  rw [start] at h
  split at h
  · cases h
  · rename_i hcheck
    split at h
    · rename_i built hbuilt
      cases h
      obtain ⟨houtbox, hspawn⟩ := build?_eq hbuilt
      obtain ⟨hqueue, -, hp⟩ := spawn?_eq hspawn
      exact ⟨hcheck, hqueue, houtbox, hp⟩
    · cases h

theorem fresh_start {settings : StreamSettings} {failsOn : Option SeqNo} {pool : Pool}
    (h : start settings failsOn pool = .ok p) : Fresh settings p := by
  obtain ⟨hcheck, -, -, rfl⟩ := start_eq h
  exact ⟨hcheck, rfl, rfl, rfl, rfl, rfl, rfl, rfl⟩

theorem Fresh.maxLead_pos {settings : StreamSettings} (h : Fresh settings p) :
    0 < settings.maxLead.toInt := by
  obtain ⟨-, -, -, -, -, hpos, -⟩ := settings.check_eq_ok_iff.mp h.check_eq
  exact Int32.lt_iff_toInt_lt.mp hpos

theorem run_append (p : Pipeline) (as bs : List Action) : p.run (as ++ bs) = (p.run as).run bs :=
  List.foldl_append

/-- What every action keeps holds after every run of actions. -/
theorem run_induction {P : Pipeline → Prop} (hstep : ∀ p a, P p → P (p.act a)) (hp : P p)
    (actions : List Action) : P (p.run actions) := by
  induction actions generalizing p with
  | nil => exact hp
  | cons a actions ih => exact ih (hstep p a hp)

end Pipeline

end AudioIntake
