import AudioIntake.Proofs.Pipeline.Forwarding
import AudioIntake.Proofs.Pipeline.Waiting
import AudioIntake.Proofs.Sequencer.NearestGap
import AudioIntake.Proofs.Settings.Rungs

/-!
# The timing of recovery

A gap that opens recovery is counted up by the ticks of that stretch and by no others. As long as
nothing answers it, its level is therefore the number of ticks so far, which is the number of whole
periods since it opened: what is asked for on a rung is asked for that many periods after the opening,
and what is given up is given up at the end of the ladder, whatever came before.
-/

namespace AudioIntake

open Step

/-- The command neither brings one of the numbers nor makes the stream start over. -/
def Command.Spares (numbers : List SeqNo) (s : Sequencer) (maxLead : Int) : Command → Prop
  | .packet p => p.seqno ∉ numbers ∧ (s.isBeyond maxLead p.seqno = true → p.retransmitted = true)
  | _ => False

instance (numbers : List SeqNo) (s : Sequencer) (maxLead : Int) (c : Command) :
    Decidable (c.Spares numbers s maxLead) := by
  unfold Command.Spares
  split <;> infer_instance

/-- The level at which a gap is given up. A tick counts from one on, so there is none before. -/
def Ladder.last (ladder : Ladder) : Nat := max 1 ladder.giveUpAt

theorem Ladder.last_pos (ladder : Ladder) : 0 < ladder.last := Nat.le_max_left _ _

theorem Ladder.last_le_iff {ladder : Ladder} {level : Nat} (hpos : 0 < level) :
    ladder.last ≤ level ↔ ladder.giveUpAt ≤ level :=
  Nat.max_le.trans (and_iff_right hpos)

/-- A gap that has opened recovery. -/
structure Outage where
  ladder : Ladder
  interval : Nat
  /-- When it opened. -/
  start : Nat
  first : SeqNo
  count : Nat

namespace Outage

variable (o : Outage)

def numbers : List SeqNo := (List.range o.count).map (o.first + ·)

def request : Rerequest := { first := o.first, count := UInt16.ofNat o.count }

/-- What is reported of the gap in its first ticks. -/
def history (n : Nat) : List (Nat × Event) :=
  (List.range' 1 n).flatMap fun level =>
    (o.ladder.verdict o.first o.count level).map (o.start + level * o.interval, ·)

theorem history_succ (n : Nat) :
    o.history (n + 1) = o.history n ++
      (o.ladder.verdict o.first o.count (n + 1)).map (o.start + (n + 1) * o.interval, ·) := by
  rw [history, List.range'_1_concat, List.flatMap_append, List.flatMap_singleton, Nat.add_comm 1,
    history]

/-- One rerequest for each rung, and the end of the gap at the end of the ladder. -/
theorem history_eq {n : Nat} (hn : n ≤ o.ladder.last) :
    o.history n =
      ((List.range' 1 n).filter o.ladder.Asks).map
        (fun level => (o.start + level * o.interval, .rerequest o.request level)) ++
      if n = o.ladder.last then
        [(o.start + o.ladder.last * o.interval, .evict o.first o.count)]
      else [] := by
  induction n with
  | zero => rw [if_neg (Nat.ne_of_lt o.ladder.last_pos)]; rfl
  | succ n ih =>
      rw [history_succ, ih (Nat.le_of_succ_le hn), if_neg (Nat.ne_of_lt hn), List.append_nil,
        List.range'_1_concat, List.filter_append, List.map_append, List.append_assoc,
        Nat.add_comm 1]
      congr 1
      rw [Ladder.verdict, List.filter_singleton]
      have hiff := o.ladder.last_le_iff (Nat.succ_pos n)
      by_cases hend : o.ladder.giveUpAt ≤ n + 1
      · have hlast : n + 1 = o.ladder.last := Nat.le_antisymm hn (hiff.mpr hend)
        have hasks : ¬o.ladder.Asks (n + 1) := fun h => Nat.not_lt.mpr hend h.2
        rw [if_pos hend, if_pos hlast, ← hlast]
        simp [hasks]
      · have hasks : o.ladder.Asks (n + 1) ↔ n + 1 ∈ o.ladder.rerequestAt :=
          and_iff_left (Nat.not_le.mp hend)
        have hbelow : n + 1 ≠ o.ladder.last := fun heq => hend (hiff.mp (Nat.le_of_eq heq.symm))
        rw [if_neg hend, if_neg hbelow, List.append_nil]
        by_cases hrung : n + 1 ∈ o.ladder.rerequestAt
        · simp [hrung, hasks, request]
        · simp [hrung, hasks]

end Outage

namespace Pipeline

variable {o : Outage} {p q u : Pipeline} {a : Action} {n : Nat} {turn : Turn}

/-- The action does not answer the numbers, and does not make the stream start over. -/
def Spares (numbers : List SeqNo) (p : Pipeline) : Action → Prop
  | .work => p.isReady = true → ∀ c ∈ p.queue.items.head?, c.Spares numbers p.sequencer p.maxLead
  | _ => True

instance (numbers : List SeqNo) (p : Pipeline) (a : Action) : Decidable (p.Spares numbers a) := by
  unfold Spares
  split <;> infer_instance

/-! ### What the journal has of a gap -/

/-- From `p` to `q` this has been written down of every number of the gap. -/
def Recorded (o : Outage) (p q : Pipeline) (entries : List (Nat × Event)) : Prop :=
  ∃ new, q.journal.events = p.journal.events ++ new ∧
    ∀ k ∈ o.numbers, new.filter (fun e => e.2.concerns k) = entries

theorem Recorded.add {entries : List (Nat × Event)} {events verdict : List Event}
    (h : Recorded o p q entries)
    (hevents : u.journal.events = q.journal.events ++ events.map (q.now, ·))
    (hverdict : ∀ k ∈ o.numbers, events.filter (Event.concerns k) = verdict) :
    Recorded o p u (entries ++ verdict.map (q.now, ·)) := by
  obtain ⟨new, hnew, hentries⟩ := h
  refine ⟨new ++ events.map (q.now, ·), by rw [hevents, hnew, List.append_assoc], fun k hk => ?_⟩
  rw [List.filter_append, hentries k hk, List.filter_map, ← hverdict k hk]
  rfl

theorem Recorded.quiet {entries : List (Nat × Event)} {events : List Event}
    (h : Recorded o p q entries)
    (hevents : u.journal.events = q.journal.events ++ events.map (q.now, ·))
    (hquiet : ∀ k, events.filter (Event.concerns k) = []) : Recorded o p u entries := by
  have hmore := h.add hevents fun k _ => hquiet k
  rwa [List.map_nil, List.append_nil] at hmore

theorem Recorded.congr {entries : List (Nat × Event)} (h : Recorded o p q entries)
    (hevents : u.journal.events = q.journal.events) : Recorded o p u entries := by
  rw [Recorded, hevents]
  exact h

/-- What a turn leaves behind, whether or not the consumer fails in it. -/
theorem turned_act (hturn : p.turn? a = some turn) :
    ((p.report turn).delivered.any p.fails = false ∧ (p.act a).sequencer = p.next turn ∧
      (p.act a).journal.events =
        p.journal.events ++ (p.report turn).events.map (p.now, ·)) ∨
    ((p.report turn).delivered.any p.fails = true ∧
      (p.act a).sequencer = (p.next turn).forget ∧
      (p.act a).journal.events =
        p.journal.events ++ (p.eventsToFailure (p.report turn).events).map (p.now, ·)) := by
  have hacted := p.acted_act a
  generalize p.act a = q at hacted ⊢
  cases hacted with
  | turned hsome _ hfine h =>
      cases hsome.symm.trans hturn
      exact Or.inl ⟨hfine, h.sequencer_eq, congrArg Journal.events h.journal_eq⟩
  | failed hsome _ hfails h =>
      cases hsome.symm.trans hturn
      exact Or.inr ⟨hfails, h.sequencer_eq, congrArg Journal.events h.journal_eq⟩
  | idle hnone | stopped hnone | offered hnone | transmitted hnone =>
      cases hnone.symm.trans hturn

/-- A turn that delivers nothing is not cut short. -/
theorem turned_act_of_delivered (hturn : p.turn? a = some turn)
    (hdelivered : (p.report turn).delivered = []) :
    (p.act a).sequencer = p.next turn ∧
      (p.act a).journal.events =
        p.journal.events ++ (p.report turn).events.map (p.now, ·) := by
  rcases turned_act hturn with ⟨-, h⟩ | ⟨hfails, -⟩
  · exact h
  · rw [hdelivered] at hfails
    cases hfails

theorem Acted.events_isPrefix (h : Acted p a q) : p.journal.events <+: q.journal.events := by
  cases h with
  | idle _ h | stopped _ _ h | offered _ _ _ h | transmitted _ _ h =>
      exact ⟨[], (List.append_nil _).trans (congrArg Journal.events h.journal_eq).symm⟩
  | turned _ _ _ h | failed _ _ _ h => exact ⟨_, (congrArg Journal.events h.journal_eq).symm⟩

/-- Nothing is struck out of the journal. -/
theorem events_isPrefix_run (p : Pipeline) (as : List Action) :
    p.journal.events <+: (p.run as).journal.events :=
  run_induction (P := fun q => p.journal.events <+: q.journal.events)
    (fun q a hq => hq.trans (q.acted_act a).events_isPrefix) List.prefix_rfl as

theorem turn?_work {c : Command} {rest : List Command} (hready : p.isReady = true)
    (hitems : p.queue.items = c :: rest) : p.turn? .work = c.turn? := by
  rw [turn?, if_pos hready, hitems]
  rfl

theorem turn?_tick (hdue : p.tickDue = true) : p.turn? .tick = some .tick := if_pos hdue

/-- A failure does not cut off the event that a turn begins with. -/
theorem filter_eventsToFailure {events : List Event} {first : SeqNo} {count : Nat}
    {f : Event → Bool} (honly : (Event.evict first count :: events).filter f = [.evict first count]) :
    (p.eventsToFailure (.evict first count :: events)).filter f = [.evict first count] := by
  have hf : f (.evict first count) = true := by
    have hmem : Event.evict first count ∈ (Event.evict first count :: events).filter f := by
      rw [honly]
      exact List.mem_singleton_self _
    exact (List.mem_filter.mp hmem).2
  have hhead : p.eventsToFailure (.evict first count :: events) =
      .evict first count :: p.eventsToFailure events := rfl
  have hcut := (p.eventsToFailure_isPrefix (.evict first count :: events)).filter f
  rw [honly, hhead, List.filter_cons_of_pos hf] at hcut
  rw [hhead, List.filter_cons_of_pos hf, List.prefix_nil.mp (List.cons_prefix_cons.mp hcut).2]

/-- Commands concern no number. -/
theorem Recorded.work {entries : List (Nat × Event)} (h : Recorded o p q entries)
    (hs : q.sequencer.Sound) (hready : q.isReady = true) {c : Command} {rest : List Command}
    (hitems : q.queue.items = c :: rest) : Recorded o p q.work entries := by
  obtain ⟨turn, hturn⟩ | rfl := turn?_or_close c
  · have hquiet : ∀ k, (q.report turn).events.filter (Event.concerns k) = [] := by
      intro k
      cases c with
      | packet packet =>
          cases hturn
          exact Sequencer.filter_concerns_accept hs q.maxLead packet k
      | flush =>
          cases hturn
          rfl
      | close => cases hturn
    rw [← turn?_work hready hitems] at hturn
    rcases turned_act hturn with ⟨-, -, hevents⟩ | ⟨-, -, hevents⟩
    · exact h.quiet hevents hquiet
    · refine h.quiet hevents fun k => ?_
      have hcut := (q.eventsToFailure_isPrefix (q.report turn).events).filter (Event.concerns k)
      rw [hquiet k] at hcut
      exact List.prefix_nil.mp hcut
  · rw [work_of_close hready hitems]
    exact h.congr rfl

/-! ### A gap that nothing answers -/

/-- After `n` ticks the gap, opened at `p₁`, is still there. -/
structure Unanswered (o : Outage) (p₁ : Pipeline) (n : Nat) (p : Pipeline) : Prop where
  ongoing : Ongoing o.interval o.start n p
  sound : p.sequencer.Sound
  faces : p.sequencer.Faces o.count
  ladder_eq : p.sequencer.ladder = o.ladder
  low_eq : p.sequencer.low = o.first
  counter_eq : p.sequencer.counter o.first = n
  below : n < o.ladder.last
  recorded : Recorded o p₁ p (o.history n)

/-- The gap has just been given up, when it had to be. -/
structure GivenUp (o : Outage) (p₁ p : Pipeline) : Prop where
  le_now : o.start + o.ladder.last * o.interval ≤ p.now
  recorded : Recorded o p₁ p (o.history o.ladder.last)

theorem Outage.mem_numbers {k : SeqNo} : k ∈ o.numbers ↔ ∃ i < o.count, k = o.first + i := by
  rw [Outage.numbers, List.mem_map]
  simp only [List.mem_range, eq_comm]

namespace Unanswered

variable {p₁ : Pipeline}

theorem inRecovery_eq (h : Unanswered o p₁ n p) : p.sequencer.inRecovery = true :=
  Sequencer.inRecovery_iff.mpr ⟨_, h.faces.stop⟩

theorem quiet (h : Unanswered o p₁ n p) (hpunctual : p.OnTime a) (hstep : p.step? a = none)
    (hsequencer : (p.act a).sequencer = p.sequencer)
    (hevents : (p.act a).journal.events = p.journal.events) : Unanswered o p₁ n (p.act a) where
  ongoing := by
    have hongoing := h.ongoing.act hpunctual (hsequencer ▸ h.inRecovery_eq)
    rw [hstep] at hongoing
    exact hongoing
  sound := hsequencer ▸ h.sound
  faces := hsequencer ▸ h.faces
  ladder_eq := hsequencer ▸ h.ladder_eq
  low_eq := hsequencer ▸ h.low_eq
  counter_eq := hsequencer ▸ h.counter_eq
  below := h.below
  recorded := h.recorded.congr hevents

theorem work (h : Unanswered o p₁ n p) {c : Command} {rest : List Command}
    (hready : p.isReady = true) (hitems : p.queue.items = c :: rest)
    (hstep : p.step? .work =
      some { time := p.now, isTick := false, holds := p.work.sequencer.inRecovery })
    (hspares : p.Spares o.numbers .work) : Unanswered o p₁ n p.work := by
  have hc : c.Spares o.numbers p.sequencer p.maxLead :=
    hspares hready c (by rw [hitems]; exact Option.mem_some_self c)
  cases c with
  | packet packet =>
      have hout : ∀ i < o.count, packet.seqno ≠ p.sequencer.low + i := by
        intro i hi heq
        exact hc.1 (Outage.mem_numbers.mpr ⟨i, hi, heq.trans (by rw [h.low_eq])⟩)
      obtain ⟨hfaces, hlow, hcounter, hdelivered⟩ := h.faces.accept h.sound hout hc.2
      obtain ⟨hsequencer, -⟩ := turned_act_of_delivered (turn?_work hready hitems) hdelivered
      change p.work.sequencer = (p.sequencer.accept p.maxLead packet).1 at hsequencer
      rw [← hsequencer] at hfaces hlow hcounter
      have hopen : p.work.sequencer.inRecovery = true :=
        Sequencer.inRecovery_iff.mpr ⟨_, hfaces.stop⟩
      have hongoing := h.ongoing.act (a := .work) trivial hopen
      rw [hstep] at hongoing
      rw [h.low_eq] at hcounter hlow
      exact
        { ongoing := hongoing
          sound := (p.acted_act .work).sound h.sound
          faces := hfaces
          ladder_eq := by
            rw [hsequencer, Sequencer.ladder_accept h.sound, h.ladder_eq]
          low_eq := hlow
          counter_eq := hcounter.trans h.counter_eq
          below := h.below
          recorded := h.recorded.work h.sound hready hitems }
  | _ => exact hc.elim

theorem verdict_eq (h : Unanswered o p₁ n p) {k : SeqNo} (hk : k ∈ o.numbers) :
    p.sequencer.tick.2.events.filter (Event.concerns k) =
      o.ladder.verdict o.first o.count (n + 1) := by
  obtain ⟨i, hi, rfl⟩ := Outage.mem_numbers.mp hk
  have hverdict := h.faces.filter_concerns_tick h.sound hi
  rwa [h.low_eq, h.counter_eq, h.ladder_eq] at hverdict

/-- A tick on time brings the history of the gap one level further. -/
theorem recorded_tick (h : Unanswered o p₁ n p) (hdue : p.tickDue = true) {events : List Event}
    (hevents : p.tick.journal.events = p.journal.events ++ events.map (p.now, ·))
    (hverdict : ∀ k ∈ o.numbers,
      events.filter (Event.concerns k) = o.ladder.verdict o.first o.count (n + 1)) :
    Recorded o p₁ p.tick (o.history (n + 1)) := by
  rw [Outage.history_succ, ← h.ongoing.now_eq hdue]
  exact h.recorded.add hevents hverdict

theorem tick_of_lt (h : Unanswered o p₁ n p) (hdue : p.tickDue = true)
    (hstep : p.step? .tick =
      some { time := p.now, isTick := true, holds := p.tick.sequencer.inRecovery })
    (hlt : n + 1 < o.ladder.last) : Unanswered o p₁ (n + 1) p.tick := by
  have hlevel : p.sequencer.counter p.sequencer.low + 1 < p.sequencer.ladder.giveUpAt := by
    rw [h.low_eq, h.counter_eq, h.ladder_eq]
    exact Nat.not_le.mp (mt (o.ladder.last_le_iff (Nat.succ_pos n)).mpr (Nat.not_le.mpr hlt))
  obtain ⟨hfaces, hlow, -, hcounter, hdelivered⟩ := h.faces.tick_of_lt h.sound hlevel
  obtain ⟨hsequencer, hevents⟩ := turned_act_of_delivered (turn?_tick hdue) hdelivered
  change p.tick.sequencer = p.sequencer.tick.1 at hsequencer
  rw [← hsequencer] at hfaces hlow hcounter
  have hongoing := h.ongoing.act (a := .tick) trivial
    (Sequencer.inRecovery_iff.mpr ⟨_, hfaces.stop⟩)
  rw [hstep] at hongoing
  rw [h.low_eq] at hcounter hlow
  exact
    { ongoing := hongoing
      sound := (p.acted_act .tick).sound h.sound
      faces := hfaces
      ladder_eq := by rw [hsequencer, Sequencer.ladder_tick h.sound, h.ladder_eq]
      low_eq := hlow
      counter_eq := by rw [hcounter, h.counter_eq]
      below := hlt
      recorded := h.recorded_tick hdue hevents fun k hk => h.verdict_eq hk }

theorem tick_of_le (h : Unanswered o p₁ n p) (hdue : p.tickDue = true)
    (hend : o.ladder.last ≤ n + 1) : GivenUp o p₁ p.tick := by
  have hlast : n + 1 = o.ladder.last := Nat.le_antisymm h.below hend
  have hgive := (o.ladder.last_le_iff (Nat.succ_pos n)).mp hend
  have hnow := h.ongoing.now_eq hdue
  have hlevel : p.sequencer.ladder.giveUpAt ≤ p.sequencer.counter p.sequencer.low + 1 := by
    rwa [h.low_eq, h.counter_eq, h.ladder_eq]
  refine ⟨by rw [(beat_tick hdue).now_eq, ← hlast, ← hnow], ?_⟩
  rw [← hlast]
  rcases turned_act (turn?_tick hdue) with ⟨-, -, hevents⟩ | ⟨-, -, hevents⟩
  · exact h.recorded_tick hdue hevents fun k hk => h.verdict_eq hk
  · -- The consumer fails only after the gap has been given up.
    refine h.recorded_tick hdue hevents fun k hk => ?_
    have hverdict := h.verdict_eq hk
    obtain ⟨events, heq⟩ := h.faces.events_tick_of_le h.sound hlevel
    rw [Ladder.verdict, if_pos hgive, ← h.low_eq] at hverdict ⊢
    change (p.eventsToFailure p.sequencer.tick.2.events).filter (Event.concerns k) = _
    rw [heq] at hverdict ⊢
    exact filter_eventsToFailure hverdict

theorem act (h : Unanswered o p₁ n p) (hpunctual : p.OnTime a) (hspares : p.Spares o.numbers a) :
    (∃ m, Unanswered o p₁ m (p.act a)) ∨ GivenUp o p₁ (p.act a) := by
  cases p.paced_act a with
  | quiet hstep hsequencer hevents =>
      exact Or.inl ⟨n, h.quiet hpunctual hstep hsequencer hevents⟩
  | worked hready hitems hstep => exact Or.inl ⟨n, h.work hready hitems hstep hspares⟩
  | ticked hdue hstep =>
      by_cases hlt : n + 1 < o.ladder.last
      · exact Or.inl ⟨n + 1, h.tick_of_lt hdue hstep hlt⟩
      · exact Or.inr (h.tick_of_le hdue (Nat.not_lt.mp hlt))

end Unanswered

/-! ### From the opening on -/

theorem Acted.ladder_eq (h : Acted p a q) (hs : p.sequencer.Sound) :
    q.sequencer.ladder = p.sequencer.ladder := by
  cases h with
  | idle _ h | offered _ _ _ h | transmitted _ _ h => rw [h.sequencer_eq]
  | stopped _ _ h =>
      rw [h.sequencer_eq]
      rfl
  | @turned turn _ _ _ h | @failed turn _ _ _ h =>
      rw [h.sequencer_eq]
      exact Sequencer.ladder_turn hs p.maxLead turn

theorem sound_run (hs : p.sequencer.Sound) (as : List Action) :
    (p.run as).sequencer.Sound ∧ (p.run as).sequencer.ladder = p.sequencer.ladder := by
  apply run_induction (P := fun q => q.sequencer.Sound ∧ q.sequencer.ladder = p.sequencer.ladder)
  · exact fun q a ⟨hq, hladder⟩ =>
      ⟨(q.acted_act a).sound hq, ((q.acted_act a).ladder_eq hq).trans hladder⟩
  · exact ⟨hs, rfl⟩

/-- Only a packet that is held opens recovery. -/
theorem work_of_opening (hclosed : p.sequencer.inRecovery = false)
    (hopen : p.work.sequencer.inRecovery = true) :
    ∃ packet, p.work.sequencer = (p.sequencer.accept p.maxLead packet).1 := by
  cases p.paced_act .work with
  | quiet _ hsequencer =>
      change p.work.sequencer = p.sequencer at hsequencer
      rw [hsequencer, hclosed] at hopen
      cases hopen
  | @worked c rest hready hitems =>
      obtain ⟨turn, hturn⟩ | rfl := turn?_or_close c
      · rw [← turn?_work hready hitems] at hturn
        rcases turned_act hturn with ⟨-, hsequencer, -⟩ | ⟨-, hsequencer, -⟩
        · cases turn with
          | packet packet => exact ⟨packet, hsequencer⟩
          | flush =>
              change p.work.sequencer = p.sequencer.flush.1 at hsequencer
              rw [hsequencer] at hopen
              exact absurd (hopen.symm.trans (inRecovery_forget p.sequencer)) (by decide)
          | tick =>
              rw [turn?_work hready hitems] at hturn
              cases c <;> cases hturn
        · change p.work.sequencer = (p.next turn).forget at hsequencer
          rw [hsequencer, inRecovery_forget] at hopen
          cases hopen
      · rw [work_of_close hready hitems] at hopen
        exact absurd (hopen.symm.trans (inRecovery_forget p.sequencer)) (by decide)

theorem unanswered_of_opening {interval gap : Nat} {log : List Step} (h : Clocked interval log p)
    (hs : p.sequencer.Sound)
    (hclosed : p.sequencer.inRecovery = false) (hopen : p.work.sequencer.inRecovery = true)
    (hfaces : p.work.sequencer.Faces gap) :
    Unanswered
      { ladder := p.sequencer.ladder
        interval
        start := p.now
        first := p.work.sequencer.low
        count := gap } p.work 0 p.work := by
  have hempty : p.sequencer.held = ∅ := by
    rw [Sequencer.inRecovery, Bool.not_eq_false'] at hclosed
    exact Std.ExtTreeMap.isEmpty_iff.mp hclosed
  have hsound : p.work.sequencer.Sound := (p.acted_act .work).sound hs
  have hlacks := hfaces.lacks (hfaces.gap_pos hsound)
  rw [SeqNo.add_zero] at hlacks
  obtain ⟨packet, hsequencer⟩ := work_of_opening hclosed hopen
  refine ⟨ongoing_of_opening (a := .work) h trivial hclosed hopen, hsound, hfaces, ?_, rfl, ?_,
    Ladder.last_pos _, [], (List.append_nil _).symm, fun _ _ => rfl⟩
  · rw [hsequencer, Sequencer.ladder_accept hs]
  · dsimp only
    rw [hsequencer] at hlacks ⊢
    exact Sequencer.counter_accept_of_held_empty hs hempty hlacks

/-- The journal has the history of the gap. Something may follow it once the gap has been given up. -/
theorem recorded_run {p₁ : Pipeline} {as : List Action} (h : Unanswered o p₁ n p)
    (hpunctual : p.Along OnTime as) (hspares : p.Along (Spares o.numbers) as) :
    ∃ m ≤ o.ladder.last, o.start + m * o.interval ≤ (p.run as).now ∧
      (m < o.ladder.last → (p.run as).now ≤ o.start + (m + 1) * o.interval) ∧
      ∃ q, Recorded o p₁ q (o.history m) ∧ ∃ rest,
        (p.run as).journal.events = q.journal.events ++ rest ∧
        (m < o.ladder.last → rest = []) := by
  induction as generalizing p n with
  | nil =>
      obtain ⟨-, hge, hle⟩ := h.ongoing.due_eq
      exact ⟨n, Nat.le_of_lt h.below, hge, fun _ => hle, p, h.recorded, [],
        (List.append_nil _).symm, fun _ => rfl⟩
  | cons a as ih =>
      rw [run_cons]
      rcases h.act hpunctual.1 hspares.1 with ⟨m, hnext⟩ | hend
      · exact ih hnext hpunctual.2 hspares.2
      · obtain ⟨rest, hrest⟩ := events_isPrefix_run (p.act a) as
        exact ⟨_, Nat.le_refl _, Nat.le_trans hend.le_now (now_le_run _ as),
          fun hlt => absurd hlt (Nat.lt_irrefl _), _, hend.recorded, rest, hrest.symm,
          fun hlt => absurd hlt (Nat.lt_irrefl _)⟩

/-- Let a run do everything on time: the worker hands its rerequests over and heeds a tick that is due
before time passes. From the end of such a run the clock can go on to any time, on time and without
a command, so that the next command may come then. The ticks of every stretch of steps that leave a
packet held come one interval apart, the first of them one interval after the step that opened the
stretch, up to the step that ended it or to the end of the run; every tick follows the steps of a
stretch. And a gap that opens recovery, and is not answered, is asked for on each rung from 1 on below
the end of the ladder, that many intervals after the opening, and given up at the end of the ladder,
or with the first tick if the ladder ends before that. Until then nothing else is reported of its
numbers. -/
theorem ticks_at_whole_intervals (queueCapacity outboxCapacity interval : Nat) (maxLead : Int)
    (failsOn : Option SeqNo) (pool : Pool) (ladder : Ladder) (p₀ : Pipeline)
    (hbuild : build? queueCapacity outboxCapacity interval maxLead failsOn pool (.ofLadder ladder) =
      some p₀) (actions : List Action) (hpunctual : p₀.Along OnTime actions) :
    let last := max 1 ladder.giveUpAt
    let now := (p₀.run actions).now
    (∀ ms, ∃ q, (p₀.run actions).Waited ms q) ∧
    (∀ before opening during after, p₀.steps actions = before ++ opening :: during ++ after →
      IsStretch before opening during →
      ∃ n, OnGrid interval opening.time n ((after.head?.map time).getD now)
        (ticks (during ++ after.take 1))) ∧
    (∀ front s back, p₀.steps actions = front ++ s :: back → s.isTick = true →
      ∃ before opening during, front = before ++ opening :: during ∧
        IsStretch before opening during) ∧
    ∀ before after, actions = before ++ .work :: after →
      let p := p₀.run before
      let q := p.work
      p.sequencer.inRecovery = false → q.sequencer.inRecovery = true →
      (∃ gap, 0 < gap ∧ q.sequencer.Faces gap) ∧
      ∀ gap, q.sequencer.Faces gap →
        let first := q.sequencer.low
        let numbers := (List.range gap).map (first + ·)
        q.Along (Spares numbers) after →
        ∃ n ≤ last, p.now + n * interval ≤ now ∧
          (n < last → now ≤ p.now + (n + 1) * interval) ∧
          ∃ new rest, (p₀.run actions).journal.events = q.journal.events ++ new ++ rest ∧
            (n < last → rest = []) ∧
            ∀ k ∈ numbers, new.filter (fun e => e.2.concerns k) =
              ((List.range' 1 n).filter ladder.Asks).map (fun level =>
                (p.now + level * interval,
                  .rerequest { first, count := UInt16.ofNat gap } level)) ++
              if n = last then [(p.now + last * interval, .evict first gap)] else [] := by
  intro last now
  obtain ⟨hroom, hspawn⟩ := build?_eq hbuild
  have hclocked := clocked_spawn hspawn
  obtain ⟨-, hinterval, hp₀⟩ := spawn?_eq hspawn
  refine ⟨fun ms => exists_waited (hclocked.run hpunctual) hinterval ?_ ms,
    fun before opening during after hsteps hstretch =>
      onGrid_of_isStretch hclocked hpunctual hsteps hstretch,
    fun front s back hsteps htick => exists_isStretch_of_isTick hclocked hpunctual hsteps htick, ?_⟩
  · rw [hp₀]
    exact run_induction (P := fun q => 0 < q.outbox.capacity)
      (fun q a hq => outbox_capacity_act q a ▸ hq) hroom actions
  rintro before after rfl p q hclosed hopen
  obtain ⟨hbefore, -, hafter⟩ := along_append.mp hpunctual
  have hbegin : p₀.sequencer = .ofLadder ladder := by rw [hp₀]
  obtain ⟨hp, hladder⟩ := sound_run (hbegin ▸ Sequencer.sound_ofLadder ladder) before
  rw [hbegin] at hladder
  change p.sequencer.ladder = ladder at hladder
  have hsound : q.sequencer.Sound := (p.acted_act .work).sound hp
  constructor
  · obtain ⟨gap, hfaces⟩ := Sequencer.exists_faces hopen
    exact ⟨gap, hfaces.gap_pos hsound, hfaces⟩
  · intro gap hfaces first numbers hspares
    have hopened := unanswered_of_opening (hclocked.run hbefore) hp hclosed hopen hfaces
    rw [hladder] at hopened
    have hrun : p₀.run (before ++ .work :: after) = q.run after := run_append p₀ before _
    have hend : now = (q.run after).now := congrArg Pipeline.now hrun
    rw [hend, hrun]
    obtain ⟨n, hn, hge, hle, u, ⟨new, hnew, hfilter⟩, rest, hevents, hrest⟩ :=
      recorded_run hopened hafter hspares
    rw [hnew] at hevents
    refine ⟨n, hn, hge, hle, new, rest, hevents, hrest, fun k hk => ?_⟩
    rw [hfilter k hk, Outage.history_eq _ hn]
    rfl

/-- A flush ends the first recovery; the stream begins anew, and a gap around the wrap opens recovery
at 13. Another packet comes before the gap is given up. -/
theorem ticks_at_whole_intervals_across_wrap :
    let packet := fun n => Packet.ofOctets (SeqNo.ofNat n) [] false
    let arrive := fun n => [Action.submit (.packet (packet n)), .work]
    let before := [5, 7].flatMap arrive ++ [.elapse 4, .submit .flush, .work, .elapse 9] ++
      arrive 65534 ++ [.submit (.packet (packet 1))]
    let after := [.elapse 10, .tick, .offer] ++ arrive 3 ++ [.elapse 10, .tick, .offer, .elapse 1]
    let actions := before ++ .work :: after
    let first := SeqNo.ofNat 65535
    let numbers := (List.range 2).map (first + ·)
    ∃ p₀, build? 4 2 10 100 none (.ofSize 0 0) (.ofLadder ⟨[1], 2⟩) = some p₀ ∧
      p₀.Along OnTime actions ∧
      ticks (p₀.steps actions) = [23, 33] ∧
      let q := (p₀.run before).work
      q.sequencer.Faces 2 ∧ q.Along (Spares numbers) after ∧
      ∃ new rest, (p₀.run actions).journal.events = q.journal.events ++ new ++ rest ∧
        ∀ k ∈ numbers, new.filter (fun e => e.2.concerns k) =
          [(23, .rerequest { first, count := 2 } 1), (33, .evict first 2)] := by
  intro packet arrive before after actions first numbers
  obtain ⟨p₀, hbuild, hpunctual, hticks, hclosed, hopen, hfaces, hlow, hbegin, hend, hspares⟩ :
      ∃ p₀, build? 4 2 10 100 none (.ofSize 0 0) (.ofLadder ⟨[1], 2⟩) = some p₀ ∧
        p₀.Along OnTime actions ∧
        ticks (p₀.steps actions) = [23, 33] ∧
        (p₀.run before).sequencer.inRecovery = false ∧
        (p₀.run before).work.sequencer.inRecovery = true ∧
        (p₀.run before).work.sequencer.Faces 2 ∧ (p₀.run before).work.sequencer.low = first ∧
        (p₀.run before).now = 13 ∧ (p₀.run actions).now = 34 ∧
        (p₀.run before).work.Along (Spares numbers) after :=
    ⟨_, rfl, by decide +kernel, by decide +kernel, by decide +kernel, by decide +kernel,
      ⟨by decide, by decide +kernel, by decide +kernel⟩, by decide +kernel, by decide +kernel,
      by decide +kernel, by decide +kernel⟩
  have hrun := ticks_at_whole_intervals 4 2 10 100 none (.ofSize 0 0) ⟨[1], 2⟩ p₀ hbuild actions
    hpunctual
  have hgap := (hrun.2.2.2 before after rfl hclosed hopen).2 2 hfaces
  rw [hlow, hbegin, hend] at hgap
  obtain ⟨n, hn, -, hle, new, rest, hnew, -, hfilter⟩ := hgap hspares
  refine ⟨p₀, hbuild, hpunctual, hticks, hfaces, hspares, new, rest, hnew, fun k hk => ?_⟩
  -- At 34 the tick of 33 has been taken.
  obtain rfl : n = 2 := by
    change n ≤ 2 at hn
    change n < 2 → 34 ≤ 13 + (n + 1) * 10 at hle
    omega
  rw [hfilter k hk]
  rfl

/-- No tick comes with the step that opens recovery, so what a ladder says of level 0 is not heeded: a
gap is not given up before the first tick, and a rung there is never asked for. -/
theorem level_zero_not_heeded :
    let packet := fun n => Packet.ofOctets (SeqNo.ofNat n) [] false
    let arrive := fun n => [Action.submit (.packet (packet n)), .work]
    let opening := arrive 0 ++ arrive 2
    let actions := opening ++ [.elapse 10, .tick, .elapse 10, .tick]
    (∃ p₀, build? 4 1 10 100 none (.ofSize 0 0) (.ofLadder ⟨[], 0⟩) = some p₀ ∧
      p₀.Along OnTime actions ∧ (p₀.run opening).sequencer.inRecovery = true ∧
      (p₀.run opening).now = 0 ∧
      (p₀.run actions).journal.events.filter (fun e => e.2.concerns (SeqNo.ofNat 1)) =
        [(10, .evict (SeqNo.ofNat 1) 1)]) ∧
    ∃ p₀, build? 4 1 10 100 none (.ofSize 0 0) (.ofLadder ⟨[0], 2⟩) = some p₀ ∧
      p₀.Along OnTime actions ∧ (p₀.run opening).sequencer.inRecovery = true ∧
      (p₀.run opening).now = 0 ∧
      (p₀.run actions).journal.events.filter (fun e => e.2.concerns (SeqNo.ofNat 1)) =
        [(20, .evict (SeqNo.ofNat 1) 1)] := by
  intro packet arrive opening actions
  constructor
  · exact ⟨_, rfl, by decide +kernel, by decide +kernel, by decide +kernel, by decide +kernel⟩
  · exact ⟨_, rfl, by decide +kernel, by decide +kernel, by decide +kernel, by decide +kernel⟩

end Pipeline

end AudioIntake
