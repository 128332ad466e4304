import AudioIntake.Proofs.Pipeline.Steps
import Mathlib.Data.List.Induction

/-!
# Stretches of recovery

A stretch is a longest row of steps of the worker that each leave a packet held. If everything is done
on time, the ticks of a stretch come at whole periods after the step that opened it, every one of
them up to the step that ended it, and there are no other ticks.

The invariant that carries this speaks of the stretch that is still open: its ticks so far are the
first ones of that grid, and the timer falls due at the next. Whatever opens a stretch finds the worker
not recovering, for the step before left nothing held; so the timer was started anew with it, however
many deadlines had passed in the meantime.
-/

namespace AudioIntake

namespace Step

def ticks (steps : List Step) : List Nat := (steps.filter isTick).map time

def leavesHeld (steps : List Step) : Bool := steps.getLast?.any holds

/-- The steps from `opening` on, after those `before`, all leave a packet held, and the one in front
of them does not. -/
structure IsStretch (before : List Step) (opening : Step) (during : List Step) : Prop where
  first : leavesHeld before = false
  opens : opening.holds = true
  holds : ∀ s ∈ during, s.holds = true

/-- The first points of a grid that begins one interval after `start`. Those beyond `stop` are left
out; one that lies at `stop` may be there or not. -/
structure OnGrid (interval start n stop : Nat) (times : List Nat) : Prop where
  times_eq : times = (List.range' 1 n).map (start + · * interval)
  le_stop : start + n * interval ≤ stop
  stop_le : stop ≤ start + (n + 1) * interval

variable {before during steps : List Step} {opening s : Step} {interval start n stop : Nat}
  {times : List Nat}

theorem OnGrid.next (h : OnGrid interval start n stop times)
    (hstop : stop = start + (n + 1) * interval) :
    OnGrid interval start (n + 1) stop (times ++ [stop]) where
  times_eq := by
    rw [List.range'_1_concat, List.map_append, h.times_eq, hstop, Nat.add_comm 1]
    rfl
  le_stop := Nat.le_of_eq hstop.symm
  stop_le := by
    rw [hstop]
    exact Nat.add_le_add_left (Nat.mul_le_mul_right _ (Nat.le_succ _)) _

theorem leavesHeld_concat (steps : List Step) (s : Step) : leavesHeld (steps ++ [s]) = s.holds := by
  rw [leavesHeld, List.getLast?_concat]
  rfl

theorem ticks_append (as bs : List Step) : ticks (as ++ bs) = ticks as ++ ticks bs := by
  rw [ticks, List.filter_append, List.map_append]
  rfl

theorem IsStretch.leavesHeld_eq (h : IsStretch before opening during) :
    leavesHeld (before ++ opening :: during) = true := by
  rcases List.eq_nil_or_concat during with rfl | ⟨front, last, rfl⟩
  · rw [leavesHeld_concat]
    exact h.opens
  · rw [List.concat_eq_append, ← List.cons_append, ← List.append_assoc, leavesHeld_concat]
    exact h.holds last (by simp)

theorem IsStretch.front {front : List Step} (h : IsStretch before opening (front ++ [s])) :
    IsStretch before opening front :=
  ⟨h.first, h.opens, fun t ht => h.holds t (List.mem_append_left _ ht)⟩

/-- The last step of a log is the opening of a row at its end, or goes on with the row. -/
theorem opening_or_during (h : steps ++ [s] = before ++ opening :: during) :
    (during = [] ∧ steps = before ∧ s = opening) ∨
      ∃ front, during = front ++ [s] ∧ steps = before ++ opening :: front := by
  rcases List.eq_nil_or_concat during with rfl | ⟨front, last, rfl⟩
  · obtain ⟨rfl, hlast⟩ := List.append_inj' h rfl
    exact Or.inl ⟨rfl, rfl, (List.cons.inj hlast).1⟩
  · rw [List.concat_eq_append, ← List.cons_append, ← List.append_assoc] at h
    obtain ⟨rfl, hlast⟩ := List.append_inj' h rfl
    obtain ⟨rfl, -⟩ := List.cons.inj hlast
    exact Or.inr ⟨front, List.concat_eq_append, rfl⟩

/-- The last steps that leave a packet held are a stretch. -/
theorem exists_isStretch (h : leavesHeld steps = true) :
    ∃ before opening during, steps = before ++ opening :: during ∧
      IsStretch before opening during := by
  induction steps using List.reverseRecOn with
  | nil => cases h
  | append_singleton front s ih =>
      rw [leavesHeld_concat] at h
      by_cases hfront : leavesHeld front = true
      · obtain ⟨before, opening, during, rfl, hstretch⟩ := ih hfront
        refine ⟨before, opening, during ++ [s], by simp, hstretch.first, hstretch.opens, ?_⟩
        exact List.forall_mem_append.mpr ⟨hstretch.holds, List.forall_mem_singleton.mpr h⟩
      · exact ⟨front, s, [], rfl, Bool.not_eq_true _ ▸ hfront, h, by simp⟩

end Step

open Step

namespace Pipeline

variable {p q : Pipeline} {a : Action} {as : List Action} {interval : Nat} {log : List Step}

/-! ### The timer along a run -/

/-- The timer of a worker that has taken the steps of a log, all of them on time. -/
structure Clocked (interval : Nat) (log : List Step) (p : Pipeline) : Prop where
  period_eq : p.timer.period = interval
  recovering_eq : p.isReady = true → p.recovering = p.sequencer.inRecovery
  recovering_of_busy : p.phase = .running → p.pending ≠ [] → p.recovering = true
  running_of_open : p.sequencer.inRecovery = true → p.phase = .running
  leavesHeld_eq : leavesHeld log = p.sequencer.inRecovery
  on_grid : ∀ before opening during, log = before ++ opening :: during →
    IsStretch before opening during → ∃ n, OnGrid interval opening.time n p.now (ticks during) ∧
      p.timer.due = opening.time + (n + 1) * interval

namespace Clocked

theorem congr (h : Clocked interval log p) (hnow : q.now = p.now) (htimer : q.timer = p.timer)
    (hsequencer : q.sequencer = p.sequencer) (hrecovering : q.recovering = p.recovering)
    (hpending : q.pending = p.pending) (hphase : q.phase = p.phase) : Clocked interval log q where
  period_eq := by rw [htimer, h.period_eq]
  recovering_eq hready := by
    rw [hrecovering, hsequencer]
    rw [isReady, hphase, hpending] at hready
    exact h.recovering_eq hready
  recovering_of_busy := by
    rw [hrecovering, hphase, hpending]
    exact h.recovering_of_busy
  running_of_open := by
    rw [hsequencer, hphase]
    exact h.running_of_open
  leavesHeld_eq := by rw [hsequencer, h.leavesHeld_eq]
  on_grid := by
    rw [hnow, htimer]
    exact h.on_grid

/-- A worker that recovers and is ready leaves a stretch open. -/
theorem inRecovery_of_tickDue (h : Clocked interval log p) (hdue : p.tickDue = true) :
    p.sequencer.inRecovery = true := by
  rw [← h.recovering_eq (isReady_of_tickDue hdue)]
  exact recovering_of_tickDue hdue

theorem now_le_due (h : Clocked interval log p) (hopen : p.sequencer.inRecovery = true) :
    p.now ≤ p.timer.due := by
  rw [← h.leavesHeld_eq] at hopen
  obtain ⟨before, opening, during, hlog, hstretch⟩ := exists_isStretch hopen
  obtain ⟨n, hgrid, htimer⟩ := h.on_grid before opening during hlog hstretch
  exact htimer ▸ hgrid.stop_le

theorem now_eq_due (h : Clocked interval log p) (hdue : p.tickDue = true) :
    p.now = p.timer.due := by
  have hle := h.now_le_due (h.inRecovery_of_tickDue hdue)
  simp only [tickDue, Bool.and_eq_true, decide_eq_true_eq] at hdue
  exact Nat.le_antisymm hle hdue.2

/-- A step goes into the log. Its timer begins as `u` has it, where a tick has put it off. -/
theorem step {u : Pipeline} {isTick : Bool} (h : Clocked interval log p) (hready : p.isReady = true)
    (htick : isTick = true → p.tickDue = true) (hnow : u.now = p.now)
    (hperiod : u.timer.period = p.timer.period) (hrecovering : u.recovering = p.recovering)
    (hdue : u.timer.due = if isTick then p.now + interval else p.timer.due) (hbeat : Beat u q) :
    Clocked interval
      (log ++ [{ time := p.now, isTick, holds := q.sequencer.inRecovery }]) q where
  period_eq := by rw [hbeat.period_eq, hperiod, h.period_eq]
  recovering_eq := hbeat.recovering_eq
  recovering_of_busy := hbeat.recovering_of_busy
  running_of_open := hbeat.running_of_open
  leavesHeld_eq := leavesHeld_concat _ _
  on_grid before opening during hlog hstretch := by
    have hopen := hstretch.leavesHeld_eq
    rw [← hlog, leavesHeld_concat] at hopen
    change q.sequencer.inRecovery = true at hopen
    have hdue' := hbeat.due_of_open hopen
    rw [hrecovering, h.recovering_eq hready, hnow, hperiod, h.period_eq, hdue] at hdue'
    rw [hbeat.now_eq, hnow, hdue']
    rcases opening_or_during hlog with ⟨rfl, rfl, rfl⟩ | ⟨front, rfl, rfl⟩
    · -- The step opens a stretch, so the worker was not recovering when it began.
      rw [h.leavesHeld_eq.symm.trans hstretch.first]
      exact ⟨0, ⟨rfl, by simp, by simp⟩, by simp⟩
    · obtain ⟨n, hgrid, htimer⟩ := h.on_grid before opening front rfl hstretch.front
      rw [h.leavesHeld_eq.symm.trans hstretch.front.leavesHeld_eq, ticks_append]
      cases isTick with
      | false => exact ⟨n, (List.append_nil (ticks front)).symm ▸ hgrid, htimer⟩
      | true =>
          have hpunctual := h.now_eq_due (htick rfl)
          rw [htimer] at hpunctual
          refine ⟨n + 1, hgrid.next hpunctual, ?_⟩
          simp only [if_true]
          rw [Nat.add_mul (n + 1), Nat.one_mul, ← Nat.add_assoc, ← hpunctual]

theorem elapse {ms : Nat} (h : Clocked interval log p) (hpunctual : p.OnTime (.elapse ms)) :
    Clocked interval log (p.elapse ms) where
  period_eq := h.period_eq
  recovering_eq := h.recovering_eq
  recovering_of_busy := h.recovering_of_busy
  running_of_open := h.running_of_open
  leavesHeld_eq := h.leavesHeld_eq
  on_grid before opening during hlog hstretch := by
    obtain ⟨n, hgrid, hdue⟩ := h.on_grid before opening during hlog hstretch
    have hopen : p.sequencer.inRecovery = true := by
      rw [← h.leavesHeld_eq, hlog]
      exact hstretch.leavesHeld_eq
    have hready : p.isReady = true := by
      rw [isReady, h.running_of_open hopen, hpunctual.1]
      rfl
    have hawaits : p.awaitsTick = true := by
      rw [awaitsTick, hready, h.recovering_eq hready, hopen]
      rfl
    have hle : p.now ≤ p.now + ms := Nat.le_add_right _ _
    exact ⟨n, ⟨hgrid.times_eq, Nat.le_trans hgrid.le_stop hle, hdue ▸ hpunctual.2 hawaits⟩, hdue⟩

/-- A rerequest is off the worker's hands. Its turn may be over with that, but nothing opens. -/
theorem handOver {r : Rerequest} {rest : List Rerequest} (h : Clocked interval log p)
    (hpending : p.pending = r :: rest) (outbox : Queue Rerequest) :
    Clocked interval log { p with outbox, pending := rest }.finishIfIdle := by
  have hrecovering : p.phase = .running → p.recovering = true := fun hrunning =>
    h.recovering_of_busy hrunning (by rw [hpending]; exact List.cons_ne_nil _ _)
  rw [finishIfIdle]
  split
  · rename_i hidle
    have htimer : finishTurn { p with outbox, pending := rest } =
        { p with
          outbox, pending := rest
          published := p.sequencer.stats
          recovering := p.sequencer.inRecovery } := by
      rw [finishTurn]
      dsimp only
      rw [hrecovering (phase_of_isReady (p := { p with outbox, pending := rest }) hidle),
        Bool.not_true, Bool.and_false]
      rfl
    rw [htimer]
    exact { h with
      recovering_eq := fun _ => rfl
      recovering_of_busy := fun _ hbusy => absurd (pending_of_isReady hidle) hbusy }
  · rename_i hbusy
    exact { h with
      recovering_eq := fun hidle => absurd hidle hbusy
      recovering_of_busy := fun hrunning _ => hrecovering hrunning }

theorem submit (h : Clocked interval log p) (c : Command) : Clocked interval log (p.submit c) := by
  rw [Pipeline.submit]
  split
  · exact h.congr rfl rfl rfl rfl rfl rfl
  · split
    · exact h.congr rfl rfl rfl rfl rfl rfl
    · exact h

theorem offer (h : Clocked interval log p) : Clocked interval log p.offer := by
  rw [Pipeline.offer]
  split
  · exact h
  · rename_i r rest hpending
    split
    · exact h.handOver hpending p.outbox
    · split
      · exact h.handOver hpending _
      · exact h

theorem transmit (h : Clocked interval log p) : Clocked interval log p.transmit := by
  rw [Pipeline.transmit]
  split
  · exact h
  · exact h.congr rfl rfl rfl rfl rfl rfl

theorem act (h : Clocked interval log p) (hpunctual : p.OnTime a) :
    Clocked interval (log ++ (p.step? a).toList) (p.act a) := by
  have hquiet : p.step? a = none → Clocked interval log (p.act a) →
      Clocked interval (log ++ (p.step? a).toList) (p.act a) := by
    intro hnone hclocked
    rw [hnone]
    exact (List.append_nil log).symm ▸ hclocked
  cases a with
  | work =>
      by_cases hstep : p.isReady = true ∧ p.queue.items ≠ []
      · rw [step?_work hstep.1 hstep.2]
        exact h.step hstep.1 (fun htick => by cases htick) rfl rfl rfl rfl
          (beat_work hstep.1 hstep.2)
      · obtain ⟨hnone, hsame⟩ := work_of_idle hstep
        refine hquiet hnone ?_
        rw [Pipeline.act, hsame]
        exact h
  | tick =>
      by_cases hdue : p.tickDue = true
      · rw [step?, if_pos hdue]
        refine h.step (u := { p with timer := p.timer.reset p.now }) (isReady_of_tickDue hdue)
          (fun _ => hdue) rfl rfl rfl ?_ (beat_tick hdue)
        rw [← h.period_eq]
        rfl
      · refine hquiet (if_neg hdue) ?_
        rw [Pipeline.act, tick_of_early hdue]
        exact h
  | submit c => exact hquiet rfl (h.submit c)
  | offer => exact hquiet rfl h.offer
  | transmit => exact hquiet rfl h.transmit
  | elapse ms => exact hquiet rfl (h.elapse hpunctual)

theorem run (h : Clocked interval log p) (hpunctual : p.Along OnTime as) :
    Clocked interval (log ++ p.steps as) (p.run as) := by
  induction as generalizing p log with
  | nil =>
      rw [steps, List.append_nil]
      exact h
  | cons a as ih =>
      rw [steps, ← List.append_assoc, run_cons]
      exact ih (h.act hpunctual.1) hpunctual.2

end Clocked

theorem clocked_spawn {queueCapacity : Nat} {maxLead : Int} {failsOn : Option SeqNo} {pool : Pool}
    {outbox : Queue Rerequest} {ladder : Ladder}
    (h : spawn? queueCapacity interval maxLead failsOn pool outbox (.ofLadder ladder) = some p) :
    Clocked interval [] p := by
  obtain ⟨-, -, rfl⟩ := spawn?_eq h
  have hclosed : (Sequencer.ofLadder ladder).inRecovery = false :=
    inRecovery_forget (.ofLadder ladder)
  exact
    { period_eq := rfl
      recovering_eq := fun _ => hclosed.symm
      recovering_of_busy := fun _ hbusy => absurd rfl hbusy
      running_of_open := fun hopen => absurd (hopen.symm.trans hclosed) (by decide)
      leavesHeld_eq := hclosed.symm
      on_grid := fun before opening during hlog => by simp at hlog }

/-! ### Stretches of a run -/

section

variable {before during after : List Step} {opening s : Step}

/-- The ticks of a stretch, one that ends it among them, if the stretch is over at `stop`. -/
theorem onGrid_of_isStretch (h : Clocked interval [] p) (hpunctual : p.Along OnTime as)
    (hsteps : p.steps as = before ++ opening :: during ++ after)
    (hstretch : IsStretch before opening during) :
    ∃ n, OnGrid interval opening.time n ((after.head?.map time).getD (p.run as).now)
      (ticks (during ++ after.take 1)) := by
  cases after with
  | nil =>
      rw [List.append_nil] at hsteps
      obtain ⟨n, hgrid, -⟩ := (h.run hpunctual).on_grid before opening during hsteps hstretch
      exact ⟨n, (List.append_nil during).symm ▸ hgrid⟩
  | cons s back =>
      obtain ⟨bs, a, cs, rfl, hfront, hs⟩ := exists_of_steps hsteps
      have hclocked := h.run (along_append.mp hpunctual).1
      obtain ⟨n, hgrid, htimer⟩ := hclocked.on_grid before opening during hfront hstretch
      rw [List.head?_cons, Option.map_some, Option.getD_some, List.take_succ_cons, List.take_zero,
        ticks_append]
      cases a with
      | work =>
          rw [step?, Option.ite_none_right_eq_some] at hs
          cases hs.2
          exact ⟨n, (List.append_nil (ticks during)).symm ▸ hgrid⟩
      | tick =>
          rw [step?, Option.ite_none_right_eq_some] at hs
          obtain ⟨hdue, hs⟩ := hs
          cases hs
          exact ⟨n + 1, hgrid.next ((hclocked.now_eq_due hdue).trans htimer)⟩
      | _ => cases hs

/-- A tick comes right after the steps of a stretch. -/
theorem exists_isStretch_of_isTick (h : Clocked interval [] p) (hpunctual : p.Along OnTime as)
    {front back : List Step} (hsteps : p.steps as = front ++ s :: back) (htick : s.isTick = true) :
    ∃ before opening during, front = before ++ opening :: during ∧
      IsStretch before opening during := by
  obtain ⟨bs, a, cs, rfl, rfl, hs⟩ := exists_of_steps hsteps
  have hclocked := h.run (along_append.mp hpunctual).1
  cases a with
  | work =>
      rw [step?, Option.ite_none_right_eq_some] at hs
      cases hs.2
      cases htick
  | tick =>
      rw [step?, Option.ite_none_right_eq_some] at hs
      apply exists_isStretch
      rw [← List.nil_append ((p.steps bs)), hclocked.leavesHeld_eq]
      exact hclocked.inRecovery_of_tickDue hs.1
  | _ => cases hs

end

/-! ### The stretch that is open -/

/-- The stretch that began at `start` is still open, with so many ticks so far. -/
def Ongoing (interval start n : Nat) (p : Pipeline) : Prop :=
  ∃ before opening during, Clocked interval (before ++ opening :: during) p ∧
    IsStretch before opening during ∧ opening.time = start ∧ (ticks during).length = n

theorem ongoing_of_opening (h : Clocked interval log p) (hpunctual : p.OnTime a)
    (hclosed : p.sequencer.inRecovery = false)
    (hopen : (p.act a).sequencer.inRecovery = true) : Ongoing interval p.now 0 (p.act a) := by
  have hclocked := h.act hpunctual
  have hfirst := h.leavesHeld_eq.trans hclosed
  cases p.paced_act a with
  | quiet _ hsequencer =>
      rw [hsequencer, hclosed] at hopen
      cases hopen
  | worked _ _ hstep =>
      rw [hstep] at hclocked
      exact ⟨log, _, [], hclocked, ⟨hfirst, hopen, by simp⟩, rfl, rfl⟩
  | ticked hdue => exact absurd ((h.inRecovery_of_tickDue hdue).symm.trans hclosed) (by decide)

namespace Ongoing

variable {start n : Nat}

theorem act (h : Ongoing interval start n p) (hpunctual : p.OnTime a)
    (hopen : (p.act a).sequencer.inRecovery = true) :
    Ongoing interval start (n + (ticks (p.step? a).toList).length) (p.act a) := by
  obtain ⟨before, opening, during, hclocked, hstretch, htime, hn⟩ := h
  have hafter := hclocked.act hpunctual
  rw [List.append_assoc, List.cons_append] at hafter
  refine ⟨before, opening, _, hafter, ⟨hstretch.first, hstretch.opens, ?_⟩, htime, ?_⟩
  · refine List.forall_mem_append.mpr ⟨hstretch.holds, fun s hs => ?_⟩
    rw [holds_of_step? (Option.mem_toList.mp hs)]
    exact hopen
  · rw [ticks_append, List.length_append, hn]

theorem due_eq (h : Ongoing interval start n p) :
    p.timer.due = start + (n + 1) * interval ∧ start + n * interval ≤ p.now ∧
      p.now ≤ start + (n + 1) * interval := by
  obtain ⟨before, opening, during, hclocked, hstretch, rfl, rfl⟩ := h
  obtain ⟨m, hgrid, hdue⟩ := hclocked.on_grid before opening during rfl hstretch
  have hm : (ticks during).length = m := by
    rw [hgrid.times_eq, List.length_map, List.length_range']
  rw [hm]
  exact ⟨hdue, hgrid.le_stop, hgrid.stop_le⟩

theorem now_eq (h : Ongoing interval start n p) (hdue : p.tickDue = true) :
    p.now = start + (n + 1) * interval := by
  obtain ⟨-, -, hle⟩ := h.due_eq
  have htimer := h.due_eq.1
  simp only [tickDue, Bool.and_eq_true, decide_eq_true_eq] at hdue
  omega

end Ongoing

end Pipeline

end AudioIntake
