import AudioIntake.Proofs.Pipeline.Shutdown
import AudioIntake.Proofs.Sequencer.Asking

/-!
# The steps of the worker

The worker takes a step for every command and for every tick. Between steps it may only hand over
rerequests, and its sequencer stays as it is. A step ends with a look at the timer: the timer is
started anew when the step has opened a gap and left alone as long as one is open.
-/

namespace AudioIntake

/-- A step that the worker has taken. -/
structure Step where
  time : Nat
  isTick : Bool
  /-- Whether a packet is held when the step is over. -/
  holds : Bool
deriving DecidableEq

namespace Pipeline

variable {p q : Pipeline} {a : Action} {as bs : List Action} {r : Report} {next : Sequencer}

/-! ### The steps of a run -/

/-- The step that the worker takes in an action, if it takes one. -/
def step? (p : Pipeline) : Action → Option Step
  | .work =>
    if p.isReady && !p.queue.items.isEmpty then
      some { time := p.now, isTick := false, holds := p.work.sequencer.inRecovery }
    else none
  | .tick =>
    if p.tickDue then some { time := p.now, isTick := true, holds := p.tick.sequencer.inRecovery }
    else none
  | _ => none

def steps (p : Pipeline) : List Action → List Step
  | [] => []
  | a :: as => (p.step? a).toList ++ (p.act a).steps as

theorem run_cons (p : Pipeline) (a : Action) (as : List Action) :
    p.run (a :: as) = (p.act a).run as := rfl

/-- Every step of a run is taken in one of its actions. -/
theorem exists_of_steps {s : Step} {front back : List Step}
    (h : p.steps as = front ++ s :: back) :
    ∃ before a after, as = before ++ a :: after ∧ p.steps before = front ∧
      (p.run before).step? a = some s := by
  induction as generalizing p front with
  | nil => simp [steps] at h
  | cons a as ih =>
      rw [steps] at h
      cases hstep : p.step? a with
      | none =>
          rw [hstep] at h
          obtain ⟨before, b, after, rfl, hfront, hb⟩ := ih h
          exact ⟨a :: before, b, after, rfl, by rw [steps, hstep, hfront]; rfl, hb⟩
      | some first =>
          rw [hstep] at h
          cases front with
          | nil => exact ⟨[], a, as, rfl, rfl, (List.cons.inj h).1 ▸ hstep⟩
          | cons head front =>
              obtain ⟨rfl, hrest⟩ := List.cons.inj h
              obtain ⟨before, b, after, rfl, hfront, hb⟩ := ih hrest
              exact ⟨a :: before, b, after, rfl, by rw [steps, hstep, hfront]; rfl, hb⟩

theorem step?_work (hready : p.isReady = true) (hitems : p.queue.items ≠ []) :
    p.step? .work =
      some { time := p.now, isTick := false, holds := p.work.sequencer.inRecovery } := by
  rw [step?, if_pos]
  rw [hready, List.isEmpty_eq_false_iff.mpr hitems]
  rfl

/-- A worker that is busy, gone or without a command does nothing. -/
theorem work_of_idle (hidle : ¬(p.isReady = true ∧ p.queue.items ≠ [])) :
    p.step? .work = none ∧ p.work = p := by
  refine ⟨if_neg ?_, ?_⟩
  · rw [Bool.and_eq_true, Bool.not_eq_true', List.isEmpty_eq_false_iff]
    exact hidle
  · rw [work]
    split
    · rename_i hready
      cases hitems : p.queue.items with
      | nil => rfl
      | cons c rest =>
          refine absurd ⟨hready, ?_⟩ hidle
          rw [hitems]
          exact List.cons_ne_nil _ _
    · rfl

theorem tick_of_early (hearly : ¬p.tickDue = true) : p.tick = p := if_neg hearly

theorem holds_of_step? {s : Step} (hs : p.step? a = some s) :
    s.holds = (p.act a).sequencer.inRecovery := by
  cases a with
  | work | tick =>
      rw [step?, Option.ite_none_right_eq_some] at hs
      cases hs.2
      rfl
  | _ => cases hs

/-- The worker takes a step, or what it has stays as it is. -/
inductive Paced (p : Pipeline) : Action → Prop where
  | quiet {a : Action} (hstep : p.step? a = none) (hsequencer : (p.act a).sequencer = p.sequencer)
      (hevents : (p.act a).journal.events = p.journal.events) : Paced p a
  | worked {c : Command} {rest : List Command} (hready : p.isReady = true)
      (hitems : p.queue.items = c :: rest)
      (hstep : p.step? .work =
        some { time := p.now, isTick := false, holds := p.work.sequencer.inRecovery }) :
      Paced p .work
  | ticked (hdue : p.tickDue = true)
      (hstep : p.step? .tick =
        some { time := p.now, isTick := true, holds := p.tick.sequencer.inRecovery }) :
      Paced p .tick

theorem paced_act (p : Pipeline) (a : Action) : Paced p a := by
  cases a with
  | work =>
      by_cases hstep : p.isReady = true ∧ p.queue.items ≠ []
      · obtain ⟨c, rest, hitems⟩ := List.exists_cons_of_ne_nil hstep.2
        exact .worked hstep.1 hitems (step?_work hstep.1 hstep.2)
      · obtain ⟨hnone, hsame⟩ := work_of_idle hstep
        exact .quiet hnone (congrArg sequencer hsame) (congrArg (fun q => q.journal.events) hsame)
  | tick =>
      by_cases hdue : p.tickDue = true
      · exact .ticked hdue (if_pos hdue)
      · have hsame := tick_of_early hdue
        exact .quiet (if_neg hdue) (congrArg sequencer hsame)
          (congrArg (fun q => q.journal.events) hsame)
  | submit c =>
      have hmoved := p.moved_submit c
      apply Paced.quiet rfl
      all_goals
        rw [act]
        generalize p.submit c = q at hmoved ⊢
        cases hmoved <;> rfl
  | offer =>
      have hmoved := p.moved_offer
      apply Paced.quiet rfl
      all_goals
        rw [act]
        generalize p.offer = q at hmoved ⊢
        cases hmoved with
        | idle => rfl
        | dropped => rw [finishIfIdle]; split <;> rfl
        | offered => rw [finishIfIdle]; split <;> rfl
  | transmit =>
      have hmoved := p.moved_transmit
      apply Paced.quiet rfl
      all_goals
        rw [act]
        generalize p.transmit = q at hmoved ⊢
        cases hmoved <;> rfl
  | elapse ms => exact .quiet rfl rfl rfl

/-! ### Runs that keep to a rule -/

/-- Every action of a run is one that the rule allows at its point. -/
def Along (rule : Pipeline → Action → Prop) (p : Pipeline) : List Action → Prop
  | [] => True
  | a :: as => rule p a ∧ (p.act a).Along rule as

instance Along.decide (rule : Pipeline → Action → Prop) [∀ p a, Decidable (rule p a)] :
    ∀ p as, Decidable (Along rule p as)
  | _, [] => inferInstanceAs (Decidable True)
  | p, a :: as =>
    have := Along.decide rule (p.act a) as
    inferInstanceAs (Decidable (rule p a ∧ (p.act a).Along rule as))

theorem along_append {rule : Pipeline → Action → Prop} :
    p.Along rule (as ++ bs) ↔ p.Along rule as ∧ (p.run as).Along rule bs := by
  induction as generalizing p with
  | nil => simp [Along, run]
  | cons a as ih => rw [List.cons_append, Along, Along, ih, and_assoc, run_cons]

/-- Time passes only when the worker has nothing left to hand over, and not beyond a tick that it
waits for. -/
def OnTime (p : Pipeline) : Action → Prop
  | .elapse ms => p.pending = [] ∧ (p.awaitsTick = true → p.now + ms ≤ p.timer.due)
  | _ => True

instance (p : Pipeline) (a : Action) : Decidable (p.OnTime a) := by
  unfold OnTime
  split <;> infer_instance

/-! ### What a step does to the timer -/

/-- A step that begins with the timer set as in `p` ends in `q`. -/
structure Beat (p q : Pipeline) : Prop where
  now_eq : q.now = p.now
  period_eq : q.timer.period = p.timer.period
  recovering_eq : q.isReady = true → q.recovering = q.sequencer.inRecovery
  recovering_of_busy : q.phase = .running → q.pending ≠ [] → q.recovering = true
  running_of_open : q.sequencer.inRecovery = true → q.phase = .running
  due_of_open : q.sequencer.inRecovery = true →
    q.timer.due = if p.recovering then p.timer.due else p.now + p.timer.period
  due_eq : q.timer.due = p.timer.due ∨ q.timer.due = p.now + p.timer.period

theorem inRecovery_forget (s : Sequencer) : s.forget.inRecovery = false := by
  simp [Sequencer.forget, Sequencer.inRecovery]

theorem beat_of_gone (hnow : q.now = p.now) (htimer : q.timer = p.timer) (hphase : q.phase ≠ .running)
    (hclosed : q.sequencer.inRecovery = false) : Beat p q where
  now_eq := hnow
  period_eq := by rw [htimer]
  recovering_eq hready := absurd (phase_of_isReady hready) hphase
  recovering_of_busy hrunning := absurd hrunning hphase
  running_of_open hopen := absurd (hopen.symm.trans hclosed) (by decide)
  due_of_open hopen := absurd (hopen.symm.trans hclosed) (by decide)
  due_eq := Or.inl (by rw [htimer])

theorem finishIfIdle_of_gone (h : p.phase ≠ .running) : p.finishIfIdle = p := by
  rw [finishIfIdle, if_neg fun hready => h (phase_of_isReady hready)]

/-- Requests come of ticks only, and a worker that heeds ticks recovers. -/
theorem beat_absorb (hready : p.isReady = true) (hquiet : r.requests ≠ [] → p.recovering = true) :
    Beat p (p.absorb next r).finishIfIdle := by
  have hrunning := phase_of_isReady hready
  by_cases hfails : r.delivered.any p.fails = true
  · rw [absorb_of_fails hfails]
    have hgone : (p.fail next r).phase ≠ .running := by
      change Phase.failed ≠ .running
      decide
    rw [finishIfIdle_of_gone hgone]
    exact beat_of_gone rfl rfl hgone (inRecovery_forget next)
  · rw [absorb_of_fine (Bool.not_eq_true _ ▸ hfails), finishIfIdle]
    have htimer : (p.completed next r).finishTurn.timer =
        if next.inRecovery && !p.recovering then p.timer.reset p.now else p.timer := rfl
    split
    · rename_i hidle
      refine ⟨rfl, ?_, fun _ => rfl, fun _ hbusy => ?_, fun _ => hrunning, fun hopen => ?_, ?_⟩
      · rw [htimer]
        split <;> rfl
      · exact absurd (pending_of_isReady hidle) hbusy
      · change next.inRecovery = true at hopen
        rw [htimer, hopen, Bool.true_and]
        cases p.recovering <;> rfl
      · rw [htimer]
        split
        · exact Or.inr rfl
        · exact Or.inl rfl
    · rename_i hbusy
      have hrecovering : p.recovering = true := by
        refine hquiet fun hnone => hbusy ?_
        simp only [isReady, completed, letGo, noteDelivered, note, hrunning, hnone]
        rfl
      refine ⟨rfl, rfl, fun hidle => absurd hidle hbusy, fun _ _ => hrecovering, fun _ => hrunning,
        fun _ => ?_, Or.inl rfl⟩
      rw [hrecovering]
      rfl

theorem requests_report_of_command {c : Command} {turn : Turn} (hturn : c.turn? = some turn) :
    (p.report turn).requests = [] := by
  cases c with
  | packet packet =>
      cases hturn
      exact p.sequencer.requests_accept p.maxLead packet
  | flush =>
      cases hturn
      rfl
  | close => cases hturn

theorem beat_work (hready : p.isReady = true) (hitems : p.queue.items ≠ []) : Beat p p.work := by
  cases hqueue : p.queue.items with
  | nil => exact absurd hqueue hitems
  | cons c rest =>
      obtain ⟨turn, hturn⟩ | rfl := turn?_or_close c
      · rw [work_of_turn hready hqueue hturn]
        have hrequests := requests_report_of_command (p := p) hturn
        exact { beat_absorb (p := { p with queue := { p.queue with items := rest } }) hready
          (fun hbusy => absurd hrequests hbusy) with }
      · rw [work_of_close hready hqueue]
        have hgone : Phase.stopped ≠ .running := by decide
        exact beat_of_gone rfl rfl hgone (inRecovery_forget p.sequencer)

theorem recovering_of_tickDue (h : p.tickDue = true) : p.recovering = true := by
  simp only [tickDue, awaitsTick, Bool.and_eq_true] at h
  exact h.1.2

theorem beat_tick (hdue : p.tickDue = true) : Beat { p with timer := p.timer.reset p.now } p.tick := by
  rw [tick, if_pos hdue]
  exact beat_absorb (isReady_of_tickDue (p := p) hdue) fun _ => recovering_of_tickDue (p := p) hdue

theorem timer_finishIfIdle (p : Pipeline) :
    p.finishIfIdle.now = p.now ∧ p.finishIfIdle.timer.period = p.timer.period ∧
      (p.finishIfIdle.timer.due = p.timer.due ∨
        p.finishIfIdle.timer.due = p.now + p.timer.period) := by
  have htimer : p.finishTurn.timer =
      if p.sequencer.inRecovery && !p.recovering then p.timer.reset p.now else p.timer := rfl
  rw [finishIfIdle]
  split
  · refine ⟨rfl, ?_⟩
    rw [htimer]
    split
    · exact ⟨rfl, Or.inr rfl⟩
    · exact ⟨rfl, Or.inl rfl⟩
  · exact ⟨rfl, rfl, Or.inl rfl⟩

def Action.duration : Action → Nat
  | .elapse ms => ms
  | _ => 0

/-- The timer is only ever put off to a full period from now. -/
theorem timer_act (p : Pipeline) (a : Action) :
    (p.act a).now = p.now + a.duration ∧ (p.act a).timer.period = p.timer.period ∧
      ((p.act a).timer.due = p.timer.due ∨ (p.act a).timer.due = p.now + p.timer.period) := by
  cases a with
  | work =>
      by_cases hstep : p.isReady = true ∧ p.queue.items ≠ []
      · have hbeat := beat_work hstep.1 hstep.2
        exact ⟨hbeat.now_eq, hbeat.period_eq, hbeat.due_eq⟩
      · rw [act, (work_of_idle hstep).2]
        exact ⟨rfl, rfl, Or.inl rfl⟩
  | tick =>
      by_cases hdue : p.tickDue = true
      · have hbeat := beat_tick hdue
        exact ⟨hbeat.now_eq, hbeat.period_eq, Or.inr (hbeat.due_eq.elim id id)⟩
      · rw [act, tick_of_early hdue]
        exact ⟨rfl, rfl, Or.inl rfl⟩
  | submit c =>
      have hmoved := p.moved_submit c
      rw [act]
      generalize p.submit c = q at hmoved ⊢
      cases hmoved <;> exact ⟨rfl, rfl, Or.inl rfl⟩
  | offer =>
      have hmoved := p.moved_offer
      rw [act]
      generalize p.offer = q at hmoved ⊢
      cases hmoved with
      | idle => exact ⟨rfl, rfl, Or.inl rfl⟩
      | dropped | offered =>
          obtain ⟨hnow, hperiod, hdue⟩ := timer_finishIfIdle _
          exact ⟨hnow, hperiod, hdue⟩
  | transmit =>
      have hmoved := p.moved_transmit
      rw [act]
      generalize p.transmit = q at hmoved ⊢
      cases hmoved <;> exact ⟨rfl, rfl, Or.inl rfl⟩
  | elapse ms => exact ⟨rfl, rfl, Or.inl rfl⟩

theorem now_le_run (p : Pipeline) (as : List Action) : p.now ≤ (p.run as).now := by
  induction as generalizing p with
  | nil => exact Nat.le_refl _
  | cons a as ih =>
      have hnow := (p.timer_act a).1
      exact Nat.le_trans (by omega) (ih (p.act a))

end Pipeline

end AudioIntake
