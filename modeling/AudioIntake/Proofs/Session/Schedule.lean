import AudioIntake.Proofs.Pipeline.Schedule
import AudioIntake.Proofs.Pipeline.Settling
import AudioIntake.Proofs.Session.Loops

/-!
# Settled sessions are driven by actions

A session that settles after each step is at rest before the next one, so its queue takes what the
step submits. Each step is then a run of actions: those that the step is made of, and in between
what the worker, the transmitter and the clock do. What is read page by page adds up to what the run
has noted.
-/

namespace AudioIntake.Session

variable {α : Type} {s t u : Session α} {played : List (Action α)}

/-! ### What no action looks at -/

/-- The session without the alarm of its worker, and with what has been noted and sent earlier in
front. -/
def after (s : Session α) (past : Journal × List (α × Octets)) : Session α :=
  { s with pipeline := s.pipeline.after past.1, sent := past.2 ++ s.sent }

theorem loop_after (s : Session α) (past : Journal × List (α × Octets)) (channel : Channel) :
    (s.after past).loop channel = s.loop channel := by
  cases channel <;> rfl

theorem setLoop_after (s : Session α) (past : Journal × List (α × Octets)) (channel : Channel)
    (l : Loop) : (s.setLoop channel l).after past = (s.after past).setLoop channel l := by
  cases channel <;> rfl

theorem learn_after (s : Session α) (past : Journal × List (α × Octets)) (channel : Channel)
    (source : α) : (s.learn channel source).after past = (s.after past).learn channel source := by
  have hlearns : (s.after past).learns = s.learns := rfl
  rw [learn, learn, hlearns]
  split <;> rfl

theorem listen_after (s : Session α) (past : Journal × List (α × Octets)) (channel : Channel) :
    (s.listen channel).after past = (s.after past).listen channel := setLoop_after _ past channel _

theorem arrive_after (s : Session α) (past : Journal × List (α × Octets)) (channel : Channel)
    (datagram : Octets) (source : α) :
    (s.arrive channel datagram source).after past =
      (s.after past).arrive channel datagram source := by
  rw [arrive, arrive, loop_after]
  cases s.loop channel with
  | listening buffer =>
      dsimp only
      rw [← learn_after]
      cases judge channel (buffer.receive datagram) with
      | sequence audio => exact setLoop_after _ past channel _
      | flush => exact setLoop_after _ past channel _
      | discard => exact listen_after _ past channel
  | handing c => rfl
  | stopped => rfl

/-- What the pipeline does of its own does not look at them either. -/
theorem own_after (s : Session α) (past : Journal × List (α × Octets)) (b : Pipeline.Action) :
    { s with pipeline := s.pipeline.act b }.after past =
      { s.after past with pipeline := (s.after past).pipeline.act b } := by
  simp only [after, Pipeline.act_after]

theorem hand_after (s : Session α) (past : Journal × List (α × Octets)) (channel : Channel) :
    (s.hand channel).after past = (s.after past).hand channel := by
  have hqueue : (s.after past).pipeline.queue = s.pipeline.queue := rfl
  have hsubmit : ∀ c, { s with pipeline := s.pipeline.submit c }.after past =
      { s.after past with pipeline := (s.after past).pipeline.submit c } :=
    fun c => s.own_after past (.submit c)
  rw [hand, hand, loop_after]
  cases s.loop channel with
  | handing c =>
      dsimp only
      rw [hqueue, ← hsubmit, ← listen_after, ← setLoop_after]
      split
      · rfl
      · split <;> rfl
  | listening buffer => rfl
  | stopped => rfl

theorem quit_after (s : Session α) (past : Journal × List (α × Octets)) (channel : Channel) :
    (s.quit channel).after past = (s.after past).quit channel := by
  rw [quit, quit, loop_after]
  cases s.loop channel with
  | listening buffer => exact setLoop_after _ past channel _
  | handing c => rfl
  | stopped => rfl

theorem leave_after (s : Session α) (past : Journal × List (α × Octets)) (channel : Channel) :
    (s.leave channel).after past = (s.after past).leave channel := by
  have hcancelled : (s.after past).cancelled = s.cancelled := rfl
  rw [leave, leave, hcancelled]
  split
  · exact s.quit_after past channel
  · rfl

theorem transmit_after (s : Session α) (past : Journal × List (α × Octets)) :
    s.transmit.after past = (s.after past).transmit := by
  have hpeer : (s.after past).peer = s.peer := rfl
  have hhanded : (s.after past).pipeline.transmit.journal.handed.drop
      (s.after past).pipeline.journal.handed.length =
        s.pipeline.transmit.journal.handed.drop s.pipeline.journal.handed.length := by
    have hbehind : (s.after past).pipeline.transmit.journal.handed =
        past.1.handed ++ s.pipeline.transmit.journal.handed :=
      congrArg (fun p => p.journal.handed) (s.pipeline.transmit_after past.1).symm
    change List.drop (past.1.handed ++ s.pipeline.journal.handed).length _ = _
    rw [hbehind, List.length_append, ← List.drop_drop, List.drop_left]
  rw [transmit, transmit, hhanded, hpeer]
  cases s.peer <;> simp only [after, Pipeline.transmit_after, List.append_assoc]

theorem act_after (s : Session α) (past : Journal × List (α × Octets)) (a : Action α) :
    (s.act a).after past = (s.after past).act a := by
  cases a with
  | arrive channel datagram source => exact s.arrive_after past channel datagram source
  | hand channel => exact s.hand_after past channel
  | flush => exact s.own_after past (.submit .flush)
  | work => exact s.own_after past .work
  | tick => exact s.own_after past .tick
  | offer => exact s.own_after past .offer
  | transmit => exact s.transmit_after past
  | elapse ms => exact s.own_after past (.elapse ms)
  | cancel => rfl
  | leave channel => exact s.leave_after past channel
  | lose channel => exact s.quit_after past channel
  | close => exact s.own_after past (.submit .close)

/-! ### What is played -/

theorem later_act (s : Session α) (a : Action α) :
    Pipeline.Later s.pipeline (s.act a).pipeline := by
  have hled := s.leads_act a
  generalize (s.act a).pipeline = q at hled ⊢
  cases hled with
  | pooled => exact .of_timer (Nat.le_refl _) rfl rfl
  | acted b => exact (s.pipeline.later_act b).trans (.of_timer (Nat.le_refl _) rfl rfl)

/-- What a session does without being called upon is its worker's, its transmitter's or the clock's
doing. -/
def Action.isCall : Action α → Bool
  | .work => false
  | .tick => false
  | .offer => false
  | .transmit => false
  | .elapse _ => false
  | _ => true

def machine : Machine (Session α) (Action α) (Journal × List (α × Octets)) where
  act := act
  pipeline := pipeline
  after := after
  isCall := Action.isCall

theorem plays_act (s : Session α) (a : Action α) :
    machine.Plays ([a].filter Action.isCall) s (s.act a) :=
  .of_act (s.later_act a) fun past => s.act_after past a

theorem plays_armTimer (s : Session α) : machine.Plays [] s s.armTimer where
  later := s.pipeline.later_armTimer
  exists_run hsoon htime := by
    refine ⟨[], fun past => ?_, rfl⟩
    change s.armTimer.after past = s.after past
    have harmed := Pipeline.armTimer_after (p := s.pipeline) hsoon htime past.1
    simp only [after, armTimer, harmed]

theorem plays_relay (s : Session α) : machine.Plays [] s s.relay :=
  (s.plays_act .offer).trans (plays_act _ .transmit)

theorem plays_heedAlarm (s : Session α) : machine.Plays [] s s.heedAlarm := by
  rw [heedAlarm]
  split
  · exact .refl s
  · exact ((s.plays_act .tick).settle (.iterate plays_relay _ _)).settle (plays_armTimer _)

theorem plays_settle (s : Session α) : machine.Plays [] s s.settle := by
  refine .iterate (fun s => ?_) s.pipeline.queue.items.length s
  exact ((s.plays_act .work).settle (plays_armTimer _)).settle (plays_heedAlarm _)

theorem plays_doze (s : Session α) (sleeper : Alarm) :
    machine.Plays [] s { s with pipeline := (s.pipeline.doze sleeper).1 } := by
  obtain ⟨hlater, ms, hdozed⟩ := s.pipeline.doze_spec sleeper
  refine ⟨hlater, fun _ _ => ⟨[.elapse ms], fun past => ?_, rfl⟩⟩
  change Session.after _ past = { s.after past with pipeline := (s.after past).pipeline.elapse ms }
  simp only [after, hdozed]

theorem plays_sleepOn (s : Session α) (sleeper : Alarm) (times : Nat) :
    machine.Plays [] s (s.sleepOn sleeper times) := by
  induction times generalizing s sleeper with
  | zero => exact s.plays_act (.elapse _)
  | succ times ih =>
      have hdozed := s.plays_doze sleeper
      rw [sleepOn]
      split
      · rename_i awake hdoze
        rw [hdoze] at hdozed
        exact hdozed.settle (plays_heedAlarm _)
      · rename_i awake sleeper hdoze
        rw [hdoze] at hdozed
        exact (hdozed.settle (plays_heedAlarm _)).settle (ih _ _)

/-- At rest the queue takes what is submitted, so that nothing has to wait. -/
theorem submit_eq (h : s.pipeline.AtRest) (c : Command) :
    (s.submit c).1 = { s with pipeline := s.pipeline.submit c }.settle := by
  rw [submit, h.submitWaiting_eq]

/-! ### The pipeline inside -/

theorem pipeline_repeat {f : Session α → Session α} {g : Pipeline → Pipeline}
    (h : ∀ s, (f s).pipeline = g s.pipeline) (n : Nat) (s : Session α) :
    (Nat.repeat f n s).pipeline = Nat.repeat g n s.pipeline := by
  induction n with
  | zero => rfl
  | succ n ih => rw [Nat.repeat, h, ih, Nat.repeat]

theorem pipeline_heedAlarm (s : Session α) : s.heedAlarm.pipeline = s.pipeline.heedAlarm := by
  rw [heedAlarm, Pipeline.heedAlarm]
  split
  · rfl
  · exact congrArg Pipeline.armTimer (pipeline_repeat (fun _ => rfl) _ _)

theorem pipeline_settle (s : Session α) : s.settle.pipeline = s.pipeline.settle := by
  refine pipeline_repeat (fun _ => ?_) _ s
  exact pipeline_heedAlarm _

theorem pipeline_sleepOn (s : Session α) (sleeper : Alarm) (times : Nat) :
    (s.sleepOn sleeper times).pipeline = s.pipeline.sleepOn sleeper times := by
  induction times generalizing s sleeper with
  | zero => rfl
  | succ times ih =>
      rw [sleepOn, Pipeline.sleepOn]
      rcases s.pipeline.doze sleeper with ⟨p, _ | later⟩
      · exact pipeline_heedAlarm _
      · exact (ih _ _).trans (by rw [pipeline_heedAlarm])

/-! ### Steps -/

/-- The actions that a step is made of. -/
def Step.calls : Step α → List (Action α)
  | .datagram channel content source => [.arrive channel content source, .hand channel]
  | .flush => [.flush]
  | .sleep _ => []

variable {host : Host} {step : Step α} {taken : Bool} {ms : Nat}

theorem sleep_eq (h : s.sleep? ms = some t) :
    t = s ∨ ∃ sleeper times, t = s.sleepOn sleeper times := by
  obtain ⟨sleeper, -, rfl⟩ := Option.map_eq_some_iff.mp h
  split
  · exact .inl rfl
  · exact .inr ⟨_, _, rfl⟩

theorem plays_step (hrest : s.pipeline.AtRest) (h : s.step host step = .ok (t, taken)) :
    machine.Plays step.calls s t := by
  cases step with
  | datagram channel content source =>
      cases host with
      | carries =>
          cases h
          have hheard := s.plays_act (.arrive channel content source)
          exact (hheard.trans (plays_act _ (.hand channel))).settle (plays_settle _)
      | refuses => cases h
  | flush =>
      have hsubmitted : (s.submit .flush).1 = t := congrArg Prod.fst (Except.ok.inj h)
      rw [← hsubmitted, submit_eq hrest]
      exact (s.plays_act .flush).settle (plays_settle _)
  | sleep ms =>
      rw [Session.step] at h
      split at h
      · rename_i hslept
        cases h
        obtain rfl | ⟨sleeper, times, rfl⟩ := sleep_eq hslept
        · exact .refl _
        · exact s.plays_sleepOn sleeper times
      · cases h

theorem arrive_spec (s : Session α) (channel : Channel) (datagram : Octets) (source : α) :
    ∃ pool, (s.arrive channel datagram source).pipeline = { s.pipeline with pool } := by
  rw [arrive]
  cases s.loop channel with
  | listening buffer =>
      dsimp only
      cases judge channel (buffer.receive datagram) with
      | sequence audio =>
          rw [pipeline_setLoop, pipeline_learn]
          exact ⟨_, rfl⟩
      | flush =>
          rw [pipeline_setLoop, letGo, pipeline_learn]
          exact ⟨_, rfl⟩
      | discard =>
          rw [pipeline_listen, letGo, pipeline_learn]
          exact ⟨_, rfl⟩
  | handing c => exact ⟨_, rfl⟩
  | stopped => exact ⟨_, rfl⟩

theorem atRest_hand (h : s.pipeline.AtRest) (channel : Channel) :
    (s.hand channel).pipeline.settle.AtRest := by
  have hstill : ∀ pool, { s.pipeline with pool }.settle.AtRest := fun pool =>
    Pipeline.atRest_settle (h.toWaits.congr rfl rfl rfl rfl rfl) h.pending_eq
  have hsubmitted : ∀ c pool, { s.pipeline.submit c with pool }.settle.AtRest := by
    intro c pool
    obtain ⟨hwaits, hpending⟩ := Pipeline.submit_of_waits h.toWaits c
    exact Pipeline.atRest_settle (hwaits.congr rfl rfl rfl rfl rfl) (hpending.trans h.pending_eq)
  have hstepped := s.stepped_hand channel
  generalize s.hand channel = t at hstepped ⊢
  cases hstepped with
  | still => exact hstill _
  | entered =>
      rw [pipeline_listen]
      exact hsubmitted _ _
  | refused =>
      rw [pipeline_setLoop]
      exact hsubmitted _ _
  | left =>
      rw [pipeline_setLoop]
      exact hstill _

theorem atRest_step (hrest : s.pipeline.AtRest) (h : s.step host step = .ok (t, taken)) :
    t.pipeline.AtRest := by
  cases step with
  | datagram channel content source =>
      cases host with
      | carries =>
          cases h
          rw [pipeline_settle]
          obtain ⟨pool, hheard⟩ := s.arrive_spec channel content source
          refine atRest_hand (s := s.arrive channel content source) ?_ channel
          rw [hheard]
          exact hrest.congr rfl rfl rfl rfl rfl
      | refuses => cases h
  | flush =>
      have hsubmitted : (s.submit .flush).1 = t := congrArg Prod.fst (Except.ok.inj h)
      rw [← hsubmitted, submit_eq hrest, pipeline_settle]
      exact hrest.settle_submit .flush
  | sleep ms =>
      rw [Session.step] at h
      split at h
      · rename_i hslept
        cases h
        obtain rfl | ⟨sleeper, times, rfl⟩ := sleep_eq hslept
        · exact hrest
        · rw [pipeline_sleepOn]
          exact hrest.sleepOn sleeper times
      · cases h

/-- The actions that end a session. -/
def farewell : List (Action α) := [.cancel, .close, .leave .data, .leave .control, .leave .timing]

theorem plays_teardown (hrest : s.pipeline.AtRest) : machine.Plays farewell s s.teardown := by
  rw [teardown, submit_eq (s := { s with cancelled := true }) hrest]
  have hcancelled := s.plays_act .cancel
  have hclosed := (hcancelled.trans (plays_act _ .close)).settle (plays_settle _)
  exact ((hclosed.trans (plays_act _ (.leave .data))).trans (plays_act _ (.leave .control))).trans
    (plays_act _ (.leave .timing))

theorem quit_spec (s : Session α) (channel : Channel) :
    ∃ pool, (s.quit channel).pipeline = { s.pipeline with pool } := by
  rw [quit]
  cases s.loop channel with
  | listening buffer =>
      rw [pipeline_setLoop]
      exact ⟨_, rfl⟩
  | handing c => exact ⟨_, rfl⟩
  | stopped => exact ⟨_, rfl⟩

theorem atRest_leave (h : s.pipeline.AtRest) (channel : Channel) :
    (s.leave channel).pipeline.AtRest := by
  rw [leave]
  split
  · obtain ⟨pool, hquit⟩ := s.quit_spec channel
    rw [hquit]
    exact h.congr rfl rfl rfl rfl rfl
  · exact h

theorem atRest_teardown (h : s.pipeline.AtRest) : s.teardown.pipeline.AtRest := by
  rw [teardown, submit_eq (s := { s with cancelled := true }) h]
  refine atRest_leave (atRest_leave (atRest_leave ?_ .data) .control) .timing
  rw [pipeline_settle]
  exact h.settle_submit .close

theorem turnPage_after (s : Session α) (past : Journal × List (α × Octets)) :
    s.turnPage.after (past.1.append s.pipeline.journal, past.2 ++ s.sent) = s.after past := by
  simp only [after, turnPage, Pipeline.turnPage_after, List.append_nil]

/-! ### The life of a session -/

/-- A caller takes steps one after the other, and reads what is noted page by page. -/
inductive Lived (host : Host) (s : Session α) : List (Action α) → Session α → Prop where
  | started : Lived host s [] s
  | stepped {played : List (Action α)} {t u : Session α} {step : Step α} {taken : Bool}
      (h : Lived host s played t) (hstep : t.step host step = .ok (u, taken)) :
      Lived host s (played ++ step.calls) u
  | turned {played : List (Action α)} {t : Session α} (h : Lived host s played t) :
      Lived host s played t.turnPage
  | ended {played : List (Action α)} {t : Session α} (h : Lived host s played t) :
      Lived host s (played ++ farewell) t.teardown

theorem Lived.atRest (h : Lived host s played t) (hrest : s.pipeline.AtRest) :
    t.pipeline.AtRest := by
  induction h with
  | started => exact hrest
  | stepped _ hstep ih => exact atRest_step ih hstep
  | turned _ ih => exact ih.congr rfl rfl rfl rfl rfl
  | ended _ ih => exact atRest_teardown ih

/-- What a run of actions has come to, when the pages that were turned are put back. -/
structure Recounts (s t : Session α) (played : List (Action α)) : Prop where
  later : Pipeline.Later s.pipeline t.pipeline
  exists_run : s.pipeline.DueSoon → t.pipeline.HasTime →
    ∃ actions pages, t.after pages = (s.after (.empty, [])).run actions ∧
      actions.filter Action.isCall = played

theorem Recounts.play {more : List (Action α)} (h : Recounts s t played)
    (hplays : machine.Plays more t u) : Recounts s u (played ++ more) where
  later := h.later.trans hplays.later
  exists_run hsoon htime := by
    obtain ⟨before, pages, hbefore, hplayed⟩ := h.exists_run hsoon (hplays.later.hasTime htime)
    obtain ⟨actions, hrun, hcalls⟩ := hplays.exists_run (h.later.dueSoon hsoon) htime
    refine ⟨before ++ actions, pages, ?_, ?_⟩
    · rw [run_append, ← hbefore]
      exact hrun pages
    · rw [List.filter_append, hplayed, ← hcalls]
      rfl

theorem Lived.recounts (h : Lived host s played t) (hrest : s.pipeline.AtRest) :
    Recounts s t played := by
  induction h with
  | started => exact ⟨.refl _, fun _ _ => ⟨[], _, rfl, rfl⟩⟩
  | stepped h hstep ih => exact ih.play (plays_step (h.atRest hrest) hstep)
  | turned _ ih =>
      refine ⟨ih.later.trans (.of_timer (Nat.le_refl _) rfl rfl), fun hsoon htime => ?_⟩
      obtain ⟨actions, pages, hrun, hplayed⟩ := ih.exists_run hsoon htime
      exact ⟨actions, _, (turnPage_after _ pages).trans hrun, hplayed⟩
  | ended h ih => exact ih.play (plays_teardown (h.atRest hrest))

theorem atRest_start {settings : StreamSettings} {maxIdle : Nat} {peer : Option α}
    {port : Option Channel} {failsOn : Option SeqNo}
    (h : start settings maxIdle peer port failsOn = .ok s) :
    s.pipeline.AtRest ∧ s.pipeline.DueSoon ∧ s.after (.empty, []) = s := by
  obtain ⟨p, hp, rfl⟩ := start_eq h
  obtain ⟨-, hqueue, houtbox, rfl⟩ := Pipeline.start_eq hp
  refine ⟨⟨⟨?_, ⟨hqueue, houtbox⟩, rfl, Nat.le_refl _⟩, rfl⟩, Nat.zero_le _, rfl⟩
  exact .of_open rfl rfl

/-- Whatever a caller does with a session that settles between steps, a run of actions from its
start comes to the same, as long as the clock has time. -/
theorem exists_run_of_lived {settings : StreamSettings} {maxIdle : Nat} {peer : Option α}
    {port : Option Channel} {failsOn : Option SeqNo}
    (h : start settings maxIdle peer port failsOn = .ok s) (hlived : Lived host s played t)
    (htime : t.pipeline.HasTime) :
    ∃ actions pages, t.after pages = s.run actions ∧ actions.filter Action.isCall = played := by
  obtain ⟨hrest, hsoon, hfresh⟩ := atRest_start h
  obtain ⟨actions, pages, hrun, hplayed⟩ := (hlived.recounts hrest).exists_run hsoon htime
  rw [hfresh] at hrun
  exact ⟨actions, pages, hrun, hplayed⟩

end AudioIntake.Session
