import AudioIntake.Proofs.Pipeline.Steps

/-!
# Settled pipelines are driven by actions

Whoever waits until nothing is left to do drives the pipeline by its actions alone: those it calls
for, and in between what the worker, the transmitter and the clock do. The alarm of the worker is
the exception, and no action looks at it. As long as the clock can count a whole period on, to set
an alarm changes nothing else; past that the worker may die of it, and the statements here stop.

The journal of a pipeline may be begun anew at any time, since what is noted does not depend on what
has been noted.
-/

namespace AudioIntake

def Journal.append (j k : Journal) : Journal where
  events := j.events ++ k.events
  delivered := j.delivered ++ k.delivered
  handed := j.handed ++ k.handed

/-- The timer without its alarm. -/
def Timer.unset (t : Timer) : Timer := { t with slot := none }

theorem Timer.unset_reset (t : Timer) (now : Nat) : (t.reset now).unset = t.unset.reset now := by
  rw [reset, reset, unset, unset, ite_self]

/-- What a datagram is submitted as. -/
def Verdict.commands : Verdict → List Command
  | .sequence audio => [.packet audio]
  | .flush => [.flush]
  | .discard => []

/-- When a clock runs until one of two alarms goes off, some time goes by. -/
theorem Alarm.lt_waitEither (a b : Alarm) (now : Nat) : now < (waitEither a b now).1 := by
  fun_induction waitEither a b now with
  | case1 a b now slot time a' b' ha hb ih => exact Nat.lt_trans (slot.lt_comesUp now) ih
  | case2 a b now slot time => exact slot.lt_comesUp now

theorem Alarm.due_le_of_onSlot {a : Alarm} {slot : Slot} {now : Nat}
    (h : a.onSlot slot now = none) : a.due ≤ now := by
  rw [onSlot] at h
  split at h
  · split at h
    · assumption
    · cases h
  · cases h

/-- An alarm goes off no earlier than it is due, and one that is left is due when it was. -/
theorem Alarm.due_of_waitEither (a b : Alarm) (now : Nat) :
    ((waitEither a b now).2.1 = none → a.due ≤ (waitEither a b now).1) ∧
      ∀ left, (waitEither a b now).2.1 = some left → left.due = a.due := by
  fun_induction waitEither a b now with
  | case1 a b now slot time a' b' ha hb ih =>
      rw [due_of_onSlot ha] at ih
      exact ih
  | case2 a b now slot time => exact ⟨due_le_of_onSlot, fun _ hleft => due_of_onSlot hleft⟩

namespace Pipeline

variable {p q : Pipeline} {a : Action} {actions : List Action}

/-! ### What no action looks at -/

/-- The pipeline without its alarm, and with an earlier journal in front of its own. -/
def after (p : Pipeline) (past : Journal) : Pipeline :=
  { p with timer := p.timer.unset, journal := past.append p.journal }

theorem note_after (p : Pipeline) (past : Journal) (es : List Event) :
    (p.note es).after past = (p.after past).note es := by
  simp only [note, after, Journal.append, List.append_assoc]

theorem noteDelivered_after (p : Pipeline) (past : Journal) (packets : List Packet) :
    (p.noteDelivered packets).after past = (p.after past).noteDelivered packets := by
  simp only [noteDelivered, after, Journal.append, List.append_assoc]

theorem finishTurn_after (p : Pipeline) (past : Journal) :
    p.finishTurn.after past = (p.after past).finishTurn := by
  simp only [finishTurn, after, apply_ite Timer.unset, Timer.unset_reset]
  rfl

theorem finishIfIdle_after (p : Pipeline) (past : Journal) :
    p.finishIfIdle.after past = (p.after past).finishIfIdle := by
  have hready : (p.after past).isReady = p.isReady := rfl
  rw [finishIfIdle, finishIfIdle, hready]
  split
  · exact p.finishTurn_after past
  · rfl

theorem absorb_after (p : Pipeline) (past : Journal) (next : Sequencer) (r : Report) :
    (p.absorb next r).after past = (p.after past).absorb next r := by
  have hfails : (p.after past).fails = p.fails := rfl
  by_cases hany : r.delivered.any p.fails = true
  · rw [absorb, absorb, hfails, if_pos hany, if_pos hany, fail, fail,
      eventsToFailure_congr (p := p) (q := p.after past) rfl, ← note_after, ← noteDelivered_after]
    rfl
  · rw [absorb, absorb, hfails, if_neg hany, if_neg hany, ← note_after, ← noteDelivered_after]
    rfl

theorem work_after (p : Pipeline) (past : Journal) : p.work.after past = (p.after past).work := by
  have hready : (p.after past).isReady = p.isReady := rfl
  have hitems : (p.after past).queue = p.queue := rfl
  rw [work, work, hready, hitems]
  split
  · cases p.queue.items with
    | nil => rfl
    | cons c rest =>
        cases c with
        | close => rfl
        | packet packet => exact (finishIfIdle_after _ past).trans (by rw [absorb_after]; rfl)
        | flush => exact (finishIfIdle_after _ past).trans (by rw [absorb_after]; rfl)
  · rfl

theorem tick_after (p : Pipeline) (past : Journal) : p.tick.after past = (p.after past).tick := by
  have hdue : (p.after past).tickDue = p.tickDue := rfl
  have hreset : ({ p with timer := p.timer.reset p.now }).after past =
      { p.after past with timer := (p.after past).timer.reset p.now } := by
    simp only [after, Timer.unset_reset]
  rw [tick, tick, hdue]
  split
  · exact (finishIfIdle_after _ past).trans (by rw [absorb_after, hreset]; rfl)
  · rfl

theorem offer_after (p : Pipeline) (past : Journal) :
    p.offer.after past = (p.after past).offer := by
  have hpending : (p.after past).pending = p.pending := rfl
  have houtbox : (p.after past).outbox = p.outbox := rfl
  rw [offer, offer, hpending, houtbox]
  cases p.pending with
  | nil => rfl
  | cons r rest =>
      dsimp only
      split
      · exact finishIfIdle_after _ past
      · split
        · exact finishIfIdle_after _ past
        · rfl

theorem transmit_after (p : Pipeline) (past : Journal) :
    p.transmit.after past = (p.after past).transmit := by
  have houtbox : (p.after past).outbox = p.outbox := rfl
  rw [transmit, transmit, houtbox]
  cases p.outbox.items with
  | nil => rfl
  | cons r rest => simp only [after, Journal.append, List.append_assoc]

theorem submit_after (p : Pipeline) (past : Journal) (c : Command) :
    (p.submit c).after past = (p.after past).submit c := by
  have hqueue : (p.after past).queue = p.queue := rfl
  rw [submit, submit, hqueue]
  split
  · rfl
  · split <;> rfl

theorem act_after (p : Pipeline) (past : Journal) (a : Action) :
    (p.act a).after past = (p.after past).act a := by
  cases a with
  | submit c => exact p.submit_after past c
  | work => exact p.work_after past
  | tick => exact p.tick_after past
  | offer => exact p.offer_after past
  | transmit => exact p.transmit_after past
  | elapse ms => rfl

theorem run_after (p : Pipeline) (past : Journal) (actions : List Action) :
    (p.run actions).after past = (p.after past).run actions := by
  induction actions generalizing p with
  | nil => rfl
  | cons a actions ih => rw [run_cons, run_cons, ih, act_after]

/-- A page that is turned is put back by what was on it. -/
theorem turnPage_after (p : Pipeline) (past : Journal) :
    p.turnPage.after (past.append p.journal) = p.after past := by
  simp only [after, turnPage, Journal.append, Journal.empty, List.append_nil]

/-! ### How the clock goes on -/

/-- The next tick is no more than a period away. -/
def DueSoon (p : Pipeline) : Prop := p.timer.due ≤ p.now + p.timer.period

/-- The clock can count a whole period on. -/
def HasTime (p : Pipeline) : Prop := p.now + p.timer.period ≤ Alarm.latest

/-- What becomes of the clock and the timer of a pipeline. -/
structure Later (p q : Pipeline) : Prop where
  now_le : p.now ≤ q.now
  period_eq : q.timer.period = p.timer.period
  dueSoon : p.DueSoon → q.DueSoon

namespace Later

theorem refl (p : Pipeline) : Later p p := ⟨Nat.le_refl _, rfl, id⟩

theorem trans {u : Pipeline} (h : Later p q) (h' : Later q u) : Later p u where
  now_le := Nat.le_trans h.now_le h'.now_le
  period_eq := h'.period_eq.trans h.period_eq
  dueSoon := h'.dueSoon ∘ h.dueSoon

theorem of_timer (hnow : p.now ≤ q.now) (hperiod : q.timer.period = p.timer.period)
    (hdue : q.timer.due = p.timer.due) : Later p q where
  now_le := hnow
  period_eq := hperiod
  dueSoon hsoon := by
    unfold DueSoon at hsoon ⊢
    omega

/-- A clock that has time for more had it before. -/
theorem hasTime (h : Later p q) (htime : q.HasTime) : p.HasTime := by
  have hnow := h.now_le
  have hperiod := h.period_eq
  unfold HasTime at htime ⊢
  omega

end Later

theorem later_act (p : Pipeline) (a : Action) : Later p (p.act a) := by
  obtain ⟨hnow, hperiod, hdue⟩ := p.timer_act a
  refine ⟨by omega, hperiod, fun hsoon => ?_⟩
  unfold DueSoon at hsoon ⊢
  omega

end Pipeline

open Pipeline

/-! ### What is played -/

/-- Something that has a pipeline in it, what is done to it, and which actions it waits for. -/
structure Machine (σ β γ : Type) where
  act : σ → β → σ
  pipeline : σ → Pipeline
  /-- Without the alarm, and with what has been noted earlier in front. -/
  after : σ → γ → σ
  isCall : β → Bool

namespace Machine

variable {σ β γ : Type} {m : Machine σ β γ} {s t u : σ} {calls more : List β}

def run (m : Machine σ β γ) (s : σ) (actions : List β) : σ := actions.foldl m.act s

/-- One state comes of another by actions, of which the given ones are called for. -/
structure Plays (m : Machine σ β γ) (calls : List β) (s t : σ) : Prop where
  later : Later (m.pipeline s) (m.pipeline t)
  exists_run : (m.pipeline s).DueSoon → (m.pipeline t).HasTime →
    ∃ actions, (∀ past, m.after t past = m.run (m.after s past) actions) ∧
      actions.filter m.isCall = calls

namespace Plays

theorem refl (s : σ) : m.Plays [] s s := ⟨.refl _, fun _ _ => ⟨[], fun _ => rfl, rfl⟩⟩

theorem trans (h : m.Plays calls s t) (h' : m.Plays more t u) :
    m.Plays (calls ++ more) s u where
  later := h.later.trans h'.later
  exists_run hsoon htime := by
    obtain ⟨actions, hrun, hcalls⟩ := h.exists_run hsoon (h'.later.hasTime htime)
    obtain ⟨actions', hrun', hcalls'⟩ := h'.exists_run (h.later.dueSoon hsoon) htime
    refine ⟨actions ++ actions', fun past => ?_, by rw [List.filter_append, hcalls, hcalls']⟩
    rw [hrun', hrun, run, run, run, List.foldl_append]

/-- What calls for nothing may follow. -/
theorem settle (h : m.Plays calls s t) (h' : m.Plays [] t u) : m.Plays calls s u :=
  List.append_nil calls ▸ h.trans h'

theorem of_act {b : β} (hlater : Later (m.pipeline s) (m.pipeline (m.act s b)))
    (hafter : ∀ past, m.after (m.act s b) past = m.act (m.after s past) b) :
    m.Plays ([b].filter m.isCall) s (m.act s b) :=
  ⟨hlater, fun _ _ => ⟨[b], hafter, rfl⟩⟩

theorem iterate {f : σ → σ} (hf : ∀ s, m.Plays [] s (f s)) (n : Nat) (s : σ) :
    m.Plays [] s (Nat.repeat f n s) := by
  induction n with
  | zero => exact refl s
  | succ n ih => exact ih.trans (hf _)

end Plays

end Machine

namespace Pipeline

variable {p q : Pipeline} {c : Command} {ms : Nat}

def Action.isCall : Action → Bool
  | .submit _ => true
  | _ => false

def machine : Machine Pipeline Action Journal where
  act := act
  pipeline := id
  after := after
  isCall := Action.isCall

theorem plays_act (p : Pipeline) (a : Action) :
    machine.Plays ([a].filter Action.isCall) p (p.act a) :=
  .of_act (p.later_act a) fun past => p.act_after past a

/-! ### Setting the alarm -/

theorem due_of_arm? {t armed : Timer} {now : Nat} (h : t.arm? now = some armed) :
    armed.period = t.period ∧ (armed.due = t.due ∨ armed.due = now) := by
  rw [Timer.arm?] at h
  split at h
  · obtain ⟨alarm, -, rfl⟩ := Option.map_eq_some_iff.mp h
    exact ⟨rfl, Or.inl rfl⟩
  · split at h
    · cases h
      exact ⟨rfl, Or.inr rfl⟩
    · cases h
      exact ⟨rfl, Or.inl rfl⟩

/-- An alarm for a time that the clock can count to is not refused. -/
theorem unset_of_arm? {t : Timer} (h : t.due ≤ Alarm.latest) (now : Nat) :
    ∃ armed, t.arm? now = some armed ∧ armed.unset = t.unset := by
  rw [Timer.arm?]
  split
  · rw [Alarm.set?, if_pos h]
    exact ⟨_, rfl, rfl⟩
  · have hgone : t.due ≠ Alarm.gone := by
      have : Alarm.latest < Alarm.gone := by decide
      omega
    rw [if_neg hgone]
    exact ⟨t, rfl, rfl⟩

theorem later_armTimer (p : Pipeline) : Later p p.armTimer := by
  rw [armTimer]
  split
  · split
    · rename_i armed harmed
      obtain ⟨hperiod, hdue⟩ := due_of_arm? harmed
      refine ⟨Nat.le_refl _, hperiod, fun hsoon => ?_⟩
      unfold DueSoon at hsoon ⊢
      dsimp only
      omega
    · exact .of_timer (Nat.le_refl _) rfl rfl
  · exact .refl p

/-- As long as the clock has time, the alarm is all that is set. -/
theorem armTimer_after (hsoon : p.DueSoon) (htime : p.armTimer.HasTime) (past : Journal) :
    p.armTimer.after past = p.after past := by
  have hlatest : p.timer.due ≤ Alarm.latest :=
    Nat.le_trans hsoon (p.later_armTimer.hasTime htime)
  obtain ⟨armed, harm, hunset⟩ := unset_of_arm? hlatest p.now
  rw [armTimer]
  split
  · rw [harm]
    simp only [after, hunset]
  · rfl

theorem plays_armTimer (p : Pipeline) : machine.Plays [] p p.armTimer where
  later := p.later_armTimer
  exists_run hsoon htime := ⟨[], armTimer_after hsoon htime, rfl⟩

/-! ### Settling -/

theorem plays_relay (p : Pipeline) : machine.Plays [] p p.relay :=
  (p.plays_act .offer).trans (p.offer.plays_act .transmit)

theorem plays_relayAll (p : Pipeline) : machine.Plays [] p p.relayAll :=
  .iterate plays_relay p.pending.length p

theorem plays_heedAlarm (p : Pipeline) : machine.Plays [] p p.heedAlarm := by
  rw [heedAlarm]
  split
  · exact .refl p
  · exact ((p.plays_act .tick).settle (plays_relayAll _)).settle (plays_armTimer _)

theorem plays_settle (p : Pipeline) : machine.Plays [] p p.settle := by
  refine .iterate (fun p => ?_) p.queue.items.length p
  exact ((p.plays_act .work).settle (plays_armTimer _)).settle (plays_heedAlarm _)

/-! ### Sleeping -/

/-- Up to the next alarm the clock is all that moves. -/
theorem doze_spec (p : Pipeline) (sleeper : Alarm) :
    Later p (p.doze sleeper).1 ∧
      ∃ ms, ∀ past, (p.doze sleeper).1.after past = (p.after past).elapse ms := by
  have hmoved : ∀ now slot, p.now ≤ now →
      let moved := { p with now, timer := { p.timer with slot } }
      Later p moved ∧ ∃ ms, ∀ past, moved.after past = (p.after past).elapse ms := by
    intro now slot hnow
    refine ⟨.of_timer hnow rfl rfl, now - p.now, fun past => ?_⟩
    have hsum : p.now + (now - p.now) = now := by omega
    change _ = { p.after past with now := p.now + (now - p.now) }
    rw [hsum]
    rfl
  rw [doze]
  split
  · refine hmoved _ p.timer.slot (Nat.le_trans ?_ (Nat.le_max_right _ _))
    exact Nat.le_of_lt (Slot.lt_comesUp _ _)
  · exact hmoved _ _ (Nat.le_of_lt (Alarm.lt_waitEither _ _ _))

theorem plays_doze (p : Pipeline) (sleeper : Alarm) : machine.Plays [] p (p.doze sleeper).1 := by
  obtain ⟨hlater, ms, hdozed⟩ := p.doze_spec sleeper
  exact ⟨hlater, fun _ _ => ⟨[.elapse ms], hdozed, rfl⟩⟩

theorem plays_sleepOn (p : Pipeline) (sleeper : Alarm) (times : Nat) :
    machine.Plays [] p (p.sleepOn sleeper times) := by
  induction times generalizing p sleeper with
  | zero => exact p.plays_act (.elapse _)
  | succ times ih =>
      have hdozed := p.plays_doze sleeper
      rw [sleepOn]
      split
      · rename_i awake hdoze
        rw [hdoze] at hdozed
        exact hdozed.settle (plays_heedAlarm _)
      · rename_i awake sleeper hdoze
        rw [hdoze] at hdozed
        exact (hdozed.settle (plays_heedAlarm _)).settle (ih _ _)

theorem plays_sleep (h : p.sleep? ms = some q) : machine.Plays [] p q := by
  obtain ⟨sleeper, -, rfl⟩ := Option.map_eq_some_iff.mp h
  split
  · exact .refl p
  · exact p.plays_sleepOn _ _

theorem due_of_doze (p : Pipeline) (sleeper : Alarm) :
    ((p.doze sleeper).2 = none → sleeper.due ≤ (p.doze sleeper).1.now) ∧
      ∀ left, (p.doze sleeper).2 = some left → left.due = sleeper.due := by
  rw [doze]
  split
  · exact ⟨fun _ => Nat.le_max_left _ _, nofun⟩
  · exact Alarm.due_of_waitEither _ _ _

theorem due_le_sleepOn (p : Pipeline) (sleeper : Alarm) (times : Nat) :
    sleeper.due ≤ (p.sleepOn sleeper times).now := by
  induction times generalizing p sleeper with
  | zero =>
      change sleeper.due ≤ p.now + (sleeper.due - p.now)
      omega
  | succ times ih =>
      obtain ⟨hover, hleft⟩ := p.due_of_doze sleeper
      rw [sleepOn]
      split
      · rename_i awake hdoze
        rw [hdoze] at hover
        exact Nat.le_trans (hover rfl) awake.plays_heedAlarm.later.now_le
      · rename_i awake left hdoze
        rw [hdoze] at hleft
        rw [← hleft left rfl]
        exact ih _ _

/-- No sleep is cut short, but that the clock cannot count any further. -/
theorem now_le_sleep (h : p.sleep? ms = some q) : min (p.now + ms) Alarm.latest ≤ q.now := by
  obtain ⟨sleeper, hset, rfl⟩ := Option.map_eq_some_iff.mp h
  have hdue : sleeper.due = min (p.now + ms) Alarm.latest := by
    rw [Alarm.set?] at hset
    split at hset
    · rename_i hle
      cases hset
      exact (Nat.min_eq_left hle).symm
    · rename_i hlate
      rw [Option.ite_none_left_eq_some] at hset
      cases hset.2
      exact (Nat.min_eq_right (Nat.le_of_lt (Nat.not_le.mp hlate))).symm
  rw [← hdue]
  split
  · assumption
  · exact p.due_le_sleepOn _ _

/-! ### Submitting -/

theorem plays_submitWaiting (p : Pipeline) (c : Command) :
    machine.Plays [.submit c] p (p.submitWaiting c).1 := by
  rw [submitWaiting]
  split
  · exact p.plays_act (.submit c)
  · exact p.plays_settle.trans (p.settle.plays_act (.submit c))

theorem plays_submitSettled (p : Pipeline) (c : Command) :
    machine.Plays [.submit c] p (p.submitSettled c).1 :=
  (p.plays_submitWaiting c).settle (plays_settle _)

theorem plays_submitAll (p : Pipeline) (cs : List Command) :
    machine.Plays (cs.map .submit) p (p.submitAll cs).1 := by
  -- Whether the commands so far were taken does not matter for the next.
  have hfold : ∀ (cs : List Command) (u : Pipeline × Bool), machine.Plays (cs.map .submit) u.1
      (cs.foldl (fun u c => u.1.submitWaiting c) u).1 := by
    intro cs
    induction cs with
    | nil => exact fun u => .refl u.1
    | cons c cs ih => exact fun u => (u.1.plays_submitWaiting c).trans (ih _)
  exact hfold cs (p, true)

theorem plays_submitPackets (p : Pipeline) (seqnos : List SeqNo) (retransmitted : Bool) :
    machine.Plays ((p.lend seqnos retransmitted).2.map fun packet => .submit (.packet packet))
      (p.lend seqnos retransmitted).1 (p.submitPackets seqnos retransmitted).1 := by
  have h := plays_submitAll (p.lend seqnos retransmitted).1
    ((p.lend seqnos retransmitted).2.map .packet)
  rw [List.map_map] at h
  exact h.settle (plays_settle _)

theorem plays_closeBefore (p : Pipeline) (seqnos : List SeqNo) :
    machine.Plays
      (.submit .close :: (p.lend seqnos false).2.map fun packet => .submit (.packet packet))
      (p.lend seqnos false).1 (p.closeBefore seqnos) := by
  have h := plays_submitAll (p.lend seqnos false).1
    (.close :: (p.lend seqnos false).2.map .packet)
  rw [List.map_cons, List.map_map] at h
  exact h.settle (plays_settle _)

theorem plays_receive (p : Pipeline) (judge : Packet → Judgement) (datagram : Octets) :
    ∃ pool, machine.Plays ((p.receive judge datagram).2.1.commands.map .submit) { p with pool }
      (p.receive judge datagram).1 := by
  rw [receive]
  dsimp only
  split
  · exact ⟨_, plays_submitSettled _ _⟩
  · exact ⟨_, plays_submitSettled _ _⟩
  · exact ⟨_, .refl _⟩

/-- But for its alarm, a pipeline that is played on is one that its actions have been run on. -/
theorem exists_run_of_plays {calls : List Action} (h : machine.Plays calls p q) (hsoon : p.DueSoon)
    (htime : q.HasTime) : ∃ actions, actions.filter Action.isCall = calls ∧
      q = { p.run actions with timer := { (p.run actions).timer with slot := q.timer.slot } } := by
  obtain ⟨actions, hrun, hcalls⟩ := h.exists_run hsoon htime
  refine ⟨actions, hcalls, ?_⟩
  have hsame : q.after .empty = (p.run actions).after .empty :=
    (hrun .empty).trans (p.run_after .empty actions).symm
  have hback : ∀ u : Pipeline,
      u = { u.after .empty with timer := { (u.after .empty).timer with slot := u.timer.slot } } :=
    fun _ => rfl
  rw [hback q, hsame]
  rfl

end Pipeline

end AudioIntake
