import AudioIntake.Proofs.Pipeline.Ending
import AudioIntake.Proofs.Pipeline.Stretches

/-!
# Waiting on time

Keeping to time never stops the clock: rerequests that wait can be handed over at once, a tick that is
due can be taken, and each puts off the next by a whole interval. So any amount of time can go by
before the next command.
-/

namespace AudioIntake.Pipeline

variable {p q u : Pipeline} {a : Action} {as bs : List Action} {interval ms : Nat} {log : List Step}

/-- Nobody calls upon the worker. -/
def Action.IsQuiet : Action → Prop
  | .tick => True
  | .offer => True
  | .transmit => True
  | .elapse _ => True
  | _ => False

/-- After the given time without a command, everything done on time, `p` has become `q`. -/
def Waited (p : Pipeline) (ms : Nat) (q : Pipeline) : Prop :=
  ∃ as, p.Along OnTime as ∧ (∀ a ∈ as, a.IsQuiet) ∧ q = p.run as ∧ q.now = p.now + ms

namespace Waited

theorem refl (p : Pipeline) : p.Waited 0 p := ⟨[], trivial, nofun, rfl, rfl⟩

theorem of_act (hpunctual : p.OnTime a) (hquiet : a.IsQuiet) : p.Waited a.duration (p.act a) :=
  ⟨[a], ⟨hpunctual, trivial⟩, List.forall_mem_singleton.mpr hquiet, rfl, (p.timer_act a).1⟩

theorem trans {ms' : Nat} (h : p.Waited ms q) (h' : q.Waited ms' u) : p.Waited (ms + ms') u := by
  obtain ⟨as, hpunctual, hquiet, rfl, hnow⟩ := h
  obtain ⟨bs, hpunctual', hquiet', rfl, hnow'⟩ := h'
  refine ⟨as ++ bs, along_append.mpr ⟨hpunctual, hpunctual'⟩,
    List.forall_mem_append.mpr ⟨hquiet, hquiet'⟩, (run_append p as bs).symm, ?_⟩
  rw [hnow', hnow, Nat.add_assoc]

theorem clocked (h : p.Waited ms q) (hp : Clocked interval log p) :
    ∃ log', Clocked interval log' q := by
  obtain ⟨as, hpunctual, -, rfl, -⟩ := h
  exact ⟨_, hp.run hpunctual⟩

theorem capacity_eq (h : p.Waited ms q) : q.outbox.capacity = p.outbox.capacity := by
  obtain ⟨as, -, -, rfl, -⟩ := h
  exact run_induction (P := fun u => u.outbox.capacity = p.outbox.capacity)
    (fun u a hu => (outbox_capacity_act u a).trans hu) rfl as

/-- A deadline that lies ahead stays ahead while no time passes. -/
theorem now_lt_due (h : p.Waited 0 q) (hperiod : 0 < p.timer.period)
    (hahead : p.now < p.timer.due) : q.now < q.timer.due := by
  obtain ⟨as, -, -, rfl, hnow⟩ := h
  induction as generalizing p with
  | nil => exact hahead
  | cons a as ih =>
      obtain ⟨hact, hsame, hdue⟩ := p.timer_act a
      have hle := now_le_run (p.act a) as
      rw [run_cons] at hnow ⊢
      refine ih (by rw [hsame]; exact hperiod) ?_ (by omega)
      omega

end Waited

theorem exists_outbox_clear (p : Pipeline) :
    ∃ q, p.Waited 0 q ∧ q.outbox.items = [] ∧ q.pending = p.pending := by
  generalize hitems : p.outbox.items = items
  induction items generalizing p with
  | nil => exact ⟨p, .refl p, hitems, rfl⟩
  | cons r rest ih =>
      have hfirst : p.Waited 0 (p.act .transmit) := .of_act (a := .transmit) trivial trivial
      have hstate : p.act .transmit = p.transmit := rfl
      rw [transmit, hitems] at hstate
      obtain ⟨q, hq, hempty, hpending⟩ := ih (p.act .transmit) (by rw [hstate])
      refine ⟨q, hfirst.trans hq, hempty, hpending.trans ?_⟩
      rw [hstate]

/-- All the rerequests of a tick can be handed over at once. -/
theorem exists_handedOver (hroom : 0 < p.outbox.capacity) :
    ∃ q, p.Waited 0 q ∧ q.pending = [] := by
  generalize hpending : p.pending = pending
  induction pending generalizing p with
  | nil => exact ⟨p, .refl p, hpending⟩
  | cons r rest ih =>
      obtain ⟨q, hq, hempty, hsame⟩ := exists_outbox_clear p
      have hroom' : 0 < q.outbox.capacity := hq.capacity_eq ▸ hroom
      have hoffer : q.Waited 0 (q.act .offer) := .of_act (a := .offer) trivial trivial
      have hrest := (relayed_offer hroom' hempty (hsame.trans hpending)).2
      obtain ⟨u, hu, hnone⟩ := ih (p := q.act .offer) (hoffer.capacity_eq ▸ hroom') hrest
      exact ⟨u, (hq.trans hoffer).trans hu, hnone⟩

/-- A tick that is awaited can be waited for and dealt with, and then none is due. -/
theorem exists_ticked (h : Clocked interval log p) (hinterval : 0 < interval)
    (hroom : 0 < p.outbox.capacity) (hpending : p.pending = []) (hawaits : p.awaitsTick = true) :
    ∃ q, p.Waited (p.timer.due - p.now) q ∧ q.pending = [] ∧ q.now < q.timer.due := by
  obtain ⟨hready, hrecovering⟩ := Bool.and_eq_true_iff.mp hawaits
  have hle := h.now_le_due (h.recovering_eq hready ▸ hrecovering)
  have hpunctual : p.OnTime (.elapse (p.timer.due - p.now)) := ⟨hpending, fun _ => by omega⟩
  have hfirst : p.Waited (p.timer.due - p.now) (p.elapse (p.timer.due - p.now)) :=
    .of_act hpunctual trivial
  have hsame : (p.elapse (p.timer.due - p.now)).awaitsTick = p.awaitsTick ∧
      (p.elapse (p.timer.due - p.now)).timer = p.timer ∧
      (p.elapse (p.timer.due - p.now)).now = p.timer.due := ⟨rfl, rfl, Nat.add_sub_of_le hle⟩
  generalize p.elapse (p.timer.due - p.now) = u at hfirst hsame
  obtain ⟨hstill, htimer, hnow⟩ := hsame
  have hdue : u.tickDue = true := by
    rw [tickDue, hstill, hawaits, htimer, hnow]
    exact decide_eq_true (Nat.le_refl _)
  have htick : u.Waited 0 u.tick := .of_act (a := .tick) trivial trivial
  have hbeat := beat_tick hdue
  have hput : u.tick.timer.due = u.now + u.timer.period := hbeat.due_eq.elim id id
  have hperiod : u.timer.period = interval := htimer ▸ h.period_eq
  obtain ⟨q, hq, hnone⟩ :=
    exists_handedOver (p := u.tick) (htick.capacity_eq ▸ hfirst.capacity_eq ▸ hroom)
  refine ⟨q, (hfirst.trans htick).trans hq, hnone, hq.now_lt_due ?_ ?_⟩
  · rw [hbeat.period_eq]
    exact hperiod ▸ hinterval
  · rw [hbeat.now_eq, hput, hperiod]
    exact Nat.lt_add_of_pos_right hinterval

/-- One deadline after the other, the clock gets to any time. -/
theorem exists_waited_of_idle (h : Clocked interval log p) (hinterval : 0 < interval)
    (hroom : 0 < p.outbox.capacity) (hpending : p.pending = []) (ms : Nat) :
    ∃ q, p.Waited ms q := by
  -- Dealing with a tick that is due takes no time, but then none is due.
  generalize hsize : 2 * ms + (if p.timer.due ≤ p.now then 1 else 0) = size
  induction size using Nat.strongRecOn generalizing p log ms with
  | ind size ih =>
      by_cases hawaits : p.awaitsTick = true ∧ p.timer.due < p.now + ms
      · obtain ⟨hawaits, hbefore⟩ := hawaits
        obtain ⟨q, hq, hnone, hahead⟩ := exists_ticked h hinterval hroom hpending hawaits
        obtain ⟨log', hclocked⟩ := hq.clocked h
        have hleft : 2 * (ms - (p.timer.due - p.now)) +
            (if q.timer.due ≤ q.now then 1 else 0) < size := by
          rw [if_neg (Nat.not_le.mpr hahead), ← hsize]
          split <;> omega
        obtain ⟨u, hu⟩ := ih _ hleft hclocked (hq.capacity_eq ▸ hroom) hnone _ rfl
        have htotal : p.timer.due - p.now + (ms - (p.timer.due - p.now)) = ms := by omega
        exact ⟨u, htotal ▸ hq.trans hu⟩
      · refine ⟨p.act (.elapse ms), .of_act ⟨hpending, fun hawaiting => ?_⟩ trivial⟩
        exact Nat.not_lt.mp fun hlt => hawaits ⟨hawaiting, hlt⟩

theorem exists_waited (h : Clocked interval log p) (hinterval : 0 < interval)
    (hroom : 0 < p.outbox.capacity) (ms : Nat) : ∃ q, p.Waited ms q := by
  obtain ⟨q, hq, hpending⟩ := exists_handedOver hroom
  obtain ⟨log', hclocked⟩ := hq.clocked h
  obtain ⟨u, hu⟩ := exists_waited_of_idle hclocked hinterval (hq.capacity_eq ▸ hroom) hpending ms
  exact ⟨u, Nat.zero_add ms ▸ hq.trans hu⟩

end AudioIntake.Pipeline
