import AudioIntake.Proofs.Pipeline.Actions
import AudioIntake.Proofs.Sequencer.Window

/-!
# The worker bounds its window

Every turn keeps the packets held within the largest lead, so every reachable pipeline does, and so
do the rerequests on their way out and the runs that are given up.
-/

namespace AudioIntake.Pipeline

variable {p q : Pipeline} {a : Action} {bound : Int}

structure Windowed (p : Pipeline) (bound : Int) : Prop where
  maxLead_eq : p.maxLead = bound
  sound : p.sequencer.Sound
  within : p.sequencer.Within bound
  pending_le : ∀ r ∈ p.pending, (r.count.toNat : Int) ≤ bound
  outbox_le : ∀ r ∈ p.outbox.items, (r.count.toNat : Int) ≤ bound
  handed_le : ∀ d ∈ p.journal.handed, ∃ r stamp,
    d = Rerequest.encode r stamp ∧ (r.count.toNat : Int) ≤ bound

theorem Fresh.windowed {settings : StreamSettings} (h : Fresh settings p) :
    Windowed p settings.maxLead.toInt where
  maxLead_eq := h.maxLead_eq
  sound := by
    rw [h.sequencer_eq]
    exact Sequencer.sound_ofLadder _
  within := by
    rw [h.sequencer_eq]
    exact Sequencer.within_of_held_empty rfl
  pending_le r hr := by
    rw [h.pending_eq] at hr
    cases hr
  outbox_le r hr := by
    rw [h.outbox_eq] at hr
    cases hr
  handed_le d hd := by
    rw [h.journal_eq] at hd
    cases hd

theorem Keeps.windowed (h : Keeps p q) (hp : Windowed p bound) : Windowed q bound where
  maxLead_eq := h.maxLead_eq.trans hp.maxLead_eq
  sound := h.sequencer_eq ▸ hp.sound
  within := h.sequencer_eq ▸ hp.within
  pending_le := h.pending_eq ▸ hp.pending_le
  outbox_le := h.outbox_eq ▸ hp.outbox_le
  handed_le := h.journal_eq ▸ hp.handed_le

theorem Acted.windowed (h : Acted p a q) (hbound : 0 ≤ bound) (hp : Windowed p bound) :
    Windowed q bound := by
  cases h with
  | idle _ h => exact h.windowed hp
  | @turned turn _ _ _ h =>
      have hsound := Sequencer.sound_turn hp.sound p.maxLead turn
      have hwithin := Sequencer.within_turn hp.sound hp.within hbound turn
      rw [← hp.maxLead_eq] at hwithin
      refine h.windowed { hp with
        sound := hsound, within := hp.maxLead_eq ▸ hwithin, pending_le := fun r hr => ?_ }
      rw [report, hp.maxLead_eq] at hr
      exact (Sequencer.request_turn hp.sound hp.within turn hr).count_le
  | failed _ _ _ h =>
      exact h.windowed { hp with
        sound := Sequencer.sound_forget _ _ _, within := Sequencer.within_of_held_empty rfl }
  | stopped _ _ h =>
      exact h.windowed { hp with
        sound := Sequencer.sound_call hp.sound .close
        within := Sequencer.within_of_held_empty rfl }
  | @offered r rest _ hpending _ h =>
      have hall := hp.pending_le
      rw [hpending] at hall
      refine h.windowed { hp with
        pending_le := fun r hr => hall r (List.mem_cons_of_mem _ hr), outbox_le := ?_ }
      intro r' hr'
      dsimp only at hr'
      split at hr'
      · rcases List.mem_append.mp hr' with hold | hnew
        · exact hp.outbox_le r' hold
        · exact hall r' (List.mem_cons.mpr (Or.inl (List.mem_singleton.mp hnew)))
      · exact hp.outbox_le r' hr'
  | @transmitted r rest _ houtbox h =>
      have hall := hp.outbox_le
      rw [houtbox] at hall
      refine h.windowed { hp with
        outbox_le := fun r hr => hall r (List.mem_cons_of_mem _ hr), handed_le := ?_ }
      intro d hd
      rcases List.mem_append.mp hd with hold | hnew
      · exact hp.handed_le d hold
      · exact ⟨r, p.transmitter.stamp, List.mem_singleton.mp hnew, hall r List.mem_cons_self⟩

theorem windowed_run {settings : StreamSettings} (h : Fresh settings p) (actions : List Action) :
    Windowed (p.run actions) settings.maxLead.toInt := by
  have hbound : 0 ≤ settings.maxLead.toInt := Int.le_of_lt h.maxLead_pos
  exact run_induction (fun q a hq => (q.acted_act a).windowed hbound hq) h.windowed actions

/-- What is asked for and given up on the way from `p` to `q`, the rerequests newly pending among
it, lies less than `bound` ahead of the delivery point of `p`. -/
def AsksWithin (p : Pipeline) (bound : Int) (q : Pipeline) : Prop :=
  ∃ written : List Event,
    q.journal.events = p.journal.events ++ written.map (fun e => (p.now, e)) ∧
    (∀ e ∈ written, ∀ first count, e.span? = some (first, count) →
      p.sequencer.low.LiesWithin bound first count) ∧
    ∀ r ∈ q.pending, r ∈ p.pending ∨ p.sequencer.low.LiesWithin bound r.first r.count.toNat

theorem Acted.asksWithin (h : Acted p a q) (hp : Windowed p bound) : p.AsksWithin bound q := by
  have hspan : ∀ turn, ∀ e ∈ (p.report turn).events, ∀ first count,
      e.span? = some (first, count) → p.sequencer.low.LiesWithin bound first count := by
    intro turn e he first count
    rw [report, hp.maxLead_eq] at he
    exact Sequencer.span?_turn hp.sound hp.within turn he
  -- The other actions write nothing down and queue nothing up.
  have hquiet : q.journal.events = p.journal.events → (∀ r ∈ q.pending, r ∈ p.pending) →
      p.AsksWithin bound q := fun hevents hpending =>
    ⟨[], by simpa using hevents, by simp, fun r hr => Or.inl (hpending r hr)⟩
  cases h with
  | idle _ h => exact hquiet (by rw [h.journal_eq]) fun r hr => h.pending_eq ▸ hr
  | @turned turn _ _ _ h =>
      refine ⟨(p.report turn).events, by rw [h.journal_eq]; rfl, hspan turn, fun r hr => Or.inr ?_⟩
      rw [h.pending_eq] at hr
      change r ∈ (p.report turn).requests at hr
      rw [report, hp.maxLead_eq] at hr
      exact Sequencer.request_turn hp.sound hp.within turn hr
  | @failed turn _ _ _ h =>
      have hcut := p.eventsToFailure_isPrefix (p.report turn).events
      refine ⟨p.eventsToFailure (p.report turn).events, by rw [h.journal_eq]; rfl,
        fun e he => hspan turn e (hcut.subset he), fun r hr => Or.inl (h.pending_eq ▸ hr)⟩
  | stopped _ _ h => exact hquiet (by rw [h.journal_eq]) fun r hr => h.pending_eq ▸ hr
  | @offered r rest _ hpending _ h =>
      refine hquiet (by rw [h.journal_eq]) fun r hr => ?_
      rw [h.pending_eq] at hr
      rw [hpending]
      exact List.mem_cons_of_mem _ hr
  | transmitted _ _ h => exact hquiet (by rw [h.journal_eq]) fun r hr => h.pending_eq ▸ hr

/-- In every pipeline that can be reached with usable settings, each packet held is from one number
to the largest lead ahead of the delivery point, so no more packets are held than that; whatever an
action asks for or gives up lies less than the largest lead ahead of the delivery point that it
found, and no run of it is longer; the rerequests handed over are for no more than that either; and
no packet, whichever way it is admitted, is left held beyond the largest lead. -/
theorem window_bounded (settings : StreamSettings) (failsOn : Option SeqNo) (pool : Pool)
    (p₀ : Pipeline) (hstart : start settings failsOn pool = .ok p₀) (actions : List Action) :
    let p := p₀.run actions
    let bound := settings.maxLead.toInt
    (∀ (n : SeqNo) (packet : Packet), p.sequencer.held[n]? = some packet →
      ∃ lead, p.sequencer.lead? packet.seqno = some lead ∧ 1 ≤ lead ∧ lead ≤ bound) ∧
    (p.sequencer.held.size : Int) ≤ bound ∧
    (∀ a, p.AsksWithin bound (p.act a)) ∧
    (∀ d ∈ p.journal.handed, ∃ r stamp,
      d = Rerequest.encode r stamp ∧ (r.count.toNat : Int) ≤ bound) ∧
    p.maxLead = bound ∧
    ∀ packet : Packet, let s := (p.sequencer.accept p.maxLead packet).1
      ∀ n ∈ s.held, 1 ≤ n.delta s.low ∧ n.delta s.low ≤ bound := by
  intro p bound
  have hfresh := fresh_start hstart
  have hbound : 0 ≤ bound := Int.le_of_lt hfresh.maxLead_pos
  have hp : Windowed p bound := windowed_run hfresh actions
  refine ⟨fun n packet hheld => ?_, Sequencer.size_held_le hp.sound hp.within hbound,
    fun a => (p.acted_act a).asksWithin hp, hp.handed_le, hp.maxLead_eq, fun packet n hn => ?_⟩
  · have hmem := (Std.ExtTreeMap.getElem?_eq_some_iff.mp hheld).1
    have hstarted := hp.sound.started_of_held hmem
    rw [hp.sound.seqno_eq hheld]
    refine ⟨n.delta p.sequencer.low, ?_, hp.sound.ahead hmem, hp.within n hmem⟩
    rw [Sequencer.lead?, if_pos hstarted]
  · have hsound := Sequencer.sound_turn hp.sound p.maxLead (.packet packet)
    have hwithin := Sequencer.within_turn hp.sound hp.within hbound (.packet packet)
    rw [← hp.maxLead_eq] at hwithin
    exact ⟨hsound.ahead hn, hp.maxLead_eq ▸ hwithin n hn⟩

/-- Two packets held around the wrap, as far ahead as they may be, and the rerequest of a tick. -/
theorem window_bounded_across_wrap :
    let packet := fun n => Packet.ofOctets (SeqNo.ofNat n) [] false
    let settings := { StreamSettings.default with maxLead := 3, rerequestTicks := [1] }
    let arrive := fun n => [Action.submit (.packet (packet n)), .work]
    let actions := [65534, 1, 2].flatMap arrive ++ [.elapse 10]
    ∃ p₀, start settings none (.ofSize 0 0) = .ok p₀ ∧
      (p₀.run actions).sequencer.held.size = 2 ∧
      ((p₀.run actions).sequencer.held.size : Int) ≤ 3 ∧
      ((p₀.run actions).act .tick).pending = [{ first := SeqNo.ofNat 65535, count := 2 }] ∧
      (p₀.run actions).AsksWithin 3 ((p₀.run actions).act .tick) := by
  intro packet settings arrive actions
  refine ⟨_, rfl, by decide +kernel, ?_, by decide +kernel, ?_⟩
  · exact (window_bounded settings none (.ofSize 0 0) _ rfl actions).2.1
  · exact (window_bounded settings none (.ofSize 0 0) _ rfl actions).2.2.1 .tick

end AudioIntake.Pipeline
