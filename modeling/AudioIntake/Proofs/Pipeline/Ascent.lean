import AudioIntake.Proofs.Pipeline.LoneGap
import AudioIntake.Proofs.Pipeline.Window

/-!
# The worker delivers in the order of the numbers

Two packets delivered one right after the other lie no further apart than the largest lead. Whether
`delta` judges the second to be ahead of the first hangs on that lead. A gap that is given up leaves
them up to one number further apart than the lead is, and `delta` can be relied on for 8191 numbers.
Leads up to 8190 are therefore fine, and any larger one lets 57344 and 0 be delivered in that order,
which `delta` takes for a step back. Usable settings are not kept from having such a lead.
-/

namespace AudioIntake.Pipeline

variable {p q : Pipeline} {a : Pipeline.Action} {bound : Int} {x y : Packet}

/-- What has been written down so far ascends. A worker that still runs takes it up from its
delivery point. -/
def Ascending (p : Pipeline) (bound : Int) : Prop :=
  ∃ due, Ascends bound none (p.journal.events.map Prod.snd) due ∧
    (p.phase = .running → due = p.sequencer.low?)

theorem Fresh.ascending {settings : StreamSettings} (h : Fresh settings p) : p.Ascending bound := by
  refine ⟨none, ?_, fun _ => ?_⟩
  · rw [h.journal_eq]
    exact .nil none
  · rw [h.sequencer_eq]
    rfl

theorem Keeps.ascending (h : Keeps p q) (hp : p.Ascending bound) : q.Ascending bound := by
  rw [Ascending, h.journal_eq, h.phase_eq, h.sequencer_eq]
  exact hp

theorem Acted.ascending (h : Acted p a q) (hbound : 0 ≤ bound) (hs : p.sequencer.Sound)
    (hwithin : p.sequencer.Within bound) (hp : p.Ascending bound) : q.Ascending bound := by
  obtain ⟨due, hascends, hdue⟩ := hp
  -- A turn goes on from the delivery point it finds.
  have hturned : p.isReady = true → ∀ turn,
      Ascends bound due (p.report turn).events (p.next turn).low? := by
    intro hready turn
    rw [hdue (phase_of_isReady hready)]
    exact Sequencer.ascends_turn hs hwithin hbound p.maxLead turn
  have hnoted : ∀ es, ((p.note es).journal.events).map Prod.snd =
      p.journal.events.map Prod.snd ++ es := by
    simp [note, Function.comp_def]
  cases h with
  | idle _ h => exact h.ascending ⟨due, hascends, hdue⟩
  | @turned turn _ hready _ h =>
      refine h.ascending ⟨(p.next turn).low?, ?_, fun _ => rfl⟩
      change Ascends bound none ((p.note (p.report turn).events).journal.events.map Prod.snd) _
      rw [hnoted]
      exact hascends.append (hturned hready turn)
  | @failed turn _ hready _ h =>
      obtain ⟨mid, hcut⟩ := (hturned hready turn).of_isPrefix
        (p.eventsToFailure_isPrefix (p.report turn).events)
      refine h.ascending ⟨mid, ?_, fun hrunning => by cases hrunning⟩
      change Ascends bound none
        ((p.note (p.eventsToFailure (p.report turn).events)).journal.events.map Prod.snd) _
      rw [hnoted]
      exact hascends.append hcut
  | stopped _ _ h => exact h.ascending ⟨due, hascends, fun hrunning => by cases hrunning⟩
  | offered _ _ _ h => exact h.ascending ⟨due, hascends, hdue⟩
  | transmitted _ _ h => exact h.ascending ⟨due, hascends, hdue⟩

/-- No number counts as ahead by more than 57344, whatever the largest lead. -/
theorem Windowed.within_min (h : Windowed p bound) : p.sequencer.Within (min bound 57344) := by
  intro k hk
  have hlead := h.within k hk
  have hfar := h.sound.stepsTo_le hk
  rw [h.sound.delta_eq hk] at hlead ⊢
  omega

theorem ascending_run {settings : StreamSettings} (h : Fresh settings p) (actions : List Action) :
    (p.run actions).Ascending (min settings.maxLead.toInt 57344) := by
  have hbound : 0 ≤ settings.maxLead.toInt := Int.le_of_lt h.maxLead_pos
  -- The order rests on the window, so both are carried along.
  have hstep : ∀ (q : Pipeline) (a : Action),
      Windowed q settings.maxLead.toInt ∧ q.Ascending (min settings.maxLead.toInt 57344) →
        Windowed (q.act a) settings.maxLead.toInt ∧
          (q.act a).Ascending (min settings.maxLead.toInt 57344) := by
    rintro q a ⟨hwindow, hascending⟩
    have hacted := q.acted_act a
    refine ⟨hacted.windowed hbound hwindow, ?_⟩
    exact hacted.ascending (by omega) hwindow.sound hwindow.within_min hascending
  exact (run_induction hstep ⟨h.windowed, h.ascending⟩ actions).2

theorem Ascending.near (h : p.Ascending bound) (hxy : p.Follows x y) :
    (x.seqno.next.stepsTo y.seqno : Int) ≤ bound := by
  obtain ⟨due, hascends, -⟩ := h
  obtain ⟨before, middle, after, hevents, hmiddle⟩ := hxy
  rw [hevents] at hascends
  exact hascends.next_delivery hmiddle

/-- So near a number is judged right wherever the two of them stand. -/
theorem delta_pos_of_near (a b : SeqNo) (h : (a.next.stepsTo b : Int) ≤ 8190) : 0 < b.delta a := by
  have hsteps : a + (1 + a.next.stepsTo b) = b := by
    rw [← SeqNo.add_add]
    exact SeqNo.add_stepsTo a.next b
  have hdelta := SeqNo.delta_add_add a (n := 1 + a.next.stepsTo b) (m := 0) (by omega) (by omega)
  rw [hsteps, SeqNo.add_zero] at hdelta
  omega

/-- Of two packets delivered one right after the other, with no flush between, the second has a
number further on around the circle than the first, by at most the largest lead from the number due.
With a largest lead of 8190 or less `delta` judges it to be ahead, in every run. With a larger one
it does not: if nothing makes the consumer fail, there is a run in which it judges the second to be
behind. -/
theorem delivered_in_order (settings : StreamSettings) (failsOn : Option SeqNo) (pool : Pool)
    (p₀ : Pipeline) (hstart : start settings failsOn pool = .ok p₀) :
    (∀ actions x y, (p₀.run actions).Follows x y →
      (x.seqno.next.stepsTo y.seqno : Int) ≤ min settings.maxLead.toInt 57344) ∧
    (settings.maxLead.toInt ≤ 8190 → ∀ actions x y, (p₀.run actions).Follows x y →
      0 < y.seqno.delta x.seqno) ∧
    (8191 ≤ settings.maxLead.toInt → failsOn = none → ∃ actions x y,
      (p₀.run actions).Follows x y ∧ y.seqno.delta x.seqno < 0) := by
  have hnear : ∀ actions x y, (p₀.run actions).Follows x y →
      (x.seqno.next.stepsTo y.seqno : Int) ≤ min settings.maxLead.toInt 57344 := by
    intro actions x y hxy
    exact (ascending_run (fresh_start hstart) actions).near hxy
  refine ⟨hnear, fun hlead actions x y hxy => ?_, ?_⟩
  · have hsteps := hnear actions x y hxy
    exact delta_pos_of_near x.seqno y.seqno (by omega)
  · rintro hlead rfl
    have hgap : (SeqNo.ofNat 0).delta (SeqNo.ofNat 57344).next = 8191 := by decide
    obtain ⟨actions, hfollows⟩ := exists_follows (a := .ofOctets (SeqNo.ofNat 57344) [] false)
      (b := .ofOctets (SeqNo.ofNat 0) [] false) hstart rfl (hgap ▸ by decide) (hgap ▸ hlead)
    exact ⟨actions, _, _, hfollows, by decide⟩

/-- Two numbers around the wrap are given up, and the packets on either side are delivered. -/
theorem delivered_in_order_across_wrap :
    let packet := fun n => Packet.ofOctets (SeqNo.ofNat n) [] false
    let settings := { StreamSettings.default with rerequestTicks := [], giveUpTick := 1 }
    let arrive := fun n => [Action.submit (.packet (packet n)), .work]
    let actions := [65534, 1].flatMap arrive ++ [.elapse 10, .tick]
    ∃ p₀, start settings none (.ofSize 0 0) = .ok p₀ ∧
      (p₀.run actions).Follows (packet 65534) (packet 1) ∧
      0 < (packet 1).seqno.delta (packet 65534).seqno := by
  intro packet settings arrive actions
  have hahead : ∀ p₀, start settings none (.ofSize 0 0) = .ok p₀ →
      (p₀.run actions).Follows (packet 65534) (packet 1) →
        0 < (packet 1).seqno.delta (packet 65534).seqno := fun p₀ hstart =>
    (delivered_in_order settings none (.ofSize 0 0) p₀ hstart).2.1 (by decide) actions _ _
  refine ⟨_, rfl, (and_iff_left_of_imp (hahead _ rfl)).mpr ?_⟩
  refine ⟨[.input (SeqNo.ofNat 65534) false .delivered],
    [.input (SeqNo.ofNat 1) false .held, .evict (SeqNo.ofNat 65535) 2], [], ?_, ?_⟩
  · decide +kernel
  · simp [Event.IsSilent, Event.delivery?]

/-- With a largest lead of 8191, a step from 57344 to 0 is a step back. -/
theorem delivered_backwards :
    let packet := fun n => Packet.ofOctets (SeqNo.ofNat n) [] false
    let settings :=
      { StreamSettings.default with maxLead := 8191, rerequestTicks := [], giveUpTick := 1 }
    ∃ p₀ actions, start settings none (.ofSize 0 0) = .ok p₀ ∧
      (p₀.run actions).Follows (packet 57344) (packet 0) ∧
      (packet 0).seqno.delta (packet 57344).seqno = -57344 := by
  intro packet settings
  obtain ⟨p₀, hstart⟩ : ∃ p₀, start settings none (.ofSize 0 0) = .ok p₀ := ⟨_, rfl⟩
  obtain ⟨actions, hfollows⟩ := exists_follows (a := packet 57344) (b := packet 0) hstart rfl
    (by decide) (by decide)
  exact ⟨p₀, actions, hstart, hfollows, by decide⟩

end AudioIntake.Pipeline
