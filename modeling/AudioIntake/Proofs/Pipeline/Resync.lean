import AudioIntake.Proofs.Pipeline.Window

/-!
# A sender that starts over

A primary packet further ahead than the largest lead shows that its sender has started over. The
worker sees that from `delta`, which is the distance around the circle as long as the jump stays on
one side of the wrap, or lands on the other side with both ends inside the guard band. Any other
jump across the wrap compares as a step back, and its packet is stale.
-/

namespace AudioIntake

/-- A number ahead is compared by its distance: it is on the same side of the wrap, or both numbers
lie in the guard band around it. -/
def SeqNo.Sights (low n : SeqNo) : Prop := low.val ≤ n.val ∨ 57344 < low.val ∧ n.val < 8192

instance (low n : SeqNo) : Decidable (low.Sights n) :=
  inferInstanceAs (Decidable (low.val ≤ n.val ∨ 57344 < low.val ∧ n.val < 8192))

/-- Within half the circle, the numbers in sight are those judged by their distance, and all others
are judged to be behind. -/
theorem SeqNo.delta_of_jump {low n : SeqNo} (hhalf : low.stepsTo n ≤ 32767) :
    (low.Sights n → n.delta low = low.stepsTo n) ∧ (¬low.Sights n → n.delta low < 0) := by
  have hlow := low.val_lt
  have hn := n.val_lt
  have hregions := delta_regions n low
  unfold stepsTo at hhalf ⊢
  unfold Sights
  omega

namespace Sequencer

variable {s t : Sequencer} {r : Report} {p : Packet} {maxLead : Int}

/-- The sequencer starts over from a packet: what was held goes, and the packet is delivered. -/
structure StartsOver (s : Sequencer) (p : Packet) (t : Sequencer) (r : Report) : Prop where
  events_eq : r.events = [.flush, .input p.seqno p.retransmitted .delivered, .output p]
  requests_eq : r.requests = []
  released_eq : r.released = s.held.values
  low?_eq : t.low? = some p.seqno.next
  held_eq : t.held = ∅
  retries_eq : t.retries = ∅
  tally_eq : t.tally =
    { s.tally with
      flushes := s.tally.flushes + 1
      received := s.tally.received + 1
      delivered := s.tally.delivered + 1 }

theorem startsOver_of_beyond (hs : s.Sound) (hprimary : p.retransmitted = false)
    (hbeyond : s.isBeyond maxLead p.seqno = true) :
    StartsOver s p (s.accept maxLead p).1 (s.accept maxLead p).2 := by
  have hopen : s.closed = false := hs.open_of_started (isBeyond_iff.mp hbeyond).1
  have hflushed : s.flush.1.Sound := sound_call hs .flush
  have haccept :
      s.accept maxLead p = ((s.flush.1.handle p).1, s.flush.2 ++ (s.flush.1.handle p).2) := by
    rw [accept, if_pos hbeyond, if_neg (Bool.eq_false_iff.mp hprimary)]
  rw [haccept, handle_of_idle hflushed hopen rfl hprimary]
  exact
    { events_eq := rfl
      requests_eq := rfl
      released_eq := List.append_nil _
      low?_eq := rfl
      held_eq := rfl
      retries_eq := rfl
      tally_eq := rfl }

end Sequencer

namespace Pipeline

variable {p : Pipeline} {packet : Packet} {rest : List Command}

/-- What the worker has done when it has worked a packet off to the end, in the words of what its
sequencer did with it. -/
structure WorkedOff (p : Pipeline) (next : Sequencer) (r : Report) (q : Pipeline) : Prop where
  sequencer_eq : q.sequencer = next
  phase_eq : q.phase = .running
  pending_eq : q.pending = []
  published_eq : q.published = next.stats
  events_eq : q.journal.events = p.journal.events ++ r.events.map fun e => (p.now, e)
  delivered_eq : q.journal.delivered = p.journal.delivered ++ r.delivered.map fun d => (p.now, d)
  pool_eq : q.pool = p.pool.releaseAll (r.delivered ++ r.released)

theorem workedOff_of_packet (hready : p.isReady = true)
    (hitems : p.queue.items = .packet packet :: rest)
    (hquiet : (p.sequencer.accept p.maxLead packet).2.requests = [])
    (hfine : (p.sequencer.accept p.maxLead packet).2.delivered.any p.fails = false) :
    WorkedOff p (p.sequencer.accept p.maxLead packet).1 (p.sequencer.accept p.maxLead packet).2
      (p.act .work) := by
  have hrunning := phase_of_isReady hready
  change WorkedOff p _ _ p.work
  rw [work_of_packet hready hitems hfine, finishIfIdle, if_pos]
  · exact
      { sequencer_eq := rfl
        phase_eq := hrunning
        pending_eq := hquiet
        published_eq := rfl
        events_eq := rfl
        delivered_eq := rfl
        pool_eq := rfl }
  · simp [isReady, completed, letGo, noteDelivered, note, hrunning, hquiet]

/-- Wherever the stream stands in a run with usable settings, a primary packet more than the largest
lead and at most half the circle ahead that is in sight of the delivery point starts the sequencer
over: all that was held is let go, the packet is delivered, and the number behind it is due. The
worker does so with the packet at the head of its queue, unless its consumer fails on it. Out of
sight, beyond a wrap that the guard band does not reach across, the packet is stale and nothing else
changes. -/
theorem jump_starts_over (settings : StreamSettings) (failsOn : Option SeqNo) (pool : Pool)
    (p₀ : Pipeline) (hstart : start settings failsOn pool = .ok p₀) (actions : List Action)
    (low : SeqNo) (hlow : (p₀.run actions).sequencer.low? = some low) (packet : Packet)
    (hprimary : packet.retransmitted = false)
    (hjump : settings.maxLead.toInt < low.stepsTo packet.seqno)
    (hhalf : low.stepsTo packet.seqno ≤ 32767) :
    let p := p₀.run actions
    let admitted := p.sequencer.accept p.maxLead packet
    (low.Sights packet.seqno →
      p.sequencer.StartsOver packet admitted.1 admitted.2 ∧
      ∀ rest, p.isReady = true → p.queue.items = .packet packet :: rest → p.fails packet = false →
        p.WorkedOff admitted.1 admitted.2 (p.act .work)) ∧
    (¬low.Sights packet.seqno →
      admitted =
        ({ p.sequencer with
            tally :=
              { p.sequencer.tally with
                received := p.sequencer.tally.received + 1
                stale := p.sequencer.tally.stale + 1 } },
          Sequencer.refusal packet .stale)) := by
  intro p admitted
  have hwindow : Windowed p settings.maxLead.toInt := windowed_run (fresh_start hstart) actions
  obtain ⟨hstarted, rfl⟩ := Sequencer.low?_eq_some.mp hlow
  obtain ⟨hsees, hmisses⟩ := SeqNo.delta_of_jump hhalf
  constructor
  · intro hsight
    have hbeyond : p.sequencer.isBeyond p.maxLead packet.seqno = true := by
      refine Sequencer.isBeyond_iff.mpr ⟨hstarted, ?_⟩
      rw [hwindow.maxLead_eq, hsees hsight]
      exact hjump
    have hover := Sequencer.startsOver_of_beyond hwindow.sound hprimary hbeyond
    refine ⟨hover, fun rest hready hitems hfine => ?_⟩
    refine workedOff_of_packet hready hitems hover.requests_eq ?_
    rw [Report.delivered, hover.events_eq]
    simp [Event.delivery?, hfine]
  · intro hblind
    have hbehind := hmisses hblind
    have hpos := (fresh_start hstart).maxLead_pos
    have haccept : admitted = p.sequencer.handle packet := by
      refine Sequencer.accept_of_near fun _ => ?_
      rw [hwindow.maxLead_eq]
      change packet.seqno.delta p.sequencer.low < 0 at hbehind
      omega
    rw [haccept]
    exact Sequencer.handle_of_behind hwindow.sound hstarted hbehind

/-- A jump across the wrap inside the guard band, with a packet held in front of the wrap. -/
theorem jump_starts_over_across_wrap :
    let packet := fun n => Packet.ofOctets (SeqNo.ofNat n) [] false
    let arrive := fun n => [Action.submit (.packet (packet n)), .work]
    let actions := [65000, 65003].flatMap arrive ++ [.submit (.packet (packet 3000))]
    ∃ p₀, start .default none (.ofSize 0 0) = .ok p₀ ∧
      (p₀.run actions).sequencer.low? = some (SeqNo.ofNat 65001) ∧
      (p₀.run actions).sequencer.held.values = [packet 65003] ∧
      (p₀.run actions).sequencer.StartsOver (packet 3000)
        ((p₀.run actions).sequencer.accept (p₀.run actions).maxLead (packet 3000)).1
        ((p₀.run actions).sequencer.accept (p₀.run actions).maxLead (packet 3000)).2 ∧
      ((p₀.run actions).act .work).sequencer =
        ((p₀.run actions).sequencer.accept (p₀.run actions).maxLead (packet 3000)).1 := by
  intro packet arrive actions
  have hover : ∀ p₀, start .default none (.ofSize 0 0) = .ok p₀ →
      (p₀.run actions).sequencer.low? = some (SeqNo.ofNat 65001) →
        _ := fun p₀ hstart hlow =>
    (jump_starts_over .default none (.ofSize 0 0) p₀ hstart actions (SeqNo.ofNat 65001) hlow
      (packet 3000) rfl (by decide) (by decide)).1 (by decide)
  have hqueued : ∀ p₀ : Pipeline,
      let q := p₀.run ([65000, 65003].flatMap arrive)
      q.queue.isOpen = true → q.queue.hasRoom = true → q.queue.items.length = 0 →
        (p₀.run actions).queue.items = [.packet (packet 3000)] := by
    intro p₀ q hopen hroom hempty
    change (q.submit (.packet (packet 3000))).queue.items = _
    rw [submit_of_room hopen hroom, Queue.push, List.length_eq_zero_iff.mp hempty]
    rfl
  refine ⟨_, rfl, by decide +kernel, by decide +kernel, (hover _ rfl (by decide +kernel)).1, ?_⟩
  refine
    ((hover _ rfl (by decide +kernel)).2 [] (by decide +kernel) ?_ (by decide +kernel)).sequencer_eq
  exact hqueued _ (by decide +kernel) (by decide +kernel) (by decide +kernel)

/-- From 60001 to 14464 it is less than a third of the circle, but the wrap lies between them. The
packet is taken for a late one, and 60001 stays due. -/
theorem jump_missed_across_wrap :
    let packet := fun n => Packet.ofOctets (SeqNo.ofNat n) [] false
    let arrive := fun n => [Action.submit (.packet (packet n)), .work]
    ∃ p₀, start .default none (.ofSize 0 0) = .ok p₀ ∧
      (p₀.run (arrive 60000)).sequencer.low? = some (SeqNo.ofNat 60001) ∧
      StreamSettings.default.maxLead.toInt < (SeqNo.ofNat 60001).stepsTo (SeqNo.ofNat 14464) ∧
      (SeqNo.ofNat 60001).stepsTo (SeqNo.ofNat 14464) ≤ 32767 ∧
      (p₀.run (arrive 60000 ++ arrive 14464)).sequencer.low? = some (SeqNo.ofNat 60001) ∧
      (p₀.run (arrive 60000 ++ arrive 14464)).sequencer.tally.flushes = 0 ∧
      (p₀.run (arrive 60000 ++ arrive 14464)).sequencer.tally.stale = 1 := by
  intro packet arrive
  exact ⟨_, rfl, by decide +kernel, by decide, by decide, by decide +kernel, by decide +kernel,
    by decide +kernel⟩

end Pipeline

end AudioIntake
