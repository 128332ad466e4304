import AudioIntake.Proofs.Sequencer.RetryLadder
import AudioIntake.Proofs.Sequencer.Turns
import Mathlib.Data.Nat.Find

/-!
# The nearest gap

The numbers missing from the delivery point up to the first held packet make the nearest run of every
tick. Its level is one more than the counter of the delivery point, and no other run of the tick has
one of its numbers. So what a tick reports of the nearest gap hangs on that counter alone: it is asked
for as a whole on a rung of the ladder, given up as a whole at its end, and else passed over.
-/

namespace AudioIntake

/-- The event asks for the number or gives it up. -/
def Event.concerns (n : SeqNo) : Event → Bool
  | rerequest request _ => n ∈ request.seqnos
  | evict first count => n ∈ (List.range count).map (first + ·)
  | _ => false

/-- What is reported of a gap that has been open for so many ticks. -/
def Ladder.verdict (ladder : Ladder) (first : SeqNo) (count level : Nat) : List Event :=
  if ladder.giveUpAt ≤ level then [.evict first count]
  else if level ∈ ladder.rerequestAt then
    [.rerequest { first, count := UInt16.ofNat count } level]
  else []

namespace Sequencer

variable {s t : Sequencer} {r : Report} {p : Packet} {n : SeqNo} {gap : Nat} {maxLead : Int}
  {run : Run} {runs : List Run}

theorem filter_concerns_output (n : SeqNo) (ps : List Packet) :
    (ps.map Event.output).filter (Event.concerns n) = [] := by
  simp [List.filter_eq_nil_iff, Event.concerns]

/-- What a run is worked off to concerns the members of the run, and no other number. -/
theorem filter_concerns_escalate (hcount : run.count < 65536) :
    (s.escalate run).2.events.filter (Event.concerns n) =
      if n ∈ run.seqnos then s.ladder.verdict run.first run.count run.level else [] := by
  have hevict : ∀ ps : List Packet,
      (Event.evict run.first run.count :: ps.map .output).filter (Event.concerns n) =
        if n ∈ run.seqnos then [.evict run.first run.count] else [] := by
    intro ps
    rw [List.filter_cons, filter_concerns_output, Event.concerns, Run.seqnos]
    simp only [decide_eq_true_eq]
  rw [escalate, Ladder.verdict]
  by_cases hgive : s.ladder.giveUpAt ≤ run.level
  · rw [if_pos hgive, if_pos hgive, evict]
    dsimp only
    split
    · exact hevict _
    · exact hevict []
  · rw [if_neg hgive, if_neg hgive]
    by_cases hrung : run.level ∈ s.ladder.rerequestAt
    · rw [if_pos hrung, if_pos hrung]
      dsimp only
      rw [List.filter_cons, Event.concerns, Run.seqnos_request hcount]
      simp only [decide_eq_true_eq]
      rfl
    · rw [if_neg hrung, if_neg hrung, ite_self]
      rfl

theorem filter_concerns_escalateAll (hruns : ∀ run ∈ runs, run.count < 65536 ∧ n ∉ run.seqnos) :
    (s.escalateAll runs).2.events.filter (Event.concerns n) = [] := by
  induction runs generalizing s with
  | nil => rfl
  | cons run runs ih =>
      obtain ⟨⟨hcount, hnot⟩, hrest⟩ := List.forall_mem_cons.mp hruns
      rw [escalateAll_cons, Report.append_events, List.filter_append,
        filter_concerns_escalate hcount, if_neg hnot, ih hrest]
      rfl

/-! ### Packets concern no number -/

theorem Placed.filter_concerns (h : Placed s p t r) : r.events.filter (Event.concerns n) = [] := by
  cases h with
  | delivered => exact filter_concerns_output n _
  | _ => rfl

theorem Handled.filter_concerns (h : Handled s p t r) : r.events.filter (Event.concerns n) = [] := by
  cases h with
  | placed _ _ hplaced => exact hplaced.filter_concerns
  | _ => rfl

theorem filter_concerns_accept (hs : s.Sound) (maxLead : Int) (p : Packet) (n : SeqNo) :
    (s.accept maxLead p).2.events.filter (Event.concerns n) = [] := by
  have hadmitted := s.admitted_accept maxLead p
  generalize (s.accept maxLead p).1 = t at hadmitted
  generalize (s.accept maxLead p).2 = r at hadmitted ⊢
  cases hadmitted with
  | discarded =>
      rw [discard]
      split <;> rfl
  | flushed =>
      rw [Report.append_events, List.filter_append]
      exact (handled_handle (sound_call hs .flush) p).filter_concerns
  | handled => exact (handled_handle hs p).filter_concerns

/-- What a packet makes missing on an empty sequencer has not been counted yet. -/
theorem counter_accept_of_held_empty (hs : s.Sound) (hempty : s.held = ∅)
    (hn : (s.accept maxLead p).1.Lacks n) : (s.accept maxLead p).1.counter n = 0 := by
  have hnone : ∀ {t : Sequencer}, t.Sound → t.held = ∅ → t.counter n = 0 := fun ht hheld =>
    ht.counter_eq_zero (not_lacks_of_held_empty hheld)
  have hadmitted := s.admitted_accept maxLead p
  generalize (s.accept maxLead p).1 = t at hadmitted hn ⊢
  generalize (s.accept maxLead p).2 = r at hadmitted
  cases hadmitted with
  | discarded =>
      obtain ⟨tally, hstate⟩ := s.discard_state p
      rw [hstate]
      change s.counter n = 0
      exact hnone hs hempty
  | flushed =>
      have hflushed : s.flush.1.Sound := sound_call hs .flush
      rw [(handled_handle hflushed p).counter_eq hflushed hn]
      exact hnone hflushed rfl
  | handled =>
      rw [(handled_handle hs p).counter_eq hs hn]
      exact hnone hs hempty

theorem ladder_accept (hs : s.Sound) (maxLead : Int) (p : Packet) :
    (s.accept maxLead p).1.ladder = s.ladder := by
  have hadmitted := s.admitted_accept maxLead p
  generalize (s.accept maxLead p).1 = t at hadmitted ⊢
  generalize (s.accept maxLead p).2 = r at hadmitted
  cases hadmitted with
  | discarded => exact ladder_call hs (.discard p)
  | flushed => exact ladder_call (sound_call hs .flush) (.handle p)
  | handled => exact ladder_call hs (.handle p)

theorem sound_tick (hs : s.Sound) : s.tick.1.Sound := sound_call hs .tick

theorem ladder_tick (hs : s.Sound) : s.tick.1.ladder = s.ladder := ladder_call hs .tick

theorem ladder_turn (hs : s.Sound) (maxLead : Int) (turn : Turn) :
    (s.turn maxLead turn).1.ladder = s.ladder := by
  cases turn with
  | packet p => exact ladder_accept hs maxLead p
  | flush => rfl
  | tick => exact ladder_tick hs

/-! ### The gap in front of the first held packet -/

/-- So many numbers from the delivery point on are missing, and the one behind them is held. -/
structure Faces (s : Sequencer) (gap : Nat) : Prop where
  gap_lt : gap < 65536
  free : ∀ i < gap, s.low + i ∉ s.held
  stop : s.low + gap ∈ s.held

namespace Faces

theorem lacks (h : s.Faces gap) {i : Nat} (hi : i < gap) : s.Lacks (s.low + i) := by
  have hlt := h.gap_lt
  refine ⟨h.free i hi, _, h.stop, ?_⟩
  rw [SeqNo.stepsTo_add _ (by omega), SeqNo.stepsTo_add _ hlt]
  exact hi

theorem started (h : s.Faces gap) (hs : s.Sound) : s.started = true :=
  hs.started_of_held h.stop

theorem gap_pos (h : s.Faces gap) (hs : s.Sound) : 0 < gap := by
  by_contra hzero
  obtain rfl : gap = 0 := by omega
  exact hs.low_not_mem (SeqNo.add_zero s.low ▸ h.stop)

/-- Everything in the gap has been missing for as long as the delivery point. -/
theorem counter_eq (h : s.Faces gap) (hs : s.Sound) {i : Nat} (hi : i < gap) :
    s.counter (s.low + i) = s.counter s.low := by
  induction i with
  | zero => rw [SeqNo.add_zero]
  | succ i ih =>
      have hneighbour : s.low + (i + 1) = (s.low + i).next := (SeqNo.add_add _ _ _).symm
      have hnext := h.lacks hi
      rw [hneighbour] at hnext ⊢
      rw [hs.counter_next (h.lacks (Nat.lt_of_succ_lt hi)) hnext]
      exact ih (Nat.lt_of_succ_lt hi)

/-- The gap is the first run that a tick works off. -/
theorem runs_eq (h : s.Faces gap) (hs : s.Sound) :
    ∃ rest, s.age.runs = { first := s.low, count := gap, level := s.counter s.low + 1 } :: rest ∧
      Tiled s.age gap rest := by
  have hage := sound_age hs
  have htiled := tiled_runs hage
  have hlow : s.Lacks (s.low + 0) := h.lacks (h.gap_pos hs)
  obtain ⟨⟨first, count, level⟩, rest, hruns, -⟩ := htiled.head_of_lacks (by decide) hlow
  rw [hruns] at htiled ⊢
  obtain ⟨rfl, -, hfree, hstop, htail⟩ := htiled.head hage
  have hgap := htiled.isGap (Or.inl rfl) _ List.mem_cons_self
  have hlevel : s.age.counter s.low = level := hgap.counter_eq _ hgap.first_mem
  obtain rfl : count = gap := by
    rcases Nat.lt_trichotomy count gap with hlt | heq | hlt
    · exact absurd hstop (h.free count hlt)
    · exact heq
    · exact absurd h.stop (hfree gap hlt)
  rw [SeqNo.add_zero] at hlow
  rw [counter_age hs hlow] at hlevel
  subst hlevel
  exact ⟨rest, rfl, htail⟩

/-- What a tick reports of the gap is the ladder's verdict on it. -/
theorem filter_concerns_tick (h : s.Faces gap) (hs : s.Sound) {i : Nat} (hi : i < gap) :
    s.tick.2.events.filter (Event.concerns (s.low + i)) =
      s.ladder.verdict s.low gap (s.counter s.low + 1) := by
  have hlt := h.gap_lt
  obtain ⟨rest, hruns, htail⟩ := h.runs_eq hs
  have hmem : s.low + i ∈ Run.seqnos { first := s.low, count := gap, level := s.counter s.low + 1 } :=
    Run.mem_seqnos.mpr ⟨i, hi, rfl⟩
  have hrest : ∀ run ∈ rest, run.count < 65536 ∧ s.low + i ∉ run.seqnos := by
    intro run hrun
    refine ⟨(isGap_runs_age hs run (hruns ▸ List.mem_cons_of_mem _ hrun)).count_lt, fun hn => ?_⟩
    have hfar := htail.le_steps run hrun
    have hsteps := (htail.steps_of_mem run hrun _ hn).1
    change s.low.stepsTo run.first ≤ s.low.stepsTo (s.low + i) at hsteps
    change gap ≤ s.low.stepsTo run.first at hfar
    rw [SeqNo.stepsTo_add _ (by omega)] at hsteps
    omega
  rw [tick_eq hs, hruns, escalateAll_cons, Report.append_events, List.filter_append,
    filter_concerns_escalate hlt, if_pos hmem, filter_concerns_escalateAll hrest, List.append_nil]
  rfl

/-- Below the end of the ladder a tick takes the gap one level up and leaves it where it is. -/
theorem tick_of_lt (h : s.Faces gap) (hs : s.Sound)
    (hlt : s.counter s.low + 1 < s.ladder.giveUpAt) :
    s.tick.1.Faces gap ∧ s.tick.1.low = s.low ∧ s.tick.1.held = s.held ∧
      s.tick.1.counter s.low = s.counter s.low + 1 ∧ s.tick.2.delivered = [] := by
  have hlow : s.Lacks s.low := SeqNo.add_zero s.low ▸ h.lacks (h.gap_pos hs)
  obtain ⟨rest, hruns, -⟩ := h.runs_eq hs
  have hlevels : ∀ run ∈ s.age.runs, run.level < s.age.ladder.giveUpAt := by
    have htiled := tiled_runs (sound_age hs)
    rw [hruns] at htiled ⊢
    exact htiled.level_lt (sound_age hs) hlt
  obtain ⟨asked, hstate, -, hdelivered⟩ := escalateAll_of_lt hlevels
  rw [tick_eq hs, hstate]
  exact ⟨⟨h.gap_lt, h.free, h.stop⟩, rfl, rfl, counter_age hs hlow, hdelivered⟩

/-- At the end of the ladder a tick leaves neither the gap nor the packet behind it. -/
theorem tick_of_le (h : s.Faces gap) (hs : s.Sound)
    (hend : s.ladder.giveUpAt ≤ s.counter s.low + 1) :
    (∀ i < gap, ¬s.tick.1.Lacks (s.low + i)) ∧ s.low + gap ∉ s.tick.1.held := by
  have hlt := h.gap_lt
  obtain ⟨n, hsweep, hn⟩ := sweeps_tick hs
  change Sweeps s.age _ _ _ at hsweep
  have hlow : s.age.low = s.low := rfl
  have hpassed : ∀ i < gap, i < n := by
    intro i hi
    have hpast := (hn _ (h.lacks hi)).mpr (by rw [h.counter_eq hs hi]; exact hend)
    rwa [SeqNo.stepsTo_add _ (by omega)] at hpast
  refine ⟨fun i hi hlacks => ?_, fun hmem => ?_⟩
  · have hle := (hsweep.lacks_iff.mp hlacks).2
    have hpast := hpassed i hi
    rw [hlow, SeqNo.stepsTo_add _ (by omega)] at hle
    omega
  · -- The sweep would have ended right at the packet, which it delivers.
    have hle := (hsweep.mem_held.mp hmem).2
    rw [hlow, SeqNo.stepsTo_add _ hlt] at hle
    have hpos := h.gap_pos hs
    have hlast := hpassed (gap - 1) (by omega)
    obtain rfl : n = gap := by omega
    have hdue := hsweep.due
    rw [hsweep.low_eq] at hdue
    exact hdue hmem

/-- Giving up the gap is the first thing that such a tick does. -/
theorem events_tick_of_le (h : s.Faces gap) (hs : s.Sound)
    (hend : s.ladder.giveUpAt ≤ s.counter s.low + 1) :
    ∃ events, s.tick.2.events = .evict s.low gap :: events := by
  obtain ⟨rest, hruns, -⟩ := h.runs_eq hs
  have hfirst : (Run.mk s.low gap (s.counter s.low + 1)).first = s.age.low := rfl
  obtain ⟨t, ps, hevict, -⟩ := evict_head hfirst
  rw [tick_eq hs, hruns, escalateAll_cons, Report.append_events, escalate_of_le hend, hevict]
  exact ⟨_, rfl⟩

/-- Other packets leave the gap as it is, unless they make the stream start over. -/
theorem accept (h : s.Faces gap) (hs : s.Sound) (hout : ∀ i < gap, p.seqno ≠ s.low + i)
    (hnear : s.isBeyond maxLead p.seqno = true → p.retransmitted = true) :
    (s.accept maxLead p).1.Faces gap ∧ (s.accept maxLead p).1.low = s.low ∧
      (s.accept maxLead p).1.counter s.low = s.counter s.low ∧
      (s.accept maxLead p).2.delivered = [] := by
  have hlow : s.low ≠ p.seqno := fun heq =>
    hout 0 (h.gap_pos hs) (heq ▸ (SeqNo.add_zero s.low).symm)
  have hlacks : s.Lacks s.low := SeqNo.add_zero s.low ▸ h.lacks (h.gap_pos hs)
  have hadmitted := s.admitted_accept maxLead p
  generalize (s.accept maxLead p).1 = t at hadmitted ⊢
  generalize (s.accept maxLead p).2 = r at hadmitted ⊢
  cases hadmitted with
  | discarded =>
      rw [discard, if_neg (by rw [hs.open_of_started (h.started hs)]; decide)]
      exact ⟨⟨h.gap_lt, h.free, h.stop⟩, rfl, rfl, rfl⟩
  | flushed hbeyond hprimary =>
      exact absurd ((hnear hbeyond).symm.trans hprimary) (by decide)
  | handled =>
      have hhandled := handled_handle hs p
      have hlacks' : (s.handle p).1.Lacks s.low := hhandled.still_lacks hs hlacks hlow.symm
      have hcounter := hhandled.counter_eq hs hlacks'
      have hplaced := hhandled.of_lacks hs hlacks
      generalize (s.handle p).1 = t at hplaced hcounter ⊢
      generalize (s.handle p).2 = r at hplaced ⊢
      cases hplaced with
      | delivered heq => exact absurd heq.symm hlow
      | stale => exact ⟨⟨h.gap_lt, h.free, h.stop⟩, rfl, hcounter, rfl⟩
      | duplicate => exact ⟨⟨h.gap_lt, h.free, h.stop⟩, rfl, hcounter, rfl⟩
      | held =>
          refine ⟨⟨h.gap_lt, fun i hi hmem => ?_, Placed.mem_hold.mpr (Or.inr h.stop)⟩, rfl,
            hcounter, rfl⟩
          rcases Placed.mem_hold.mp hmem with heq | hmem
          · exact hout i hi heq
          · exact h.free i hi hmem

end Faces

/-- While something is held, a gap is in front of the first of it. -/
theorem exists_faces (h : s.inRecovery = true) : ∃ gap, s.Faces gap := by
  obtain ⟨k, hk⟩ := inRecovery_iff.mp h
  have hexists : ∃ o, s.low + o ∈ s.held := ⟨s.low.stepsTo k, by rwa [SeqNo.add_stepsTo]⟩
  refine ⟨Nat.find hexists, ?_, fun i hi => Nat.find_min hexists hi, Nat.find_spec hexists⟩
  calc
    Nat.find hexists ≤ s.low.stepsTo k := Nat.find_min' hexists (by rwa [SeqNo.add_stepsTo])
    _ < 65536 := s.low.stepsTo_lt k

end Sequencer

end AudioIntake
