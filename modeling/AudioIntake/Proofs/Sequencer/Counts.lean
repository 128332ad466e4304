import AudioIntake.Proofs.Sequencer.Custody
import AudioIntake.Proofs.Sequencer.Walk

/-!
# How far the counts go

The counts of a sequencer are kept in words of 64 bits. A packet adds to two of them, and it can be
delivered later on or turned away but not both; a tick asks for no more runs and gives up no more
numbers than the window has room for. So the counts and the packets held grow together by less than
2^17 in a turn, and what wraps at 2^64 has not wrapped before 2^47 turns.
-/

namespace AudioIntake

/-- The counts that do not come of packets: asking, giving up and starting over. -/
def Tally.spent (t : Tally) : Nat :=
  t.rerequests + t.evictedGaps + t.evictedPackets + t.flushes

/-- All the counts together. What bounds this bounds each of them. -/
def Stats.total (s : Stats) : Nat :=
  s.received + s.delivered + s.stale + s.duplicates + s.notStarted + s.toTally.spent + s.held

namespace Sequencer

variable {s t : Sequencer} {r : Report} {p : Packet} {handed dropped late : List Packet}

/-- A packet that is handed in adds to two counts, since one is as good as held. -/
theorem Disposes.total_le (h : Disposes s t r handed dropped late) :
    t.stats.total + s.tally.spent ≤ s.stats.total + 2 * handed.length + t.tally.spent := by
  have hcustody := h.custody.length_eq
  have hreceived := h.received_eq
  obtain ⟨refused, hreleased, htags⟩ := h.released_perm
  have hlength := hreleased.length_eq
  have hrefused : refused.length = (Tally.ofEvents r.events).stale +
      (Tally.ofEvents r.events).duplicates + (Tally.ofEvents r.events).notStarted := by
    rw [← Tally.length_refused, ← htags, List.length_map]
  have hdelivered : r.delivered.length = (Tally.ofEvents r.events).delivered := by
    rw [Report.delivered, List.length_filterMap_eq_countP]
    rfl
  simp only [List.length_append, Tables.length_values] at hcustody hlength
  simp only [stats, Stats.total, Tally.spent, h.tally_eq, Tally.add_def]
  omega

/-! ### What asking and giving up come to -/

theorem Drained.spent_eq {ps : List Packet} (h : Drained s t ps) :
    t.tally.spent = s.tally.spent := by
  rw [h.tally_eq]
  rfl

theorem Handled.spent_eq (h : Handled s p t r) : t.tally.spent = s.tally.spent := by
  cases h with
  | closed => rfl
  | notStarted => rfl
  | placed _ _ hplaced =>
      have hstart : (s.countReceived.start p.seqno).tally.spent = s.tally.spent := by
        rw [start]
        split <;> rfl
      rw [← hstart]
      cases hplaced with
      | delivered _ hdrained => exact hdrained.spent_eq
      | stale => rfl
      | duplicate => rfl
      | held => rfl

theorem spent_discard (s : Sequencer) (p : Packet) :
    (s.discard p).1.tally.spent = s.tally.spent := by
  rw [discard]
  split <;> rfl

theorem spent_flush (s : Sequencer) : s.flush.1.tally.spent = s.tally.spent + 1 := rfl

theorem spent_evict (s : Sequencer) (run : Run) :
    (s.evict run).1.tally.spent = s.tally.spent + (run.count + 1) := by
  have hgiven : ∀ tally : Tally,
      { tally with
        evictedGaps := tally.evictedGaps + 1
        evictedPackets := tally.evictedPackets + run.count }.spent =
          tally.spent + (run.count + 1) := by
    intro tally
    simp only [Tally.spent]
    omega
  rw [evict]
  dsimp only
  split
  · exact (drained_drain _).spent_eq.trans (hgiven s.tally)
  · exact hgiven s.tally

theorem spent_escalate_le (s : Sequencer) (run : Run) :
    (s.escalate run).1.tally.spent ≤ s.tally.spent + (run.count + 1) := by
  rw [escalate]
  split
  · exact Nat.le_of_eq (s.spent_evict run)
  · split
    · simp only [Tally.spent]
      omega
    · exact Nat.le_add_right _ _

/-- A run has a member, so that what it comes to itself is no more than they do. -/
theorem spent_escalateAll_le {runs : List Run} (hpos : ∀ run ∈ runs, 0 < run.count)
    (s : Sequencer) :
    (s.escalateAll runs).1.tally.spent ≤ s.tally.spent + 2 * (runs.map Run.count).sum := by
  induction runs generalizing s with
  | nil => exact Nat.le_refl _
  | cons run runs ih =>
      have hrun := hpos run List.mem_cons_self
      have hfirst := s.spent_escalate_le run
      have hrest := ih (fun other hother => hpos other (List.mem_cons_of_mem run hother))
        (s.escalate run).1
      rw [escalateAll_cons, List.map_cons, List.sum_cons]
      dsimp only
      omega

/-- The runs of a tick lie apart in the window. -/
theorem sum_count_runs_le (hs : s.Sound) : (s.age.runs.map Run.count).sum ≤ 57344 := by
  by_cases hheld : ∃ n, n ∈ s.held
  · obtain ⟨n, hn⟩ := hheld
    have hspan := span_le hs.toOrdered
    have hlength := (covers_window hs hn).length_eq
    have hpos : 0 < s.held.keys.length := List.length_pos_of_mem (Std.ExtTreeMap.mem_keys.mpr hn)
    have hcounts : (s.age.runs.flatMap Run.seqnos).length = (s.age.runs.map Run.count).sum := by
      simp only [List.length_flatMap, Run.seqnos, List.length_map, List.length_range]
    rw [List.length_append, hcounts, List.length_map, List.length_range] at hlength
    omega
  · have hempty := Std.ExtTreeMap.eq_empty_iff_forall_not_mem.mpr (not_exists.mp hheld)
    rw [age_of_held_empty hempty, runs, window_of_held_empty hempty]
    exact Nat.zero_le _

theorem spent_tick_le (hs : s.Sound) : s.tick.1.tally.spent ≤ s.tally.spent + 114688 := by
  have hcounts := sum_count_runs_le hs
  have hspent := spent_escalateAll_le (fun run hrun => (isGap_runs_age hs run hrun).count_pos) s.age
  have hage : s.age.tally.spent = s.tally.spent := rfl
  rw [tick_eq hs]
  omega

/-! ### Turns and calls -/

/-- What a turn adds to the counts at most. -/
def perTurn : Nat := 114690

theorem total_turn_le (hs : s.Sound) (maxLead : Int) (turn : Turn) :
    (s.turn maxLead turn).1.stats.total ≤ s.stats.total + perTurn := by
  obtain ⟨dropped, late, hdisposes⟩ := s.disposes_turn maxLead turn
  have htotal := hdisposes.total_le
  have hgrown : 2 * turn.packets.length + (s.turn maxLead turn).1.tally.spent ≤
      s.tally.spent + perTurn := by
    cases turn with
    | packet p =>
        have hadmitted := s.admitted_accept maxLead p
        change 2 + (s.accept maxLead p).1.tally.spent ≤ s.tally.spent + perTurn
        generalize (s.accept maxLead p).1 = t at hadmitted ⊢
        generalize (s.accept maxLead p).2 = r at hadmitted
        rw [perTurn]
        cases hadmitted with
        | discarded =>
            rw [spent_discard]
            omega
        | flushed =>
            have hflushed : (s.flush.1.handle p).1.tally.spent = s.tally.spent + 1 :=
              (handled_handle (sound_call hs .flush) p).spent_eq.trans s.spent_flush
            omega
        | handled =>
            rw [(handled_handle hs p).spent_eq]
            omega
    | flush =>
        change 2 * 0 + (s.tally.spent + 1) ≤ s.tally.spent + perTurn
        rw [perTurn]
        omega
    | tick =>
        have hspent := spent_tick_le hs
        change 2 * 0 + s.tick.1.tally.spent ≤ s.tally.spent + perTurn
        rw [perTurn]
        omega
  omega

end Sequencer

end AudioIntake
