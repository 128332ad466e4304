import AudioIntake.Proofs.Sequencer.Counts
import AudioIntake.Proofs.Session.Loops

/-!
# How far the counts of a session go

The worker takes one turn in an action at most, and publishes what its sequencer has counted. Fewer
than 2^47 actions do not take a count to the end of a 64 bit word, and a millisecond apart those are
more than four thousand years of them.
-/

namespace AudioIntake

namespace Sequencer

theorem total_forget_le (s : Sequencer) : s.forget.stats.total ≤ s.stats.total := by
  have hempty : (∅ : Std.ExtTreeMap SeqNo Packet).size = 0 := Std.ExtTreeMap.size_empty
  simp only [Stats.total, stats, forget, hempty]
  omega

end Sequencer

namespace Pipeline

variable {p q : Pipeline} {n : Nat}

/-- The counts of the worker, and those that it has published, come to no more than `n`. -/
structure Counted (n : Nat) (p : Pipeline) : Prop where
  sound : p.sequencer.Sound
  total_le : p.sequencer.stats.total ≤ n
  published_le : p.published.total ≤ n

theorem published_finishIfIdle (p : Pipeline) :
    p.finishIfIdle.published = p.published ∨
      p.finishIfIdle.published = p.finishIfIdle.sequencer.stats := by
  rw [finishIfIdle]
  split
  · exact .inr rfl
  · exact .inl rfl

theorem published_act (p : Pipeline) (a : Action) :
    (p.act a).published = p.published ∨ (p.act a).published = (p.act a).sequencer.stats := by
  have habsorbed : ∀ u : Pipeline, u.published = p.published → ∀ next r,
      let q := (u.absorb next r).finishIfIdle
      q.published = p.published ∨ q.published = q.sequencer.stats := by
    intro u hu next r q
    have hsame : (u.absorb next r).published = u.published := by
      rw [absorb]
      split <;> rfl
    rw [← hu, ← hsame]
    exact published_finishIfIdle _
  have hmoved := p.moved_act a
  generalize p.act a = q at hmoved ⊢
  cases hmoved with
  | worked | ticked =>
      apply habsorbed
      rfl
  | dropped | offered => exact published_finishIfIdle _
  | stopped => exact .inr rfl
  | idle | refused | queued | transmitted | elapsed => exact .inl rfl

/-- What the worker counts grows by a turn at most. -/
theorem counted_acted {a : Action} (h : Counted n p) (hacted : Acted p a q) :
    q.sequencer.Sound ∧ q.sequencer.stats.total ≤ n + Sequencer.perTurn := by
  have htotal := h.total_le
  have hturned : ∀ turn,
      (p.next turn).Sound ∧ (p.next turn).stats.total ≤ n + Sequencer.perTurn := by
    intro turn
    refine ⟨Sequencer.sound_turn h.sound p.maxLead turn, ?_⟩
    have hgrown := Sequencer.total_turn_le h.sound p.maxLead turn
    rw [next]
    omega
  cases hacted with
  | idle _ h' | offered _ _ _ h' | transmitted _ _ h' =>
      rw [h'.sequencer_eq]
      exact ⟨h.sound, Nat.le_add_right_of_le htotal⟩
  | @turned turn _ _ _ h' =>
      rw [h'.sequencer_eq]
      exact hturned turn
  | @failed turn _ _ _ h' =>
      rw [h'.sequencer_eq]
      exact ⟨Sequencer.sound_forget _ _ _,
        Nat.le_trans (p.next turn).total_forget_le (hturned turn).2⟩
  | stopped _ _ h' =>
      rw [h'.sequencer_eq]
      exact ⟨Sequencer.sound_forget _ _ _,
        Nat.le_add_right_of_le (Nat.le_trans p.sequencer.total_forget_le htotal)⟩

theorem counted_act (h : Counted n p) (a : Action) :
    Counted (n + Sequencer.perTurn) (p.act a) := by
  obtain ⟨hsound, htotal⟩ := counted_acted h (p.acted_act a)
  refine ⟨hsound, htotal, ?_⟩
  rcases p.published_act a with hsame | hnew
  · rw [hsame]
    exact Nat.le_add_right_of_le h.published_le
  · rw [hnew]
    exact htotal

end Pipeline

namespace Session

variable {α : Type} {s : Session α} {n : Nat}

theorem counted_run (h : s.pipeline.Counted n) (actions : List (Action α)) :
    (s.run actions).pipeline.Counted (n + Sequencer.perTurn * actions.length) := by
  induction actions generalizing s n with
  | nil => exact h
  | cons a actions ih =>
      have hacted : (s.act a).pipeline.Counted (n + Sequencer.perTurn) := by
        have hled := s.leads_act a
        generalize (s.act a).pipeline = q at hled ⊢
        cases hled with
        | pooled =>
            refine ⟨h.sound, Nat.le_add_right_of_le h.total_le, ?_⟩
            exact Nat.le_add_right_of_le h.published_le
        | acted b =>
            have hown := Pipeline.counted_act h b
            exact ⟨hown.sound, hown.total_le, hown.published_le⟩
      have hrest := ih hacted
      rwa [Nat.add_assoc, ← Nat.add_comm (Sequencer.perTurn * _), ← Nat.mul_succ] at hrest

/-- In fewer than 2^47 actions no count of a session outgrows its word. -/
theorem counts_fit {settings : StreamSettings} {maxIdle : Nat} {peer : Option α}
    {port : Option Channel} {failsOn : Option SeqNo}
    (h : start settings maxIdle peer port failsOn = .ok s) {actions : List (Action α)}
    (hlength : actions.length < 2 ^ 47) :
    (s.run actions).pipeline.sequencer.stats.total < UInt64.size ∧
      (s.run actions).pipeline.published.total < UInt64.size := by
  have hcounted : s.pipeline.Counted 0 := by
    obtain ⟨p, hp, rfl⟩ := start_eq h
    obtain ⟨-, -, -, rfl⟩ := Pipeline.start_eq hp
    have hnone : settings.sequencer.stats.total = 0 := by
      simp only [Stats.total, Sequencer.stats, StreamSettings.sequencer, Sequencer.ofLadder,
        Tally.spent, Tally.zero, Std.ExtTreeMap.size_empty]
    exact ⟨Sequencer.sound_ofLadder _, Nat.le_of_eq hnone, Nat.le_of_eq hnone⟩
  have hrun := counted_run hcounted actions
  have htotal := hrun.total_le
  have hpublished := hrun.published_le
  rw [Sequencer.perTurn] at htotal hpublished
  rw [UInt64.size]
  omega

end Session

end AudioIntake
