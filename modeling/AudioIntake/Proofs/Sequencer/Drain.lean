import AudioIntake.Proofs.Sequencer.Order

/-!
# Draining

Once the number due is held, delivery runs on up to the first number that is not. A drain is
described by the packets it delivers: they are the held packets from the delivery point on, the
delivery point ends up just behind them, and nothing else that is held is touched.
-/

namespace AudioIntake.Sequencer

variable {s t : Sequencer} {ps : List Packet}

structure Drained (s t : Sequencer) (ps : List Packet) : Prop where
  low_eq : t.low = s.low + ps.length
  getElem?_held : ∀ k, t.held[k]? = if s.low.stepsTo k < ps.length then none else s.held[k]?
  getElem?_delivered : ∀ i, i < ps.length → s.held[s.low + i]? = ps[i]?
  due : t.low ∉ t.held
  retries_eq : t.retries = if t.held.isEmpty then ∅ else s.retries
  tally_eq : t.tally = { s.tally with delivered := s.tally.delivered + ps.length }
  ladder_eq : t.ladder = s.ladder
  started_eq : t.started = s.started
  closed_eq : t.closed = s.closed

theorem getElem?_erase_low (s : Sequencer) (k : SeqNo) (n : Nat) :
    (if s.low.next.stepsTo k < n then none else (s.held.erase s.low)[k]?) =
      if s.low.stepsTo k < n + 1 then none else s.held[k]? := by
  by_cases hk : s.low = k
  · subst hk
    simp
  · have hpos : 1 ≤ s.low.stepsTo k := by
      by_contra hzero
      exact hk (SeqNo.stepsTo_eq_zero.mp (by omega)).symm
    have hsteps : s.low.next.stepsTo k = s.low.stepsTo k - 1 := SeqNo.stepsTo_add_left hpos
    rw [hsteps, Std.ExtTreeMap.getElem?_erase]
    simp only [Std.LawfulEqCmp.compare_eq_iff_eq, hk, if_false]
    by_cases hlt : s.low.stepsTo k < n + 1
    · rw [if_pos (by omega), if_pos hlt]
    · rw [if_neg (by omega), if_neg hlt]

theorem deliverHeld_of_none (h : s.held[s.low]? = none) : s.deliverHeld = (s, []) := by
  rw [deliverHeld]
  split
  · rfl
  · rename_i q hq
    rw [h] at hq
    cases hq

theorem deliverHeld_of_some {p : Packet} (h : s.held[s.low]? = some p)
    (hrest : { s with held := s.held.erase s.low }.advance.deliverHeld = (t, ps)) :
    s.deliverHeld = (t, p :: ps) := by
  rw [deliverHeld]
  split
  · rename_i hq
    rw [h] at hq
    cases hq
  · rename_i q hq
    rw [h] at hq
    cases hq
    rw [hrest]

/-- The loop of a drain, before the counters of an empty sequencer are dropped. -/
theorem deliverHeld_eq (s : Sequencer) :
    ∃ held ps, s.deliverHeld =
        ({ s with
            low := s.low + ps.length
            held
            tally := { s.tally with delivered := s.tally.delivered + ps.length } }, ps) ∧
      (∀ k, held[k]? = if s.low.stepsTo k < ps.length then none else s.held[k]?) ∧
      (∀ i, i < ps.length → s.held[s.low + i]? = ps[i]?) ∧
      s.low + ps.length ∉ held := by
  induction s using deliverHeld.induct with
  | case1 s hnone =>
      refine ⟨s.held, [], ?_, ?_, ?_, ?_⟩
      · rw [deliverHeld_of_none hnone]
        simp only [List.length_nil, SeqNo.add_zero, Nat.add_zero]
      · simp
      · simp
      · simpa using hnone
  | case2 s p hsome t ps heq ih =>
      obtain ⟨held, qs, hstate, hheld, hdelivered, hdue⟩ := ih
      have hlow : ∀ i, s.low.next + i = s.low + (i + 1) := by
        intro i
        rw [SeqNo.next, SeqNo.add_add, Nat.add_comm]
      refine ⟨held, p :: qs, ?_, ?_, ?_, ?_⟩
      · rw [deliverHeld_of_some hsome hstate]
        simp only [advance, List.length_cons, hlow, Nat.add_assoc, Nat.add_comm 1]
      · intro k
        rw [hheld]
        exact getElem?_erase_low s k qs.length
      · intro i hi
        cases i with
        | zero => simpa using hsome
        | succ i =>
            have hi : i < qs.length := by simpa using hi
            have hnext := hdelivered i hi
            simp only [advance, hlow, Std.ExtTreeMap.getElem?_erase] at hnext
            -- A walk around the whole circle would look for the number just taken out.
            split at hnext
            · simp [List.getElem?_eq_getElem hi] at hnext
            · simpa using hnext
      · simpa [advance, hlow] using hdue

theorem settle_eq (s : Sequencer) :
    s.settle = { s with retries := if s.held.isEmpty then ∅ else s.retries } := by
  unfold settle
  split <;> rfl

theorem drained_drain (s : Sequencer) : Drained s s.drain.1 s.drain.2 := by
  obtain ⟨held, ps, hstate, hheld, hdelivered, hdue⟩ := s.deliverHeld_eq
  rw [drain, hstate]
  simp only [settle_eq]
  exact
    { low_eq := rfl
      getElem?_held := hheld
      getElem?_delivered := hdelivered
      due := hdue
      retries_eq := rfl
      tally_eq := rfl
      ladder_eq := rfl
      started_eq := rfl
      closed_eq := rfl }

end AudioIntake.Sequencer
