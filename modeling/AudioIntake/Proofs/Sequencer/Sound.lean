import AudioIntake.Proofs.Sequencer.Drain

/-!
# The invariant of a sequencer

A sound sequencer counts ticks for missing numbers only. Among them a counter is never larger than
one nearer to the delivery point, and two neighbours have the same counter: a number becomes missing
together with everything else that a newly held packet overtakes. This is why the runs that a tick
gives up are the nearest ones, although the tick looks at every run for itself.

`Moves s t n` says that the delivery point went `n` numbers ahead from `s` to `t`. Whatever was held
or counted on the way is gone, everything further ahead is as it was, and soundness is kept.
-/

namespace AudioIntake.Sequencer

variable {s t u : Sequencer} {m n : Nat} {k : SeqNo}

/-- For how many ticks a number has been counted as missing. -/
def counter (s : Sequencer) (k : SeqNo) : Nat := s.retries.getD k 0

structure Sound (s : Sequencer) : Prop extends Ordered s where
  held_of_idle : s.started = false → s.held = ∅
  idle_of_closed : s.closed = true → s.started = false
  lacks_of_counted : ∀ {k : SeqNo}, k ∈ s.retries → s.Lacks k
  counter_le : ∀ {j k : SeqNo}, s.Lacks j → s.Lacks k → s.low.stepsTo j ≤ s.low.stepsTo k →
    s.counter k ≤ s.counter j
  counter_next : ∀ {k : SeqNo}, s.Lacks k → s.Lacks k.next → s.counter k.next = s.counter k

namespace Sound

theorem counter_eq_zero (h : s.Sound) (hk : ¬s.Lacks k) : s.counter k = 0 :=
  Std.ExtTreeMap.getD_eq_fallback fun hmem => hk (h.lacks_of_counted hmem)

theorem getElem?_retries (h : s.Sound) (hk : ¬s.Lacks k) : s.retries[k]? = none :=
  Std.ExtTreeMap.getElem?_eq_none fun hmem => hk (h.lacks_of_counted hmem)

theorem erase_retries (h : s.Sound) (hk : ¬s.Lacks k) : s.retries.erase k = s.retries := by
  apply Std.ExtTreeMap.ext_getElem?
  intro j
  rw [Std.ExtTreeMap.getElem?_erase]
  simp only [Std.LawfulEqCmp.compare_eq_iff_eq]
  split
  · rename_i hkj
    rw [← hkj, h.getElem?_retries hk]
  · rfl

theorem started_of_held (h : s.Sound) (hk : k ∈ s.held) : s.started = true := by
  by_contra hidle
  rw [h.held_of_idle (Bool.not_eq_true _ ▸ hidle)] at hk
  exact Std.ExtTreeMap.not_mem_empty hk

theorem not_lacks_of_idle (h : s.Sound) (hidle : s.started = false) : ¬s.Lacks k :=
  not_lacks_of_held_empty (h.held_of_idle hidle)

theorem open_of_started (h : s.Sound) (hstarted : s.started = true) : s.closed = false := by
  by_contra hclosed
  have hidle := h.idle_of_closed (Bool.not_eq_false _ ▸ hclosed)
  exact absurd (hstarted.symm.trans hidle) (by decide)

theorem held_of_closed (h : s.Sound) (hclosed : s.closed = true) : s.held = ∅ :=
  h.held_of_idle (h.idle_of_closed hclosed)

theorem withTally (h : s.Sound) (tally : Tally) : Sound { s with tally } :=
  { seqno_eq := h.seqno_eq
    ahead := h.ahead
    held_of_idle := h.held_of_idle
    idle_of_closed := h.idle_of_closed
    lacks_of_counted := h.lacks_of_counted
    counter_le := h.counter_le
    counter_next := h.counter_next }

end Sound

theorem sound_ofLadder (ladder : Ladder) : (ofLadder ladder).Sound where
  seqno_eq h := by simp [ofLadder] at h
  ahead h := absurd h Std.ExtTreeMap.not_mem_empty
  held_of_idle _ := rfl
  idle_of_closed _ := rfl
  lacks_of_counted h := absurd h Std.ExtTreeMap.not_mem_empty
  counter_le h := absurd h (not_lacks_of_held_empty rfl)
  counter_next h := absurd h (not_lacks_of_held_empty rfl)

theorem sound_forget (s : Sequencer) (closed : Bool) (tally : Tally) :
    Sound { s.forget with closed, tally } where
  seqno_eq h := by simp [forget] at h
  ahead h := absurd h Std.ExtTreeMap.not_mem_empty
  held_of_idle _ := rfl
  idle_of_closed _ := rfl
  lacks_of_counted h := absurd h Std.ExtTreeMap.not_mem_empty
  counter_le h := absurd h (not_lacks_of_held_empty rfl)
  counter_next h := absurd h (not_lacks_of_held_empty rfl)

/-! ### Moving ahead -/

structure Moves (s t : Sequencer) (n : Nat) : Prop where
  lt : n < 65536
  low_eq : t.low = s.low + n
  getElem?_held : ∀ k, t.held[k]? = if s.low.stepsTo k < n then none else s.held[k]?
  due : t.low ∉ t.held
  lacks_of_counted : ∀ {k : SeqNo}, k ∈ t.retries → t.Lacks k
  getElem?_retries : ∀ {k : SeqNo}, t.Lacks k → t.retries[k]? = s.retries[k]?
  ladder_eq : t.ladder = s.ladder
  started_eq : t.started = s.started
  closed_eq : t.closed = s.closed

theorem mem_held_iff_of_moved (hheld : ∀ k, t.held[k]? =
    if s.low.stepsTo k < n then none else s.held[k]?) :
    k ∈ t.held ↔ k ∈ s.held ∧ n ≤ s.low.stepsTo k := by
  rw [Std.ExtTreeMap.mem_iff_contains, Std.ExtTreeMap.contains_eq_isSome_getElem?, hheld]
  by_cases hlt : s.low.stepsTo k < n
  · simp [hlt]
  · simp [hlt, Nat.not_lt.mp hlt]

/-- What is still missing is what was missing and has not been passed. -/
theorem lacks_iff_of_moved (hlt : n < 65536) (hlow : t.low = s.low + n)
    (hheld : ∀ k, t.held[k]? = if s.low.stepsTo k < n then none else s.held[k]?) :
    t.Lacks k ↔ s.Lacks k ∧ n ≤ s.low.stepsTo k := by
  have hmem : ∀ j, j ∈ t.held ↔ j ∈ s.held ∧ n ≤ s.low.stepsTo j := fun j =>
    mem_held_iff_of_moved hheld
  simp only [Lacks, hmem, hlow]
  constructor
  · rintro ⟨hk, j, ⟨hj, hpast⟩, hsteps⟩
    rw [SeqNo.stepsTo_add_left hpast] at hsteps
    have hjlt := s.low.stepsTo_lt j
    by_cases hle : n ≤ s.low.stepsTo k
    · rw [SeqNo.stepsTo_add_left hle] at hsteps
      exact ⟨⟨fun h => hk ⟨h, hle⟩, j, hj, by omega⟩, hle⟩
    · rw [SeqNo.stepsTo_add_left_of_lt (by omega) hlt] at hsteps
      omega
  · rintro ⟨⟨hk, j, hj, hsteps⟩, hle⟩
    refine ⟨fun h => hk h.1, j, ⟨hj, by omega⟩, ?_⟩
    rw [SeqNo.stepsTo_add_left hle, SeqNo.stepsTo_add_left (by omega)]
    omega

namespace Moves

theorem mem_held (h : Moves s t n) : k ∈ t.held ↔ k ∈ s.held ∧ n ≤ s.low.stepsTo k :=
  mem_held_iff_of_moved h.getElem?_held

theorem lacks_iff (h : Moves s t n) : t.Lacks k ↔ s.Lacks k ∧ n ≤ s.low.stepsTo k :=
  lacks_iff_of_moved h.lt h.low_eq h.getElem?_held

theorem counter_eq (h : Moves s t n) (hk : t.Lacks k) : t.counter k = s.counter k := by
  unfold counter
  rw [Std.ExtTreeMap.getD_eq_getD_getElem?, Std.ExtTreeMap.getD_eq_getD_getElem?,
    h.getElem?_retries hk]

theorem stepsTo_eq (h : Moves s t n) (hk : n ≤ s.low.stepsTo k) :
    t.low.stepsTo k = s.low.stepsTo k - n := by
  rw [h.low_eq, SeqNo.stepsTo_add_left hk]

/-- What is missing in front of something still held was missing there before. -/
theorem lacked_in_front (h : Moves s t n) {j : SeqNo} (hj : j ∈ t.held) (hk : t.Lacks k)
    (hlt : t.low.stepsTo k < t.low.stepsTo j) :
    s.Lacks k ∧ s.low.stepsTo k < s.low.stepsTo j := by
  obtain ⟨hlacks, hle⟩ := h.lacks_iff.mp hk
  have hlej := (h.mem_held.mp hj).2
  rw [h.stepsTo_eq hle, h.stepsTo_eq hlej] at hlt
  exact ⟨hlacks, by omega⟩

theorem refl (hs : s.Sound) : Moves s s 0 where
  lt := by decide
  low_eq := (SeqNo.add_zero _).symm
  getElem?_held k := by simp
  due := hs.low_not_mem
  lacks_of_counted := hs.lacks_of_counted
  getElem?_retries _ := rfl
  ladder_eq := rfl
  started_eq := rfl
  closed_eq := rfl

theorem trans (h : Moves s t n) (h' : Moves t u m) (hlt : n + m < 65536) :
    Moves s u (n + m) where
  lt := hlt
  low_eq := by rw [h'.low_eq, h.low_eq, SeqNo.add_add]
  getElem?_held k := by
    rw [h'.getElem?_held, h.getElem?_held]
    by_cases hpast : s.low.stepsTo k < n
    · simp [hpast, Nat.lt_of_lt_of_le hpast (Nat.le_add_right n m)]
    · rw [h.stepsTo_eq (Nat.not_lt.mp hpast), if_neg hpast]
      by_cases hlt : s.low.stepsTo k < n + m
      · rw [if_pos (by omega), if_pos hlt]
      · rw [if_neg (by omega), if_neg hlt]
  due := h'.due
  lacks_of_counted := h'.lacks_of_counted
  getElem?_retries hk := by
    rw [h'.getElem?_retries hk, h.getElem?_retries (h'.lacks_iff.mp hk).1]
  ladder_eq := h'.ladder_eq.trans h.ladder_eq
  started_eq := h'.started_eq.trans h.started_eq
  closed_eq := h'.closed_eq.trans h.closed_eq

theorem sound (h : Moves s t n) (hs : s.Sound) : t.Sound where
  seqno_eq {k p} hp := by
    rw [h.getElem?_held] at hp
    split at hp
    · cases hp
    · exact hs.seqno_eq hp
  ahead {k} hk := by
    obtain ⟨hmem, hle⟩ := h.mem_held.mp hk
    have hne : s.low.stepsTo k ≠ n := by
      intro heq
      apply h.due
      rwa [h.low_eq, ← heq, SeqNo.add_stepsTo]
    rw [h.low_eq, SeqNo.delta_add_left (Int.le_of_lt (hs.ahead hmem)) hle]
    omega
  held_of_idle hidle := by
    have hempty := hs.held_of_idle (h.started_eq ▸ hidle)
    apply Std.ExtTreeMap.ext_getElem?
    intro k
    rw [h.getElem?_held, hempty]
    simp
  idle_of_closed hclosed := by
    rw [h.started_eq]
    exact hs.idle_of_closed (h.closed_eq ▸ hclosed)
  lacks_of_counted := h.lacks_of_counted
  counter_le {j k} hj hk hle := by
    obtain ⟨hsj, hnj⟩ := h.lacks_iff.mp hj
    obtain ⟨hsk, hnk⟩ := h.lacks_iff.mp hk
    rw [h.stepsTo_eq hnj, h.stepsTo_eq hnk] at hle
    rw [h.counter_eq hj, h.counter_eq hk]
    exact hs.counter_le hsj hsk (by omega)
  counter_next {k} hk hnext := by
    rw [h.counter_eq hk, h.counter_eq hnext]
    exact hs.counter_next (h.lacks_iff.mp hk).1 (h.lacks_iff.mp hnext).1

end Moves

end AudioIntake.Sequencer
