import AudioIntake.Proofs.Tables
import AudioIntake.Proofs.Distance
import AudioIntake.Sequencer.Basic

/-!
# What is held and what is missing

Every held packet lies under its own number and ahead of the delivery point. Under that condition
the newest held packet bounds what is missing: the window of a tick holds exactly the numbers that
are on the way from the delivery point to some held packet.
-/

namespace AudioIntake.Sequencer

variable {s : Sequencer} {n k : SeqNo} {p : Packet}

structure Ordered (s : Sequencer) : Prop where
  seqno_eq : ∀ {n : SeqNo} {p : Packet}, s.held[n]? = some p → p.seqno = n
  ahead : ∀ {n : SeqNo}, n ∈ s.held → 0 < n.delta s.low

/-- A number is missing: it is at the delivery point or ahead of it, it is not held, and there is a
held packet behind which it waits. -/
def Lacks (s : Sequencer) (n : SeqNo) : Prop :=
  n ∉ s.held ∧ ∃ k ∈ s.held, s.low.stepsTo n < s.low.stepsTo k

theorem low?_eq_some : s.low? = some n ↔ s.started = true ∧ s.low = n := by
  rw [low?]
  split <;> simp_all

theorem inRecovery_iff : s.inRecovery = true ↔ ∃ n, n ∈ s.held := by
  rw [inRecovery, Bool.not_eq_true', ← Bool.not_eq_true, Std.ExtTreeMap.isEmpty_iff,
    Std.ExtTreeMap.eq_empty_iff_forall_not_mem, not_forall_not]

theorem Lacks.not_mem (h : s.Lacks n) : n ∉ s.held := h.1

theorem Lacks.of_le {m : SeqNo} (h : s.Lacks n) (hle : s.low.stepsTo m ≤ s.low.stepsTo n)
    (hm : m ∉ s.held) : s.Lacks m := by
  obtain ⟨-, k, hk, hlt⟩ := h
  exact ⟨hm, k, hk, by omega⟩

/-- Two neighbours wait for the same packets: either both are missing, or neither is. -/
theorem lacks_next_iff (hn : n ∉ s.held) (hnext : n.next ∉ s.held)
    (hlt : s.low.stepsTo n < 65535) : s.Lacks n ↔ s.Lacks n.next := by
  have hsteps : s.low.stepsTo n.next = s.low.stepsTo n + 1 := SeqNo.stepsTo_next_right hlt
  constructor
  · rintro ⟨-, k, hk, hbefore⟩
    have hne : s.low.stepsTo k ≠ s.low.stepsTo n.next := fun h =>
      hnext (SeqNo.stepsTo_inj h ▸ hk)
    exact ⟨hnext, k, hk, by omega⟩
  · intro h
    exact h.of_le (by omega) hn

theorem not_lacks_of_held_empty (h : s.held = ∅) : ¬s.Lacks n := by
  rintro ⟨-, k, hk, -⟩
  rw [h] at hk
  exact Std.ExtTreeMap.not_mem_empty hk

namespace Ordered

theorem low_not_mem (h : s.Ordered) : s.low ∉ s.held := by
  intro hmem
  have hlow := h.ahead hmem
  rw [SeqNo.delta_self] at hlow
  omega

theorem delta_eq (h : s.Ordered) (hn : n ∈ s.held) : n.delta s.low = s.low.stepsTo n :=
  SeqNo.delta_eq_stepsTo (Int.le_of_lt (h.ahead hn))

theorem stepsTo_pos (h : s.Ordered) (hn : n ∈ s.held) : 0 < s.low.stepsTo n :=
  SeqNo.stepsTo_pos (h.ahead hn)

theorem stepsTo_le (h : s.Ordered) (hn : n ∈ s.held) : s.low.stepsTo n ≤ 57344 :=
  SeqNo.stepsTo_le (Int.le_of_lt (h.ahead hn))

/-- The delivery point itself is missing as soon as anything is held. -/
theorem lacks_low (h : s.Ordered) (hk : k ∈ s.held) : s.Lacks s.low :=
  ⟨h.low_not_mem, k, hk, by simpa using h.stepsTo_pos hk⟩

/-- What is missing, in the words of `delta`: at the delivery point or ahead of it, not held, and
behind a held packet. -/
theorem lacks_iff_delta (h : s.Ordered) :
    s.Lacks n ↔ 0 ≤ n.delta s.low ∧ n ∉ s.held ∧ ∃ k ∈ s.held, n.delta k < 0 := by
  constructor
  · rintro ⟨hn, k, hk, hlt⟩
    have hahead := Int.le_of_lt (h.ahead hk)
    have hself := SeqNo.delta_add_self hahead (Nat.le_of_lt hlt)
    have hleft := SeqNo.delta_add_left hahead (Nat.le_of_lt hlt)
    rw [SeqNo.add_stepsTo] at hself hleft
    have hneg := SeqNo.delta_neg k n
    exact ⟨by omega, hn, k, hk, by omega⟩
  · rintro ⟨hlow, hn, k, hk, hbehind⟩
    refine ⟨hn, k, hk, ?_⟩
    by_contra hge
    have hleft := SeqNo.delta_add_left hlow (Nat.not_lt.mp hge)
    rw [SeqNo.add_stepsTo] at hleft
    omega

end Ordered

/-! ### The window of a tick -/

theorem lt_span_iff (h : s.Ordered) {o : Nat} :
    o < s.span ↔ ∃ k ∈ s.held, o < s.low.stepsTo k := by
  have hfar := Tables.lt_foldl_max (fun k : SeqNo => k.delta s.low) s.held.keys 0 (o : Int)
  unfold span
  rw [Int.lt_toNat, hfar]
  constructor
  · rintro (hzero | ⟨k, hk, hlt⟩)
    · omega
    · have hk := Std.ExtTreeMap.mem_keys.mp hk
      rw [h.delta_eq hk] at hlt
      exact ⟨k, hk, by omega⟩
  · rintro ⟨k, hk, hlt⟩
    refine Or.inr ⟨k, Std.ExtTreeMap.mem_keys.mpr hk, ?_⟩
    rw [h.delta_eq hk]
    omega

theorem span_le (h : s.Ordered) : s.span ≤ 57344 := by
  by_contra hlt
  obtain ⟨k, hk, hsteps⟩ := (lt_span_iff h).mp (Nat.not_le.mp hlt)
  have hle := h.stepsTo_le hk
  omega

theorem mem_window (h : s.Ordered) : n ∈ s.window ↔ s.low.stepsTo n < s.span := by
  have hspan := span_le h
  simp only [window, List.mem_map, List.mem_range]
  constructor
  · rintro ⟨o, ho, rfl⟩
    rwa [SeqNo.stepsTo_add _ (by omega)]
  · intro hn
    exact ⟨_, hn, SeqNo.add_stepsTo _ _⟩

theorem mem_missing (h : s.Ordered) : n ∈ s.missing ↔ s.Lacks n := by
  simp only [missing, List.mem_filter, mem_window h, lt_span_iff h, Lacks,
    Std.ExtTreeMap.mem_iff_contains, Bool.not_eq_true', Bool.not_eq_true]
  exact and_comm

theorem nodup_range_map_add (a : SeqNo) {count : Nat} (hcount : count ≤ 65536) :
    ((List.range count).map (a + ·)).Nodup := by
  refine List.Nodup.map_on ?_ List.nodup_range
  intro x hx y hy hxy
  rw [List.mem_range] at hx hy
  exact SeqNo.add_inj (by omega) (by omega) hxy

theorem nodup_missing (h : s.Ordered) : s.missing.Nodup := by
  have hspan := span_le h
  exact (nodup_range_map_add s.low (by omega)).filter _

end AudioIntake.Sequencer
