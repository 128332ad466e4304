import AudioIntake.Proofs.Sequencer.Sweep

/-!
# Ticks

A tick first counts up every missing number and then works off the runs it finds. Whether a run is
given up hangs on its level alone, and the levels fall with the distance; so a tick gives up the
runs up to some distance and none behind it. Everything that a tick does to what is held and missing
is one sweep over that distance.
-/

namespace AudioIntake.Sequencer

variable {s : Sequencer} {o n : Nat} {k : SeqNo} {run : Run} {runs : List Run}

/-! ### Counting up -/

theorem getElem?_age (hs : s.Sound) (k : SeqNo) :
    s.age.retries[k]? = if k ∈ s.missing then some (s.counter k + 1) else s.retries[k]? :=
  Tables.getElem?_foldl_count s.missing (nodup_missing hs.toOrdered) s.retries k

theorem counter_age (hs : s.Sound) (hk : s.Lacks k) : s.age.counter k = s.counter k + 1 := by
  rw [counter, Std.ExtTreeMap.getD_eq_getD_getElem?, getElem?_age hs,
    if_pos ((mem_missing hs.toOrdered).mpr hk)]
  rfl

theorem sound_age (hs : s.Sound) : s.age.Sound where
  seqno_eq := hs.seqno_eq
  ahead := hs.ahead
  held_of_idle := hs.held_of_idle
  idle_of_closed := hs.idle_of_closed
  lacks_of_counted {k} hk := by
    by_contra hlacks
    rw [Std.ExtTreeMap.mem_iff_isSome_getElem?, getElem?_age hs,
      if_neg fun h => hlacks ((mem_missing hs.toOrdered).mp h), hs.getElem?_retries hlacks] at hk
    cases hk
  counter_le {j k} hj hk hle := by
    rw [counter_age hs hj, counter_age hs hk]
    exact Nat.succ_le_succ (hs.counter_le hj hk hle)
  counter_next {k} hk hnext := by
    rw [counter_age hs hk, counter_age hs hnext, hs.counter_next hk hnext]

/-! ### Giving a run up -/

/-- The nearest run begins at the delivery point. -/
theorem Tiled.head (h : Tiled s 0 (run :: runs)) (hs : s.Sound) :
    run.first = s.low ∧ run.count < 65536 ∧ (∀ i < run.count, s.low + i ∉ s.held) ∧
      s.low + run.count ∈ s.held ∧ Tiled s run.count runs := by
  cases h with
  | held _ hheld => exact absurd (SeqNo.add_zero s.low ▸ hheld) hs.low_not_mem
  | gap hlt hfirst hpos hfree hstop hlevel rest =>
      simp only [Nat.zero_add] at hlt hfree hstop rest
      exact ⟨by rw [hfirst, SeqNo.add_zero], hlt, hfree, hstop, rest⟩

/-- Giving up the nearest run puts the delivery point behind it and delivers what waits there. -/
theorem evict_head (hfirst : run.first = s.low) :
    ∃ t ps, s.evict run =
        (t, { events := .evict s.low run.count :: ps.map .output, requests := [], released := [] }) ∧
      Drained
        { s with
          low := s.low + run.count
          retries := run.seqnos.foldl (fun r n => r.erase n) s.retries
          tally :=
            { s.tally with
              evictedGaps := s.tally.evictedGaps + 1
              evictedPackets := s.tally.evictedPackets + run.count } } t ps := by
  rw [evict, if_pos hfirst, Run.stop, hfirst]
  exact ⟨_, _, rfl, drained_drain _⟩

theorem sweeps_evict (hs : s.Sound) (h : Tiled s 0 (run :: runs)) :
    ∃ n, Sweeps s (s.evict run).1 (s.evict run).2 n ∧ Tiled (s.evict run).1 0 runs ∧
      ∀ k, s.Lacks k → (s.low.stepsTo k < n ↔ k ∈ run.seqnos) := by
  obtain ⟨hfirst, hlt, hfree, hstop, rest⟩ := h.head hs
  have hin : ∀ k, k ∈ run.seqnos ↔ s.low.stepsTo k < run.count := by
    intro k
    rw [Run.mem_seqnos_iff hlt, hfirst]
  have hcount : run.count ≤ 57344 := by
    have hfar := hs.stepsTo_le hstop
    rwa [SeqNo.stepsTo_add _ hlt] at hfar
  obtain ⟨t, ps, hstate, hdrained⟩ := evict_head hfirst
  rw [hstate]
  have hmoves : Moves s t (run.count + ps.length) := by
    refine hdrained.moves hs hcount hfree fun k => ?_
    rw [Tables.getElem?_foldl_erase]
    simp only [hin]
  have hlen := hmoves.lt
  -- The run is ended by a held number, so something is delivered.
  have hsome : 0 < ps.length := by
    by_contra hnone
    have hdue := hmoves.due
    rw [hmoves.mem_held, hmoves.low_eq, Nat.eq_zero_of_not_pos hnone, Nat.add_zero,
      SeqNo.stepsTo_add _ hlt] at hdue
    exact hdue ⟨hstop, Nat.le_refl _⟩
  refine ⟨run.count + ps.length, ?_, ?_, ?_⟩
  · refine { hmoves with accounted_eq := ?_, delivered_eq := ?_, tally_eq := ?_, reached := ?_ }
    · rw [Report.accounted, List.flatMap_cons, flatMap_accounted_output,
        hdrained.map_seqno hs.seqno_eq, range_map_add, Event.accounted]
    · rw [← hdrained.delivered_eq hfree, Report.delivered]
      exact filterMap_delivery_output ps
    · rw [hdrained.tally_eq]
      dsimp only
      omega
    · refine Or.inr ?_
      have hlast := hdrained.passed_held (ps.length - 1) (by omega)
      rwa [← Nat.add_sub_assoc hsome] at hlast
  · refine (rest.skip ps.length (by omega) hdrained.passed_held).shift (o := 0) hmoves.lt
      hmoves.low_eq hmoves.getElem?_held hmoves.counter_eq
  · intro k hk
    rw [hin]
    constructor
    · intro hpast
      by_contra hbehind
      have hheld := hdrained.passed_held (s.low.stepsTo k - run.count) (by omega)
      rw [Nat.add_sub_cancel' (by omega), SeqNo.add_stepsTo] at hheld
      exact hk.not_mem hheld
    · omega

/-! ### Working the runs off -/

theorem escalateAll_cons (s : Sequencer) (run : Run) (runs : List Run) :
    s.escalateAll (run :: runs) =
      (((s.escalate run).1.escalateAll runs).1,
        (s.escalate run).2 ++ ((s.escalate run).1.escalateAll runs).2) := rfl

theorem escalate_of_le (h : s.ladder.giveUpAt ≤ run.level) : s.escalate run = s.evict run :=
  if_pos h

theorem escalate_of_lt (h : run.level < s.ladder.giveUpAt) :
    ∃ asked, (s.escalate run).1 =
        { s with tally := { s.tally with rerequests := s.tally.rerequests + asked } } ∧
      (s.escalate run).2.accounted = [] ∧ (s.escalate run).2.delivered = [] := by
  rw [escalate, if_neg (Nat.not_le.mpr h)]
  split
  · exact ⟨1, rfl, rfl, rfl⟩
  · exact ⟨0, rfl, rfl, rfl⟩

theorem escalateAll_of_lt (hlt : ∀ run ∈ runs, run.level < s.ladder.giveUpAt) :
    ∃ asked, (s.escalateAll runs).1 =
        { s with tally := { s.tally with rerequests := s.tally.rerequests + asked } } ∧
      (s.escalateAll runs).2.accounted = [] ∧ (s.escalateAll runs).2.delivered = [] := by
  induction runs generalizing s with
  | nil => exact ⟨0, rfl, rfl, rfl⟩
  | cons run runs ih =>
      obtain ⟨asked, hstate, haccounted, hdelivered⟩ := escalate_of_lt (hlt run List.mem_cons_self)
      rw [escalateAll_cons, hstate]
      obtain ⟨more, hstate', haccounted', hdelivered'⟩ := ih
        (s := { s with tally := { s.tally with rerequests := s.tally.rerequests + asked } })
        fun r hr => hlt r (List.mem_cons_of_mem run hr)
      refine ⟨asked + more, ?_, ?_, ?_⟩
      · rw [hstate', Nat.add_assoc]
      · rw [Report.accounted_append, haccounted, haccounted', List.append_nil]
      · rw [Report.delivered_append, hdelivered, hdelivered', List.append_nil]

/-- The levels fall with the distance. -/
theorem Tiled.level_le (h : Tiled s 0 (run :: runs)) (hs : s.Sound) (hk : s.Lacks k) :
    s.counter k ≤ run.level := by
  have hgap := h.isGap (Or.inl rfl) run List.mem_cons_self
  have hfirst := (h.head hs).1
  have hmem := hgap.first_mem
  calc
    s.counter k ≤ s.counter run.first := by
      apply hs.counter_le (hgap.lacks _ hmem) hk
      rw [hfirst, SeqNo.stepsTo_self]
      exact Nat.zero_le _
    _ = run.level := hgap.counter_eq _ hmem

theorem Tiled.level_lt (h : Tiled s 0 (run :: runs)) (hs : s.Sound) {bound : Nat}
    (hlt : run.level < bound) : ∀ r ∈ run :: runs, r.level < bound := by
  intro r hr
  have hgap := h.isGap (Or.inl rfl) r hr
  have hmem := hgap.first_mem
  calc
    r.level = s.counter r.first := (hgap.counter_eq _ hmem).symm
    _ ≤ run.level := h.level_le hs (hgap.lacks _ hmem)
    _ < bound := hlt

/-- Working off the runs sweeps over the missing numbers that have reached the last level. -/
theorem sweeps_escalateAll (hs : s.Sound) (h : Tiled s 0 runs) :
    ∃ n, Sweeps s (s.escalateAll runs).1 (s.escalateAll runs).2 n ∧
      ∀ k, s.Lacks k → (s.low.stepsTo k < n ↔ s.ladder.giveUpAt ≤ s.counter k) := by
  induction runs generalizing s with
  | nil =>
      refine ⟨0, Sweeps.refl hs s.tally rfl rfl rfl, fun k hk => ?_⟩
      have hin := h.mem_iff.mpr ⟨hk, Nat.zero_le _⟩
      simp at hin
  | cons run runs ih =>
      by_cases hgive : s.ladder.giveUpAt ≤ run.level
      · obtain ⟨n, hsweep, hrest, hn⟩ := sweeps_evict hs h
        rw [escalateAll_cons, escalate_of_le hgive]
        obtain ⟨m, hsweep', hm⟩ := ih (hsweep.sound hs) hrest
        refine ⟨n + m, hsweep.trans hs hsweep', fun k hk => ?_⟩
        by_cases hrun : k ∈ run.seqnos
        · have hcounter := (h.isGap (Or.inl rfl) run List.mem_cons_self).counter_eq k hrun
          have hlt := (hn k hk).mpr hrun
          rw [hcounter]
          exact iff_of_true (by omega) hgive
        · have hle : n ≤ s.low.stepsTo k := Nat.not_lt.mp fun hlt => hrun ((hn k hk).mp hlt)
          have hlacks := hsweep.lacks_iff.mpr ⟨hk, hle⟩
          rw [← hsweep.counter_eq hlacks, ← hsweep.ladder_eq, ← hm k hlacks,
            hsweep.stepsTo_eq hle]
          omega
      · have hlow := h.level_lt hs (Nat.not_le.mp hgive)
        obtain ⟨asked, hstate, haccounted, hdelivered⟩ := escalateAll_of_lt hlow
        refine ⟨0, ?_, fun k hk => ?_⟩
        · rw [hstate]
          exact Sweeps.refl hs _ rfl haccounted hdelivered
        · have hle := h.level_le hs hk
          omega

/-! ### The whole tick -/

theorem window_of_held_empty (hempty : s.held = ∅) : s.window = [] := by
  rw [window, span, Std.ExtTreeMap.keys_eq_nil_iff.mpr hempty]
  rfl

theorem age_of_held_empty (hempty : s.held = ∅) : s.age = s := by
  rw [age, missing, window_of_held_empty hempty]
  rfl

theorem tick_of_held_empty (hempty : s.held = ∅) : s.tick = (s, .empty) := by
  rw [tick, if_pos]
  rw [Std.ExtTreeMap.isEmpty_iff.mpr hempty, Bool.or_true]

theorem tick_eq (hs : s.Sound) : s.tick = s.age.escalateAll s.age.runs := by
  rw [tick]
  split
  · rename_i hidle
    have hempty : s.held = ∅ := by
      rcases Bool.or_eq_true_iff.mp hidle with hclosed | hempty
      · exact hs.held_of_closed hclosed
      · exact Std.ExtTreeMap.isEmpty_iff.mp hempty
    rw [age_of_held_empty hempty, runs, window_of_held_empty hempty]
    rfl
  · rfl

/-- A tick passes the missing numbers it has counted up to the last level, and no others. -/
theorem sweeps_tick (hs : s.Sound) :
    ∃ n, Sweeps s.age s.tick.1 s.tick.2 n ∧
      ∀ k, s.Lacks k → (s.low.stepsTo k < n ↔ s.ladder.giveUpAt ≤ s.counter k + 1) := by
  obtain ⟨n, hsweep, hn⟩ := sweeps_escalateAll (sound_age hs) (tiled_runs (sound_age hs))
  rw [tick_eq hs]
  refine ⟨n, hsweep, fun k hk => ?_⟩
  rw [← counter_age hs hk]
  exact hn k hk

end AudioIntake.Sequencer
