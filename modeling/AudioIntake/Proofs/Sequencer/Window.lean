import AudioIntake.Proofs.Sequencer.RetryLadder
import AudioIntake.Proofs.Sequencer.Turns
import Mathlib.Data.List.Perm.Subperm

/-!
# The window that admission keeps open

The lead of a packet is looked at once, when the packet is admitted. It holds from then on, because a
delivery point that moves ahead leaves smaller leads behind. So no packet is ever held further ahead
than the largest lead, and what a tick asks for or gives up lies in front of some held packet and
within that lead too.
-/

namespace AudioIntake

/-- A run of numbers from the delivery point on, all less than `bound` ahead of it. -/
structure SeqNo.LiesWithin (low : SeqNo) (bound : Int) (first : SeqNo) (count : Nat) : Prop where
  count_le : (count : Int) ≤ bound
  near : ∀ i < count, 0 ≤ (first + i).delta low ∧ (first + i).delta low < bound

/-- The numbers that an event asks for or gives up. -/
def Event.span? : Event → Option (SeqNo × Nat)
  | rerequest request _ => some (request.first, request.count.toNat)
  | evict first count => some (first, count)
  | _ => none

namespace Sequencer

variable {s t : Sequencer} {r : Report} {p : Packet} {k : SeqNo} {bound : Int} {n : Nat}
  {run : Run} {runs : List Run}

def Within (s : Sequencer) (bound : Int) : Prop := ∀ k ∈ s.held, k.delta s.low ≤ bound

theorem within_of_held_empty (h : s.held = ∅) : s.Within bound := by
  intro k hk
  rw [h] at hk
  exact absurd hk Std.ExtTreeMap.not_mem_empty

theorem Moves.within (h : Moves s t n) (hs : s.Sound) (hwithin : s.Within bound) :
    t.Within bound := by
  intro k hk
  obtain ⟨hmem, hle⟩ := h.mem_held.mp hk
  have hbefore := hwithin k hmem
  rw [hs.delta_eq hmem] at hbefore
  rw [(h.sound hs).delta_eq hk, h.stepsTo_eq hle]
  omega

theorem Placed.within (hs : s.Sound) (hwithin : s.Within bound)
    (hnear : p.seqno.delta s.low ≤ bound) (h : Placed s p t r) : t.Within bound := by
  cases h with
  | delivered hlow hdrained => exact (Placed.moves hs hlow hdrained).within hs hwithin
  | stale => exact hwithin
  | duplicate => exact hwithin
  | held =>
      intro k hk
      rcases Placed.mem_hold.mp hk with rfl | hk
      · exact hnear
      · exact hwithin k hk

theorem Handled.within (hs : s.Sound) (hwithin : s.Within bound) (hbound : 0 ≤ bound)
    (hnear : s.started = true → p.seqno.delta s.low ≤ bound) (h : Handled s p t r) :
    t.Within bound := by
  cases h with
  | closed => exact hwithin
  | notStarted => exact hwithin
  | placed hopen _ hplaced =>
      have hsound := sound_opened hs hopen p.seqno
      by_cases hstarted : s.started = true
      · rw [start_of_started (s := s.countReceived) hstarted] at hplaced hsound
        exact hplaced.within hsound hwithin (hnear hstarted)
      · have hidle : s.started = false := Bool.not_eq_true _ ▸ hstarted
        rw [start_of_idle (s := s.countReceived) hidle] at hplaced hsound
        refine hplaced.within hsound (within_of_held_empty (hs.held_of_idle hidle)) ?_
        rw [SeqNo.delta_self]
        exact hbound

theorem Admitted.within (hs : s.Sound) (hwithin : s.Within bound) (hbound : 0 ≤ bound)
    (h : Admitted s bound p t r) : t.Within bound := by
  cases h with
  | discarded =>
      obtain ⟨tally, hstate⟩ := s.discard_state p
      rw [hstate]
      exact hwithin
  | flushed =>
      refine (handled_handle (sound_call hs .flush) p).within (sound_call hs .flush) ?_ hbound ?_
      · exact within_of_held_empty rfl
      · intro hstarted
        cases hstarted
  | handled hnear => exact (handled_handle hs p).within hs hwithin hbound hnear

theorem within_turn (hs : s.Sound) (hwithin : s.Within bound) (hbound : 0 ≤ bound) (turn : Turn) :
    (s.turn bound turn).1.Within bound := by
  cases turn with
  | packet p => exact (s.admitted_accept bound p).within hs hwithin hbound
  | flush => exact within_of_held_empty rfl
  | tick =>
      obtain ⟨n, hsweep, -⟩ := sweeps_tick hs
      exact hsweep.toMoves.within (sound_age hs) hwithin

/-- Every held packet has a lead of its own, from one up to the bound. -/
theorem size_held_le (hs : s.Sound) (hwithin : s.Within bound) (hbound : 0 ≤ bound) :
    (s.held.size : Int) ≤ bound := by
  have hnodup : (s.held.keys.map s.low.stepsTo).Nodup :=
    Std.ExtTreeMap.nodup_keys.map fun _ _ h => SeqNo.stepsTo_inj h
  have hsubset : s.held.keys.map s.low.stepsTo ⊆ List.range' 1 bound.toNat := by
    intro o ho
    obtain ⟨k, hk, rfl⟩ := List.mem_map.mp ho
    have hmem := Std.ExtTreeMap.mem_keys.mp hk
    have hpos := hs.stepsTo_pos hmem
    have hlead := hwithin k hmem
    rw [hs.delta_eq hmem] at hlead
    rw [List.mem_range'_1]
    omega
  have hlen := (hnodup.subperm hsubset).length_le
  rw [List.length_map, List.length_range', Std.ExtTreeMap.length_keys] at hlen
  omega

/-! ### What a tick asks for and gives up -/

theorem Lacks.delta (hs : s.Sound) (hwithin : s.Within bound) (hk : s.Lacks k) :
    0 ≤ k.delta s.low ∧ k.delta s.low < bound := by
  have hahead := (hs.lacks_iff_delta.mp hk).1
  obtain ⟨-, j, hj, hlt⟩ := hk
  have hlead := hwithin j hj
  rw [hs.delta_eq hj] at hlead
  rw [SeqNo.delta_eq_stepsTo hahead]
  omega

/-- The members of a gap are as many steps from the delivery point as their places in it say. -/
theorem IsGap.steps_eq (hs : s.Sound) (h : s.IsGap run) :
    ∀ i < run.count, s.low.stepsTo (run.first + i) = s.low.stepsTo run.first + i := by
  have hfar : ∀ i < run.count, (s.low.stepsTo run.first + i) % 65536 < 57344 := by
    intro i hi
    obtain ⟨-, k, hk, hlt⟩ := h.lacks _ (Run.mem_seqnos.mpr ⟨i, hi, rfl⟩)
    have hle := hs.stepsTo_le hk
    rw [SeqNo.stepsTo_add_right] at hlt
    omega
  intro i hi
  have hfirst := hfar 0 h.count_pos
  have hlt := s.low.stepsTo_lt run.first
  -- A gap that went around the circle would have a member where nothing can be missing.
  have hend : s.low.stepsTo run.first + i < 65536 := by
    by_contra hge
    have hwrapped := hfar (57344 - s.low.stepsTo run.first) (by omega)
    omega
  rw [SeqNo.stepsTo_add_right, Nat.mod_eq_of_lt hend]

theorem IsGap.liesWithin (hs : s.Sound) (hwithin : s.Within bound) (h : s.IsGap run) :
    s.low.LiesWithin bound run.first run.count := by
  have hnear : ∀ i < run.count,
      0 ≤ (run.first + i).delta s.low ∧ (run.first + i).delta s.low < bound :=
    fun i hi => (h.lacks _ (Run.mem_seqnos.mpr ⟨i, hi, rfl⟩)).delta hs hwithin
  refine ⟨?_, hnear⟩
  have hpos := h.count_pos
  obtain ⟨hahead, hlast⟩ := hnear (run.count - 1) (by omega)
  rw [SeqNo.delta_eq_stepsTo hahead, h.steps_eq hs _ (by omega)] at hlast
  omega

theorem span?_evict {e : Event} {first : SeqNo} {count : Nat} (he : e ∈ (s.evict run).2.events)
    (hspan : e.span? = some (first, count)) : run.first = first ∧ run.count = count := by
  have houtput : ∀ ps : List Packet, e ∉ ps.map Event.output := by
    intro ps hmem
    obtain ⟨q, -, rfl⟩ := List.mem_map.mp hmem
    cases hspan
  rw [evict] at he
  dsimp only at he
  split at he
  · rcases List.mem_cons.mp he with rfl | hmem
    · simpa [Event.span?] using hspan
    · exact absurd hmem (houtput _)
  · rw [List.mem_singleton.mp he] at hspan
    simpa [Event.span?] using hspan

theorem span?_escalate {e : Event} {first : SeqNo} {count : Nat} (hcount : run.count < 65536)
    (he : e ∈ (s.escalate run).2.events) (hspan : e.span? = some (first, count)) :
    run.first = first ∧ run.count = count := by
  rw [escalate] at he
  split at he
  · exact span?_evict he hspan
  · split at he
    · rw [List.mem_singleton.mp he] at hspan
      simpa [Event.span?, Run.request, UInt16.toNat_ofNat_of_lt' hcount] using hspan
    · cases he

/-- What is asked for or given up is one of the runs that are worked off. -/
theorem span?_escalateAll {e : Event} {first : SeqNo} {count : Nat}
    (hcount : ∀ run ∈ runs, run.count < 65536) (he : e ∈ (s.escalateAll runs).2.events)
    (hspan : e.span? = some (first, count)) :
    ∃ run ∈ runs, run.first = first ∧ run.count = count := by
  induction runs generalizing s with
  | nil => cases he
  | cons run runs ih =>
      rw [escalateAll_cons, Report.append_events, List.mem_append] at he
      rcases he with hone | hrest
      · exact ⟨run, List.mem_cons_self, span?_escalate (hcount run List.mem_cons_self) hone hspan⟩
      · obtain ⟨r, hr, heq⟩ := ih (fun r hr => hcount r (List.mem_cons_of_mem run hr)) hrest
        exact ⟨r, List.mem_cons_of_mem run hr, heq⟩

theorem span?_tick (hs : s.Sound) (hwithin : s.Within bound) {e : Event} {first : SeqNo}
    {count : Nat} (he : e ∈ s.tick.2.events) (hspan : e.span? = some (first, count)) :
    s.low.LiesWithin bound first count := by
  have hgaps := isGap_runs_age hs
  rw [tick_eq hs] at he
  obtain ⟨run, hrun, rfl, rfl⟩ := span?_escalateAll (fun r hr => (hgaps r hr).count_lt) he hspan
  exact (hgaps run hrun).liesWithin (s := s.age) (sound_age hs) hwithin

theorem request_tick (hs : s.Sound) (hwithin : s.Within bound) {q : Rerequest}
    (hq : q ∈ s.tick.2.requests) : s.low.LiesWithin bound q.first q.count.toNat := by
  obtain ⟨run, hrun, -, rfl⟩ := run_of_request hs hq
  have hgap := isGap_runs_age hs run hrun
  have hcount : run.request.count.toNat = run.count := UInt16.toNat_ofNat_of_lt' hgap.count_lt
  rw [hcount]
  exact hgap.liesWithin (s := s.age) (sound_age hs) hwithin

/-! ### Turns -/

theorem Placed.quiet (h : Placed s p t r) :
    r.requests = [] ∧ ∀ e ∈ r.events, e.span? = none := by
  cases h with
  | delivered => simp [Event.span?]
  | stale => simp [refusal, Event.span?]
  | duplicate => simp [refusal, Event.span?]
  | held => simp [Event.span?]

theorem Handled.quiet (h : Handled s p t r) :
    r.requests = [] ∧ ∀ e ∈ r.events, e.span? = none := by
  cases h with
  | closed => simp [refusal, Event.span?]
  | notStarted => simp [refusal, Event.span?]
  | placed _ _ hplaced => exact hplaced.quiet

theorem Admitted.quiet (hs : s.Sound) (h : Admitted s bound p t r) :
    r.requests = [] ∧ ∀ e ∈ r.events, e.span? = none := by
  cases h with
  | discarded =>
      rw [discard]
      split
      · simp [Report.empty]
      · simp [refusal, Event.span?]
  | flushed =>
      obtain ⟨hrequests, hevents⟩ := (handled_handle (sound_call hs .flush) p).quiet
      refine ⟨hrequests, fun e he => ?_⟩
      rcases List.mem_append.mp he with hflush | hhandle
      · rw [List.mem_singleton.mp hflush]
        rfl
      · exact hevents e hhandle
  | handled => exact (handled_handle hs p).quiet

/-- Only ticks ask for anything or give it up. -/
theorem span?_turn (hs : s.Sound) (hwithin : s.Within bound) (turn : Turn) {e : Event}
    {first : SeqNo} {count : Nat} (he : e ∈ (s.turn bound turn).2.events)
    (hspan : e.span? = some (first, count)) : s.low.LiesWithin bound first count := by
  cases turn with
  | packet p =>
      rw [((s.admitted_accept bound p).quiet hs).2 e he] at hspan
      cases hspan
  | flush =>
      rw [List.mem_singleton.mp he] at hspan
      cases hspan
  | tick => exact span?_tick hs hwithin he hspan

theorem request_turn (hs : s.Sound) (hwithin : s.Within bound) (turn : Turn) {q : Rerequest}
    (hq : q ∈ (s.turn bound turn).2.requests) : s.low.LiesWithin bound q.first q.count.toNat := by
  cases turn with
  | packet p =>
      have hnone := ((s.admitted_accept bound p).quiet hs).1
      change q ∈ (s.accept bound p).2.requests at hq
      rw [hnone] at hq
      cases hq
  | flush => cases hq
  | tick => exact request_tick hs hwithin hq

end Sequencer

end AudioIntake
