import AudioIntake.Proofs.Sequencer.NearestGap
import AudioIntake.Proofs.Settings.Rungs

/-!
# Up the ladder

A single packet waits behind a gap and nothing but ticks comes. Tick by tick the gap goes up one
level, and it is asked for on every level that has a rung below the end. So the rerequests are the
rungs that a climb meets, and they are the rungs as written exactly for the settings that pass their
check.
-/

namespace AudioIntake

namespace Sequencer

variable {s : Sequencer} {a b : Packet} {gap : Nat}

/-! ### A gap by itself -/

/-- The gap is all that is missing. -/
structure Alone (s : Sequencer) (gap : Nat) : Prop extends Faces s gap where
  only : ∀ k ∈ s.held, k = s.low + gap

/-- What a tick finds of the gap. -/
def soleRun (s : Sequencer) (gap : Nat) : Run :=
  { first := s.low, count := gap, level := s.counter s.low + 1 }

namespace Alone

theorem runs_eq (h : s.Alone gap) (hs : s.Sound) : s.age.runs = [s.soleRun gap] := by
  obtain ⟨rest, hruns, htail⟩ := h.toFaces.runs_eq hs
  rw [hruns]
  cases rest with
  | nil => rfl
  | cons next rest =>
      exfalso
      have hgap := isGap_runs_age hs next (hruns ▸ List.mem_cons_of_mem _ List.mem_cons_self)
      have hfar : gap ≤ s.low.stepsTo next.first := htail.le_steps next List.mem_cons_self
      obtain ⟨-, k, hk, hlt⟩ := hgap.lacks _ hgap.first_mem
      obtain rfl := h.only k hk
      change s.low.stepsTo next.first < s.low.stepsTo (s.low + gap) at hlt
      rw [SeqNo.stepsTo_add _ h.gap_lt] at hlt
      omega

theorem tick_report (h : s.Alone gap) (hs : s.Sound) :
    let run := s.soleRun gap
    s.tick.2.requests = (if s.ladder.Asks run.level then [run.request] else []) ∧
      s.tick.2.rerequests =
        (if s.ladder.Asks run.level then [(run.request, run.level)] else []) ∧
      s.tick.2.givenUp = if s.ladder.giveUpAt ≤ run.level then run.seqnos else [] := by
  intro run
  obtain ⟨hrequests, hrerequests, hgivenUp⟩ := Sequencer.tick_report hs
  rw [hrequests, hrerequests, hgivenUp, h.runs_eq hs, List.filter_singleton, List.filter_singleton]
  refine ⟨?_, ?_, ?_⟩
  · by_cases hasks : s.ladder.Asks run.level <;> simp [run, hasks]
  · by_cases hasks : s.ladder.Asks run.level <;> simp [run, hasks]
  · by_cases hgive : s.ladder.giveUpAt ≤ run.level <;> simp [run, hgive]

theorem tick_of_lt (h : s.Alone gap) (hs : s.Sound)
    (hlt : s.counter s.low + 1 < s.ladder.giveUpAt) :
    s.tick.1.Alone gap ∧ s.tick.1.low = s.low ∧
      s.tick.1.counter s.tick.1.low = s.counter s.low + 1 := by
  obtain ⟨hfaces, hlow, hheld, hcounter, -⟩ := h.toFaces.tick_of_lt hs hlt
  refine ⟨⟨hfaces, ?_⟩, hlow, hlow ▸ hcounter⟩
  rw [hlow, hheld]
  exact h.only

theorem tick_of_le (h : s.Alone gap) (hs : s.Sound)
    (hend : s.ladder.giveUpAt ≤ s.counter s.low + 1) : s.tick.1.held = ∅ := by
  obtain ⟨-, hgone⟩ := h.toFaces.tick_of_le hs hend
  obtain ⟨n, hsweep, -⟩ := sweeps_tick hs
  refine Std.ExtTreeMap.eq_empty_iff_forall_not_mem.mpr fun k hk => ?_
  obtain rfl := h.only k (hsweep.mem_held.mp hk).1
  exact hgone hk

end Alone

/-! ### Ticks in a row -/

def ticked (s : Sequencer) (n : Nat) : Sequencer × Report := s.run (List.replicate n .tick)

theorem ticked_succ (s : Sequencer) (n : Nat) :
    s.ticked (n + 1) = ((s.tick.1.ticked n).1, s.tick.2 ++ (s.tick.1.ticked n).2) := rfl

theorem ticked_of_held_empty (hempty : s.held = ∅) (n : Nat) : s.ticked n = (s, .empty) := by
  induction n with
  | zero => rfl
  | succ n ih =>
      rw [ticked_succ, tick_of_held_empty hempty, ih]
      rfl

/-- The ticks climb the ladder from the level after the counter of the gap. -/
theorem Alone.ticked_requests (h : s.Alone gap) (hs : s.Sound) (n : Nat) :
    let climb := (List.range' (s.counter s.low + 1) n).filter s.ladder.Asks
    let request : Rerequest := { first := s.low, count := UInt16.ofNat gap }
    (s.ticked n).2.requests = climb.map (fun _ => request) ∧
      (s.ticked n).2.rerequests = climb.map (request, ·) := by
  induction n generalizing s with
  | zero => exact ⟨rfl, rfl⟩
  | succ n ih =>
      obtain ⟨hrequests, hrerequests, -⟩ := h.tick_report hs
      rw [ticked_succ, Report.append_requests, Report.rerequests_append, hrequests, hrerequests,
        List.range'_succ, List.filter_cons]
      by_cases hlt : s.counter s.low + 1 < s.ladder.giveUpAt
      · obtain ⟨halone, hlow, hcounter⟩ := h.tick_of_lt hs hlt
        obtain ⟨ihrequests, ihrerequests⟩ := ih halone (sound_tick hs)
        rw [ihrequests, ihrerequests, hcounter, hlow, ladder_tick hs]
        by_cases hasks : s.ladder.Asks (s.counter s.low + 1)
        · simp only [soleRun, Run.request, hasks, if_true, decide_true, List.map_cons]
          exact ⟨rfl, rfl⟩
        · simp [soleRun, hasks]
      · -- The gap is gone with this tick, and on the levels above nothing is asked for.
        have hpast : ∀ level, s.counter s.low + 1 ≤ level → ¬s.ladder.Asks level := by
          intro level hle hasks
          have hbelow := hasks.2
          omega
        have hnone : (List.range' (s.counter s.low + 1 + 1) n).filter s.ladder.Asks = [] := by
          refine List.filter_eq_nil_iff.mpr fun level hlevel => ?_
          have hle := (List.mem_range'_1.mp hlevel).1
          simp [hpast level (by omega)]
        rw [ticked_of_held_empty (h.tick_of_le hs (Nat.not_lt.mp hlt)), hnone]
        simp [soleRun, hpast _ (Nat.le_refl _), Report.empty, Report.rerequests]

/-- The gap is given up on the last level, or with the first tick if its counter has come that far
already, and never again. -/
theorem Alone.ticked_givenUp (h : s.Alone gap) (hs : s.Sound) (n : Nat) :
    (s.ticked n).1.tick.2.givenUp =
      if s.counter s.low + n + 1 = max (s.counter s.low + 1) s.ladder.giveUpAt then
        (List.range gap).map (s.low + ·)
      else [] := by
  induction n generalizing s with
  | zero =>
      change s.tick.2.givenUp = _
      obtain ⟨-, -, hgivenUp⟩ := h.tick_report hs
      have hiff : s.ladder.giveUpAt ≤ s.counter s.low + 1 ↔
          s.counter s.low + 0 + 1 = max (s.counter s.low + 1) s.ladder.giveUpAt := by omega
      rw [hgivenUp]
      simp only [soleRun, hiff]
      rfl
  | succ n ih =>
      rw [ticked_succ]
      dsimp only
      by_cases hlt : s.counter s.low + 1 < s.ladder.giveUpAt
      · obtain ⟨halone, hlow, hcounter⟩ := h.tick_of_lt hs hlt
        rw [ih halone (sound_tick hs), hcounter, hlow,
          ladder_tick hs]
        have hiff : s.counter s.low + 1 + n + 1 =
              max (s.counter s.low + 1 + 1) s.ladder.giveUpAt ↔
            s.counter s.low + (n + 1) + 1 = max (s.counter s.low + 1) s.ladder.giveUpAt := by omega
        simp only [hiff]
      · have hempty := h.tick_of_le hs (Nat.not_lt.mp hlt)
        rw [ticked_of_held_empty hempty, tick_of_held_empty hempty, if_neg (by omega)]
        rfl

/-! ### From a fresh sequencer -/

/-- The second packet of the stream leaves a gap behind the first. -/
theorem alone_of_two (ladder : Ladder) (ha : a.retransmitted = false)
    (hb : b.seqno = a.seqno + (gap + 1)) (hpos : 0 < gap) (hgap : gap ≤ 8191) :
    let s := ((ofLadder ladder).run [.handle a, .handle b]).1
    s.Alone gap ∧ s.low = a.seqno.next ∧ s.counter s.low = 0 ∧ s.ladder = ladder := by
  have hbeyond : b.seqno = a.seqno.next + gap := by
    rw [hb, SeqNo.next, SeqNo.add_add, Nat.add_comm]
  have hahead : 0 < b.seqno.delta a.seqno.next := by
    have hdelta := SeqNo.delta_add_add a.seqno.next (m := 0) (n := gap) (by omega) (by omega)
    rw [SeqNo.add_zero, ← hbeyond] at hdelta
    omega
  have hfirst := handle_of_idle (sound_ofLadder ladder) rfl rfl ha
  intro s
  have hstate : s = (((ofLadder ladder).handle a).1.handle b).1 := rfl
  have hsound := sound_call (sound_ofLadder ladder) (.handle a)
  change Sound ((ofLadder ladder).handle a).1 at hsound
  rw [hfirst] at hsound hstate
  rw [handle_of_ahead hsound rfl hahead Std.ExtTreeMap.not_mem_empty] at hstate
  have hmem : ∀ k, k ∈ s.held ↔ b.seqno = k := by
    intro k
    rw [hstate]
    simp [Std.ExtTreeMap.mem_insert]
  have hlow : s.low = a.seqno.next := by rw [hstate]; rfl
  refine ⟨⟨⟨by omega, fun i hi => ?_, ?_⟩, fun k hk => ?_⟩, hlow, ?_, ?_⟩
  · rw [hmem, hlow, hbeyond]
    intro heq
    have := SeqNo.add_inj (by omega) (by omega) heq
    omega
  · rw [hmem, hlow, hbeyond]
  · rw [← (hmem k).mp hk, hlow, hbeyond]
  · rw [counter, hstate]
    simp
  · rw [hstate]
    rfl

/-- What a gap behind the first packet of a stream should meet with: a rerequest for the whole gap
on every rung as written, and its end with one certain tick. -/
structure ClimbsAsWritten (s : Sequencer) (ladder : Ladder) (request : Rerequest) : Prop where
  requests_eq : ∀ n, ladder.giveUpAt ≤ n →
    (s.ticked n).2.requests = ladder.rerequestAt.map fun _ => request
  rerequests_eq : ∀ n, ladder.giveUpAt ≤ n →
    (s.ticked n).2.rerequests = ladder.rerequestAt.map (request, ·)
  givenUp_eq : ∀ n, (s.ticked n).1.tick.2.givenUp =
    if n + 1 = ladder.giveUpAt then request.seqnos else []

theorem Alone.climbsAsWritten_iff (h : s.Alone gap) (hs : s.Sound) (hfresh : s.counter s.low = 0) :
    s.ClimbsAsWritten s.ladder { first := s.low, count := UInt16.ofNat gap } ↔
      s.ladder.WellFormed := by
  have hrequest : Rerequest.seqnos { first := s.low, count := UInt16.ofNat gap } =
      (List.range gap).map (s.low + ·) := by
    rw [Rerequest.seqnos, UInt16.toNat_ofNat_of_lt' h.gap_lt]
  have hpos := h.gap_pos hs
  constructor
  · intro hclimbs
    have hgive : 0 < s.ladder.giveUpAt := by
      by_contra hzero
      -- The first tick gives up what has come to the end of the ladder, and it is not tick zero.
      have hfirst := hclimbs.givenUp_eq 0
      rw [h.ticked_givenUp hs, if_pos (by omega), if_neg (by omega), List.map_eq_nil_iff,
        List.range_eq_nil] at hfirst
      omega
    rw [Ladder.wellFormed_iff_filter_eq hgive (Nat.le_refl _)]
    have hlevels := hclimbs.rerequests_eq _ (Nat.le_refl _)
    rw [(h.ticked_requests hs _).2, hfresh] at hlevels
    exact List.map_injective_iff.mpr (Prod.mk_right_injective _) hlevels
  · intro hladder
    have hclimb : ∀ n, s.ladder.giveUpAt ≤ n →
        (List.range' (s.counter s.low + 1) n).filter s.ladder.Asks = s.ladder.rerequestAt := by
      intro n hn
      rw [hfresh]
      exact (Ladder.wellFormed_iff_filter_eq hladder.giveUpAt_pos hn).mp hladder
    refine ⟨fun n hn => ?_, fun n hn => ?_, fun n => ?_⟩
    · rw [(h.ticked_requests hs n).1, hclimb n hn]
    · rw [(h.ticked_requests hs n).2, hclimb n hn]
    · have hgive := hladder.giveUpAt_pos
      have hiff : s.counter s.low + n + 1 = max (s.counter s.low + 1) s.ladder.giveUpAt ↔
          n + 1 = s.ladder.giveUpAt := by omega
      rw [h.ticked_givenUp hs, hrequest]
      simp only [hiff]

end Sequencer

theorem check_ok_iff_climbs_as_written (settings : StreamSettings)
    (hinterval : settings.tickIntervalMs ≠ 0) (hlead : 0 < settings.maxLead)
    (hqueue : settings.queueCapacity ≠ 0) (hrequests : settings.rerequestQueueCapacity ≠ 0) :
    settings.check = .ok () ↔
      ∀ (a b : Packet) (gap : Nat), 1 ≤ gap → gap ≤ 8190 → a.retransmitted = false →
        b.retransmitted = false → b.seqno = a.seqno + (gap + 1) →
        (settings.sequencer.run [.handle a, .handle b]).1.ClimbsAsWritten settings.ladder
          { first := a.seqno.next, count := UInt16.ofNat gap } := by
  have hiff : ∀ (a b : Packet) (gap : Nat), 1 ≤ gap → gap ≤ 8190 → a.retransmitted = false →
      b.seqno = a.seqno + (gap + 1) →
      ((settings.sequencer.run [.handle a, .handle b]).1.ClimbsAsWritten settings.ladder
          { first := a.seqno.next, count := UInt16.ofNat gap } ↔ settings.ladder.WellFormed) := by
    intro a b gap hpos hgap ha hb
    obtain ⟨halone, hlow, hfresh, hladder⟩ :=
      Sequencer.alone_of_two settings.ladder ha hb hpos (by omega)
    have hclimbs := halone.climbsAsWritten_iff (Sequencer.sound_reached _ _) hfresh
    rwa [hlow, hladder] at hclimbs
  rw [settings.check_eq_ok_iff_wellFormed]
  constructor
  · rintro ⟨hladder, -⟩ a b gap hpos hgap ha - hb
    exact (hiff a b gap hpos hgap ha hb).mpr hladder
  · intro hclimbs
    let packet := fun n => Packet.ofOctets (SeqNo.ofNat n) [] false
    have hone := hclimbs (packet 0) (packet 2) 1 (by decide) (by decide) rfl rfl rfl
    exact ⟨(hiff (packet 0) (packet 2) 1 (by decide) (by decide) rfl rfl).mp hone, hinterval, hlead,
      hqueue, hrequests⟩

/-- Three rungs, and a gap around the wrap. -/
theorem check_ok_iff_climbs_as_written_across_wrap :
    let settings := StreamSettings.default
    let packet := fun n => Packet.ofOctets (SeqNo.ofNat n) [] false
    let s := (settings.sequencer.run [.handle (packet 65534), .handle (packet 3)]).1
    settings.tickIntervalMs ≠ 0 ∧ 0 < settings.maxLead ∧ settings.queueCapacity ≠ 0 ∧
      settings.rerequestQueueCapacity ≠ 0 ∧ settings.check = .ok () ∧
      s.ClimbsAsWritten settings.ladder { first := SeqNo.ofNat 65535, count := 4 } := by
  intro settings packet s
  have hlead : 0 < settings.maxLead := by decide +kernel
  have hcheck : settings.check = .ok () := by decide +kernel
  refine ⟨by decide, hlead, by decide, by decide, hcheck, ?_⟩
  have hclimbs := (check_ok_iff_climbs_as_written settings (by decide) hlead (by decide)
    (by decide)).mp hcheck
  exact hclimbs (packet 65534) (packet 3) 4 (by decide) (by decide) rfl rfl (by decide)

end AudioIntake
