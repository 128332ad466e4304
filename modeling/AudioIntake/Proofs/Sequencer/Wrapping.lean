import AudioIntake.Proofs.Sequencer.Calls
import AudioIntake.Proofs.Sequencer.Mirror

/-!
# Wrapping loses nothing

As long as every packet handled lies within reach of the delivery point, a sequencer does to the
numbers of the stream what its unrolled counterpart does to the positions. Between two calls both
can be related anew from where the delivery point has come to, because a sound sequencer holds and
counts nothing behind it; so the numbers may wrap any number of times.
-/

namespace AudioIntake.Unrolled

open SeqNo (ofPosition)

variable {a : Int} {i : Sequencer} {s : AudioIntake.Sequencer} {p : Labelled}

namespace Mirrors

theorem ofLadder (ladder : Ladder) :
    Mirrors 0 (Sequencer.ofLadder ladder) (AudioIntake.Sequencer.ofLadder ladder) where
  ladder_eq := rfl
  started_eq := rfl
  closed_eq := rfl
  tally_eq := rfl
  low_eq := rfl
  le_low := Int.le_refl 0
  low_le := by
    change (0 : Int) ≤ 0 + 8192
    omega
  held := .empty (by omega)
  retries := .empty (by omega)

/-- Whatever is held or counted lies ahead of the delivery point, so the two can be related anew from
there. -/
theorem rebase (h : Mirrors a i s) (hs : s.Sound) : Mirrors i.low i s := by
  have hle := h.le_low
  have hge := h.low_le
  -- A position behind the delivery point would be almost a whole circle ahead of it.
  have hbehind : ∀ k : Int, a ≤ k → k < i.low →
      (s.low.stepsTo (ofPosition k) : Int) = k - i.low + 65536 := by
    intro k hlo hlt
    rw [h.low_eq]
    exact SeqNo.stepsTo_ofPosition_of_lt hlt (by omega)
  refine { h with le_low := Int.le_refl _, low_le := by omega, held := ?_, retries := ?_ }
  · refine h.held.rebound (by omega) fun {k} hk => ?_
    obtain ⟨hlo, hhi⟩ := h.held.near hk
    have hmem := (h.held.mem_iff (k := k) (by omega) (by omega)).mpr hk
    have hpos := hs.stepsTo_pos hmem
    have hfar := hs.stepsTo_le hmem
    have hne : k ≠ i.low := by
      rintro rfl
      rw [h.low_eq, SeqNo.stepsTo_self] at hpos
      omega
    have hlow : i.low ≤ k := by
      by_contra hlt
      have hsteps := hbehind k (by omega) (by omega)
      omega
    omega
  · refine h.retries.rebound (by omega) fun {k} hk => ?_
    obtain ⟨hlo, hhi⟩ := h.retries.near hk
    have hmem := (h.retries.mem_iff (k := k) (by omega) (by omega)).mpr hk
    obtain ⟨-, n, hn, hlt⟩ := hs.lacks_of_counted hmem
    have hfar := hs.stepsTo_le hn
    have hlow : i.low ≤ k := by
      by_contra hlt
      have hsteps := hbehind k hlo (by omega)
      omega
    omega

/-! ### Packets -/

theorem refusal (p : Labelled) (d : Disposition) :
    Wraps (Sequencer.refusal p d) (AudioIntake.Sequencer.refusal p.packet d) where
  events_eq := by
    rw [AudioIntake.Sequencer.refusal, p.seqno_eq]
    rfl
  requests_eq := rfl
  released_perm := .refl _

theorem place (h : Mirrors i.low i s) (hnear : (p.position - i.low).natAbs ≤ 8191) :
    Mirrors i.low (i.place p).1 (s.place p.packet).1 ∧ Wraps (i.place p).2 (s.place p.packet).2 := by
  have herased : Mirrors i.low { i with retries := i.retries.erase p.position }
      { s with retries := s.retries.erase p.packet.seqno } := by
    refine { h with retries := ?_ }
    rw [p.seqno_eq]
    exact h.retries.erase (by omega) (by omega)
  have hlead : p.packet.seqno.delta s.low = p.position - i.low := by
    rw [p.seqno_eq, h.low_eq]
    exact SeqNo.delta_ofPosition hnear
  rw [Sequencer.place, AudioIntake.Sequencer.place]
  dsimp only
  rw [hlead]
  by_cases hzero : p.position - i.low = 0
  · rw [if_pos hzero, if_pos hzero]
    have hadvanced := herased.advance (by dsimp only; omega)
    obtain ⟨hdrained, hdelivered⟩ := hadvanced.drain
    refine ⟨hdrained, ?_, rfl, .refl _⟩
    rw [hdelivered, p.seqno_eq]
    exact congrArg
      (AudioIntake.Event.input (ofPosition p.position) p.packet.retransmitted .delivered :: ·)
      (map_wrap_output (p.packet :: _)).symm
  · rw [if_neg hzero, if_neg hzero]
    by_cases hbehind : p.position - i.low < 0
    · rw [if_pos hbehind, if_pos hbehind]
      exact ⟨herased.withTally (by rw [h.tally_eq]), refusal p .stale⟩
    · rw [if_neg hbehind, if_neg hbehind]
      have hcontains : s.held.contains p.packet.seqno = i.held.contains p.position := by
        rw [p.seqno_eq]
        exact h.held.contains_eq (by omega) (by omega)
      rw [hcontains]
      by_cases hheld : i.held.contains p.position = true
      · rw [if_pos hheld, if_pos hheld]
        exact ⟨herased.withTally (by rw [h.tally_eq]), refusal p .duplicate⟩
      · rw [if_neg hheld, if_neg hheld]
        refine ⟨{ herased with held := ?_ }, ?_, rfl, .refl _⟩
        · rw [p.seqno_eq]
          exact h.held.insert (by omega) (by omega) p.packet
        · rw [p.seqno_eq]
          rfl

theorem start (h : Mirrors i.low i s) (hs : s.Sound) (k : Int) :
    Mirrors (i.start k).low (i.start k) (s.start (ofPosition k)) := by
  rw [Sequencer.start, AudioIntake.Sequencer.start, h.started_eq]
  by_cases hstarted : i.started = true
  · rw [if_pos hstarted, if_pos hstarted]
    exact h
  · rw [if_neg hstarted, if_neg hstarted]
    have hidle : s.started = false := h.started_eq.trans (Bool.not_eq_true _ ▸ hstarted)
    have hempty := hs.held_of_idle hidle
    have hheld : ∀ j, j ∉ i.held := by
      intro j hj
      have hnear := h.held.near hj
      have hmem := (h.held.mem_iff (k := j) (by omega) (by omega)).mpr hj
      rw [hempty] at hmem
      exact Std.ExtTreeMap.not_mem_empty hmem
    have hretries : ∀ j, j ∉ i.retries := by
      intro j hj
      have hnear := h.retries.near hj
      have hmem := (h.retries.mem_iff (k := j) (by omega) (by omega)).mpr hj
      exact hs.not_lacks_of_idle hidle (hs.lacks_of_counted hmem)
    exact
      { h with
        started_eq := rfl
        low_eq := rfl
        le_low := Int.le_refl _
        low_le := by dsimp only; omega
        held := h.held.rebound (by omega) fun {j} hj => absurd hj (hheld j)
        retries := h.retries.rebound (by omega) fun {j} hj => absurd hj (hretries j) }

theorem countReceived (h : Mirrors a i s) : Mirrors a i.countReceived s.countReceived :=
  h.withTally (by rw [h.tally_eq])

theorem handle (h : Mirrors i.low i s) (hs : s.Sound)
    (hnear : i.started = true → (p.position - i.low).natAbs ≤ 8191) :
    ∃ a, Mirrors a (i.handle p).1 (s.handle p.packet).1 ∧
      Wraps (i.handle p).2 (s.handle p.packet).2 := by
  have hcounted : Mirrors i.low i.countReceived s.countReceived := h.countReceived
  have hsound : s.countReceived.Sound := hs.withTally _
  rw [Sequencer.handle, AudioIntake.Sequencer.handle, h.closed_eq]
  by_cases hclosed : i.closed = true
  · rw [if_pos hclosed, if_pos hclosed]
    exact ⟨_, h, refusal p .closed⟩
  · rw [if_neg hclosed, if_neg hclosed]
    dsimp only
    have hsame : s.countReceived.started = i.countReceived.started := hcounted.started_eq
    by_cases hlate : (!i.countReceived.started && p.packet.retransmitted) = true
    · rw [if_pos hlate, if_pos (hsame ▸ hlate)]
      exact ⟨_, hcounted.withTally (by rw [hcounted.tally_eq]), refusal p .notStarted⟩
    · rw [if_neg hlate, if_neg (hsame ▸ hlate)]
      have hstarted := Mirrors.start (i := i.countReceived) hcounted hsound p.position
      have hreach : (p.position - (i.countReceived.start p.position).low).natAbs ≤ 8191 := by
        rw [Sequencer.start]
        split
        · rename_i hbegun
          exact hnear hbegun
        · simp
      rw [← p.seqno_eq] at hstarted
      exact ⟨_, hstarted.place hreach⟩

theorem discard (h : Mirrors a i s) (p : Labelled) :
    Mirrors a (i.discard p).1 (s.discard p.packet).1 ∧
      Wraps (i.discard p).2 (s.discard p.packet).2 := by
  rw [Sequencer.discard, AudioIntake.Sequencer.discard, h.closed_eq]
  by_cases hclosed : i.closed = true
  · rw [if_pos hclosed, if_pos hclosed]
    exact ⟨h, rfl, rfl, .refl _⟩
  · rw [if_neg hclosed, if_neg hclosed]
    have hcounted := h.countReceived
    exact ⟨hcounted.withTally (by rw [hcounted.tally_eq]), refusal p .stale⟩

/-! ### Calls and runs -/

theorem forget (h : Mirrors a i s) : Mirrors a i.forget s.forget :=
  { h with started_eq := rfl, held := .empty (by omega), retries := .empty (by omega) }

theorem flush (h : Mirrors a i s) :
    Mirrors a i.flush.1 s.flush.1 ∧ Wraps i.flush.2 s.flush.2 :=
  ⟨h.forget.withTally (by rw [h.tally_eq]), rfl, rfl, h.held.values_perm⟩

theorem close (h : Mirrors a i s) :
    Mirrors a i.close.1 s.close.1 ∧ Wraps i.close.2 s.close.2 :=
  ⟨{ h.forget with closed_eq := rfl }, rfl, rfl, h.held.values_perm⟩

theorem call (h : Mirrors i.low i s) (hs : s.Sound) (c : Sequencer.Call) (hc : i.Reaches c) :
    Mirrors (i.call c).1.low (i.call c).1 (s.call c.wrap).1 ∧
      Wraps (i.call c).2 (s.call c.wrap).2 := by
  have hstep : ∃ a, Mirrors a (i.call c).1 (s.call c.wrap).1 ∧
      Wraps (i.call c).2 (s.call c.wrap).2 := by
    cases c with
    | handle p => exact h.handle hs hc
    | discard p => exact ⟨_, h.discard p⟩
    | tick => exact ⟨_, h.tick hs⟩
    | flush => exact ⟨_, h.flush⟩
    | close => exact ⟨_, h.close⟩
  obtain ⟨a, hmirrors, hwraps⟩ := hstep
  exact ⟨hmirrors.rebase (AudioIntake.Sequencer.sound_call hs c.wrap), hwraps⟩

theorem run (h : Mirrors i.low i s) (hs : s.Sound) {cs : List Sequencer.Call}
    (hcs : i.InReach cs) :
    Mirrors (i.run cs).1.low (i.run cs).1 (s.run (cs.map Sequencer.Call.wrap)).1 ∧
      Wraps (i.run cs).2 (s.run (cs.map Sequencer.Call.wrap)).2 := by
  induction cs generalizing i s with
  | nil => exact ⟨h, .empty⟩
  | cons c cs ih =>
      obtain ⟨hc, hrest⟩ := hcs
      obtain ⟨hone, hreport⟩ := h.call hs c hc
      obtain ⟨hall, hreports⟩ := ih hone (AudioIntake.Sequencer.sound_call hs c.wrap) hrest
      exact ⟨hall, hreport.append hreports⟩

theorem stats_eq (h : Mirrors a i s) : s.stats = i.stats := by
  rw [AudioIntake.Sequencer.stats, Sequencer.stats, h.tally_eq, h.held.size_eq]

theorem low?_eq (h : Mirrors a i s) : s.low? = i.low?.map ofPosition := by
  rw [AudioIntake.Sequencer.low?, Sequencer.low?, h.started_eq, h.low_eq]
  split <;> rfl

end Mirrors

/-- For every run of calls that handles no packet out of reach: the events of the sequencer, and with
them every disposition, delivery, rerequest and eviction, are those of its unrolled counterpart with
numbers in the place of positions; the packets delivered are the same and in the same order, those
let go are the same, the counts are equal, and the delivery point is the number of the unrolled one.
The runs that a further tick would work off are the same too, levels included. -/
theorem wrapped_run (ladder : Ladder) (calls : List Sequencer.Call)
    (hreach : (Sequencer.ofLadder ladder).InReach calls) :
    let i := (Sequencer.ofLadder ladder).run calls
    let s := (AudioIntake.Sequencer.ofLadder ladder).run (calls.map Sequencer.Call.wrap)
    s.2.events = i.2.events.map Event.wrap ∧ s.2.requests = i.2.requests.map Rerequest.wrap ∧
      s.2.delivered = i.2.delivered ∧ s.2.released.Perm i.2.released ∧ s.1.stats = i.1.stats ∧
      s.1.low = ofPosition i.1.low ∧ s.1.low? = i.1.low?.map ofPosition ∧
      s.1.age.runs = i.1.age.runs.map Run.wrap := by
  intro i s
  have hstart := (Mirrors.ofLadder ladder).run (AudioIntake.Sequencer.sound_ofLadder ladder) hreach
  obtain ⟨hmirrors, hwraps⟩ := hstart
  have hs : s.1.Sound := AudioIntake.Sequencer.sound_reached ladder _
  have hage := hmirrors.age hs.toOrdered
  have hordered : s.1.age.Ordered := ⟨hs.seqno_eq, hs.ahead⟩
  have hruns := Mirrors.runs (i := i.1.age) hage hordered
  exact ⟨hwraps.events_eq, hwraps.requests_eq, hwraps.delivered_eq, hwraps.released_perm,
    hmirrors.stats_eq, hmirrors.low_eq, hmirrors.low?_eq, hruns.1⟩

/-- A stream that crosses the wrap with a gap around it, and a packet as far behind as may be. -/
theorem wrapped_run_across_wrap :
    let packet : Int → Labelled := fun k =>
      { position := k, packet := Packet.ofOctets (ofPosition k) [] false, seqno_eq := rfl }
    let ladder : Ladder := { rerequestAt := [1], giveUpAt := 2 }
    let calls : List Sequencer.Call :=
      [.handle (packet 65534), .handle (packet 65537), .tick, .handle (packet 57344), .tick]
    (Sequencer.ofLadder ladder).InReach calls ∧
      ((Sequencer.ofLadder ladder).run calls).1.low? = some 65538 ∧
      ((AudioIntake.Sequencer.ofLadder ladder).run (calls.map Sequencer.Call.wrap)).1.low? =
        some (SeqNo.ofNat 2) := by
  intro packet ladder calls
  have hreach : (Sequencer.ofLadder ladder).InReach calls := by decide +kernel
  have hlow : ((Sequencer.ofLadder ladder).run calls).1.low? = some 65538 := by decide +kernel
  refine ⟨hreach, hlow, ?_⟩
  obtain ⟨-, -, -, -, -, -, hwrapped, -⟩ := wrapped_run ladder calls hreach
  rw [hwrapped, hlow]
  rfl

end AudioIntake.Unrolled
