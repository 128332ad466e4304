import AudioIntake.Proofs.Sequencer.Accounting
import AudioIntake.Proofs.Sequencer.Restart

/-!
# Second copies

A packet that has been taken in is held until it is delivered, and from then on its number lies
behind the delivery point. As long as `delta` sees it there, whoever hands the number in again is
turned away: the copy is counted, and all that is called afterwards is answered as if it had not
come.
-/

namespace AudioIntake.Sequencer

variable {s : Sequencer} {p copy : Packet} {d : Disposition} {extra : Tally} {n : SeqNo}

/-- The packet is delivered at once, or it is held. -/
def Accepts (s : Sequencer) (p : Packet) : Prop :=
  .input p.seqno p.retransmitted .delivered ∈ (s.handle p).2.events ∨
    .input p.seqno p.retransmitted .held ∈ (s.handle p).2.events

/-- The number is held, or the delivery point has passed it and is not yet so far ahead that `delta`
could lose sight of it. -/
def Remembers (s : Sequencer) (n : SeqNo) : Prop :=
  n ∈ s.held ∨ ∃ past, 1 ≤ past ∧ past ≤ 8191 ∧ s.low = n + past

/-- How a packet is turned away, and what that adds to the counts. -/
inductive TurnsAway (s : Sequencer) (p : Packet) : Disposition → Tally → Prop where
  | duplicate (hheld : p.seqno ∈ s.held) :
      TurnsAway s p .duplicate { Tally.zero with received := 1, duplicates := 1 }
  | stale (hfree : p.seqno ∉ s.held) :
      TurnsAway s p .stale { Tally.zero with received := 1, stale := 1 }

theorem TurnsAway.of_not_held (h : s.TurnsAway copy d extra)
    (hfree : s.held.contains copy.seqno = false) :
    d = .stale ∧ extra = { Tally.zero with received := 1, stale := 1 } := by
  cases h with
  | duplicate hheld =>
      rw [Std.ExtTreeMap.contains_iff_mem.mpr hheld] at hfree
      cases hfree
  | stale => exact ⟨rfl, rfl⟩

/-! ### The copy -/

theorem delta_neg_of_passed {past : Nat} (hpos : 1 ≤ past) (hnear : past ≤ 8191)
    (hlow : s.low = n + past) : n.delta s.low < 0 := by
  have hdelta := SeqNo.delta_add_add n (m := past) (n := 0) (by omega) (by omega)
  rw [SeqNo.add_zero, ← hlow] at hdelta
  omega

theorem Remembers.turnsAway (hs : s.Sound) (hstarted : s.started = true)
    (h : s.Remembers copy.seqno) :
    ∃ d extra, s.TurnsAway copy d extra ∧
      s.call (.handle copy) = ({ s with tally := s.tally + extra }, refusal copy d) := by
  rcases h with hheld | ⟨past, hpos, hnear, hlow⟩
  · exact ⟨.duplicate, _, .duplicate hheld, handle_of_held hs hheld⟩
  · have hbehind := delta_neg_of_passed hpos hnear hlow
    have hfree : copy.seqno ∉ s.held := fun hheld => by
      have hahead := hs.ahead hheld
      omega
    exact ⟨.stale, _, .stale hfree, handle_of_behind hs hstarted hbehind⟩

/-! ### The calls around it -/

theorem started_of_accepts (hs : s.Sound) (h : s.Accepts p) : (s.handle p).1.started = true := by
  have hhandled := handled_handle hs p
  rw [Accepts] at h
  generalize (s.handle p).1 = t at hhandled ⊢
  generalize (s.handle p).2 = r at hhandled h
  cases hhandled with
  | closed => simp [refusal] at h
  | notStarted => simp [refusal] at h
  | placed _ _ hplaced => rw [hplaced.started_eq, started_start]

theorem replies_append (s : Sequencer) (cs ds : List Call) :
    s.replies (cs ++ ds) = s.replies cs ++ (s.run cs).1.replies ds := by
  induction cs generalizing s with
  | nil => rfl
  | cons c cs ih =>
      rw [List.cons_append, replies, replies, ih, run_cons, List.cons_append]

/-- What follows on a packet that is only counted runs as it would without it. -/
theorem run_counted (hcounted : s.call (.handle copy) =
      ({ s with tally := s.tally + extra }, refusal copy d)) (after : List Call) :
    s.run (.handle copy :: after) =
      ({ (s.run after).1 with tally := (s.run after).1.tally + extra },
        refusal copy d ++ (s.run after).2) := by
  rw [run_cons, hcounted]
  dsimp only
  rw [run_add_tally]

theorem replies_counted (hs : s.Sound) (hcounted : s.call (.handle copy) =
      ({ s with tally := s.tally + extra }, refusal copy d)) (after : List Call) :
    s.replies (.handle copy :: after) = s.reply (refusal copy d) :: s.replies after := by
  have hsame := (Alike.recount s (s.tally + extra)).replies_eq hs (hs.withTally _) after
  rw [replies, hcounted]
  dsimp only
  rw [hsame]
  rfl

/-- A packet was taken in, and no flush and no close came since. While its number is held, or while
the delivery point is at most 8191 numbers past it, a copy of it changes nothing but two counts:
whatever is called then, the sequencer ends with the same tables and the same delivery point, it
delivers the same packets, and each call gets the reply that it would get without the copy. -/
theorem copy_only_counted (ladder : Ladder) (before between : List Call) (p copy : Packet)
    (haccepted : ((ofLadder ladder).run before).1.Accepts p)
    (hbetween : ∀ c ∈ between, c ≠ .flush ∧ c ≠ .close)
    (hcopy : copy.seqno = p.seqno)
    (hremembers : ((ofLadder ladder).run (before ++ .handle p :: between)).1.Remembers p.seqno) :
    let fresh := ofLadder ladder
    let calls := before ++ .handle p :: between
    let s := (fresh.run calls).1
    ∃ d extra, s.TurnsAway copy d extra ∧ ∀ after,
      let plain := fresh.run (calls ++ after)
      let doubled := fresh.run (calls ++ .handle copy :: after)
      doubled.1 = { plain.1 with tally := plain.1.tally + extra } ∧
        doubled.2.delivered = plain.2.delivered ∧
        fresh.replies (calls ++ after) = fresh.replies calls ++ s.replies after ∧
        fresh.replies (calls ++ .handle copy :: after) =
          fresh.replies calls ++ s.reply (refusal copy d) :: s.replies after := by
  intro fresh calls s
  have hbefore := sound_reached ladder before
  have hs : s.Sound := sound_reached ladder calls
  have hstarted : s.started = true := by
    have hbegun := started_of_accepts hbefore haccepted
    have hsound := sound_call hbefore (.handle p)
    obtain ⟨n, haccounts⟩ := accounts_run hsound hbegun hbetween
    have hstate : s = (((fresh.run before).1.handle p).1.run between).1 := by
      simp only [s, calls, run_append, run_cons]
      rfl
    rw [hstate]
    exact haccounts.started_eq.trans hbegun
  obtain ⟨d, extra, hturned, hcounted⟩ := Remembers.turnsAway hs hstarted (hcopy ▸ hremembers)
  refine ⟨d, extra, hturned, ?_⟩
  intro after plain doubled
  have hplain : plain = ((s.run after).1, (fresh.run calls).2 ++ (s.run after).2) :=
    run_append fresh calls after
  have hdoubled : doubled =
      ((s.run (.handle copy :: after)).1,
        (fresh.run calls).2 ++ (s.run (.handle copy :: after)).2) :=
    run_append fresh calls (.handle copy :: after)
  have hreplies : fresh.replies (calls ++ .handle copy :: after) =
      fresh.replies calls ++ s.replies (.handle copy :: after) :=
    replies_append fresh calls (.handle copy :: after)
  rw [run_counted hcounted] at hdoubled
  rw [replies_counted hs hcounted] at hreplies
  refine ⟨?_, ?_, replies_append fresh calls after, hreplies⟩
  · rw [hdoubled, hplain]
  · rw [hdoubled, hplain]
    simp [Report.delivered, refusal, Event.delivery?, List.filterMap_cons]

/-- A number behind the wrap is held, its gap is given up, and a retransmitted copy with another
payload comes when the delivery point has gone on around the wrap. -/
theorem copy_only_counted_across_wrap :
    let packet := fun n => Packet.ofOctets (SeqNo.ofNat n) [] false
    let ladder : Ladder := { rerequestAt := [1], giveUpAt := 2 }
    let before := [Call.handle (packet 65533)]
    let p := packet 65535
    let between := [Call.handle (packet 1), .tick, .tick]
    let copy := Packet.ofOctets (SeqNo.ofNat 65535) [7] true
    let after := [Call.handle (packet 3), .tick]
    let calls := before ++ .handle p :: between
    let s := ((ofLadder ladder).run calls).1
    ((ofLadder ladder).run before).1.Accepts p ∧
      (∀ c ∈ between, c ≠ .flush ∧ c ≠ .close) ∧
      copy.seqno = p.seqno ∧
      s.Remembers p.seqno ∧
      s.TurnsAway copy .stale { Tally.zero with received := 1, stale := 1 } ∧
      ((ofLadder ladder).run (calls ++ .handle copy :: after)).2.delivered =
        [packet 65533, packet 65535, packet 1] ∧
      ((ofLadder ladder).run (calls ++ .handle copy :: after)).1.tally =
        ((ofLadder ladder).run (calls ++ after)).1.tally +
          { Tally.zero with received := 1, stale := 1 } := by
  intro packet ladder before p between copy after calls s
  have haccepted : ((ofLadder ladder).run before).1.Accepts p := Or.inr (by decide +kernel)
  have hremembers : s.Remembers p.seqno :=
    Or.inr ⟨3, by decide, by decide, by decide +kernel⟩
  have hbetween : ∀ c ∈ between, c ≠ .flush ∧ c ≠ .close := by simp [between]
  obtain ⟨d, extra, hturned, hall⟩ :=
    copy_only_counted ladder before between p copy haccepted hbetween rfl hremembers
  obtain ⟨rfl, rfl⟩ := hturned.of_not_held (by decide +kernel)
  obtain ⟨hstate, hdelivered, -⟩ := hall after
  refine ⟨haccepted, hbetween, rfl, hremembers, hturned, ?_, ?_⟩
  · rw [hdelivered]
    decide +kernel
  · rw [hstate]

end AudioIntake.Sequencer
