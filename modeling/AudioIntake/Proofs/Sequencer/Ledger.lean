import AudioIntake.Proofs.Buffer.Loans
import AudioIntake.Proofs.Sequencer.Custody
import AudioIntake.Sequencer.Pooled
import Mathlib.Data.List.Perm.Basic

/-!
# The books of a sequencer

Three accounts are kept of the packets: the counts of the sequencer, the events that an observer
sees, and the count of buffers that their pool has out. After any run of calls they agree with each
other and with where the packets are.
-/

namespace AudioIntake

namespace Pool

variable {size : Nat} {pool : Pool} {ps : List Packet}

theorem Lends.lend (h : Lends size pool ps) (seqno : SeqNo) (retransmitted : Bool)
    (content : Octets) :
    Lends size (PooledSequencer.lend pool seqno retransmitted content).2
      ((PooledSequencer.lend pool seqno retransmitted content).1 :: ps) := by
  apply h.acquire.rewrite
  · rfl
  · exact Packet.length_buffer_overwrite _ _

end Pool

/-- A sequencer whose packets all come from one pool. Those taken from the pool and not yet handed
in are waiting. -/
structure Intake where
  pooled : PooledSequencer
  waiting : List Packet

namespace Intake

inductive Action where
  | lend (seqno : SeqNo) (retransmitted : Bool) (content : Octets)
  /-- The packet in the `i`-th place of those waiting is handed in. -/
  | handle (i : Nat)
  | discard (i : Nat)
  | tick
  | flush
  | close

def ofPool (pool : Pool) (ladder : Ladder) : Intake :=
  { pooled := .ofLadder pool ladder, waiting := [] }

def call (s : Intake) (c : Sequencer.Call) : Intake := { s with pooled := (s.pooled.call c).1 }

def handIn (s : Intake) (i : Nat) (c : Packet → Sequencer.Call) : Intake :=
  match s.waiting[i]? with
  | none => s
  | some p => { s with waiting := s.waiting.eraseIdx i }.call (c p)

def act (s : Intake) : Action → Intake
  | .lend seqno retransmitted content =>
    let (p, pool) := PooledSequencer.lend s.pooled.pool seqno retransmitted content
    { pooled := { s.pooled with pool }, waiting := p :: s.waiting }
  | .handle i => s.handIn i .handle
  | .discard i => s.handIn i .discard
  | .tick => s.call .tick
  | .flush => s.call .flush
  | .close => s.call .close

def run (s : Intake) (actions : List Action) : Intake := actions.foldl act s

/-- The packets that the pool has out. -/
def packets (s : Intake) : List Packet := s.pooled.sequencer.held.values ++ s.waiting

def Balanced (size : Nat) (s : Intake) : Prop := Pool.Lends size s.pooled.pool s.packets

variable {size : Nat} {s : Intake}

theorem packets_call (s : Intake) (c : Sequencer.Call) :
    (s.call c).packets = (s.pooled.sequencer.call c).1.held.values ++ s.waiting := rfl

theorem balanced_call {c : Sequencer.Call}
    (h : Pool.Lends size s.pooled.pool (s.packets ++ c.packets)) : Balanced size (s.call c) := by
  have hcustody := (s.pooled.sequencer.disposes_call c).custody
  have hmoves : (s.packets ++ c.packets).Perm
      ((s.pooled.sequencer.call c).2.delivered ++
        ((s.pooled.sequencer.call c).2.released ++ (s.call c).packets)) := by
    refine List.perm_iff_count.mpr fun p => ?_
    have hcount := List.perm_iff_count.mp hcustody p
    rw [packets_call, packets]
    simp only [List.count_append] at hcount ⊢
    omega
  exact (h.perm hmoves).releaseAll.releaseAll

theorem balanced_handIn (h : Balanced size s) (i : Nat) {c : Packet → Sequencer.Call}
    (hc : ∀ p, (c p).packets = [p]) : Balanced size (s.handIn i c) := by
  rw [handIn]
  split
  · exact h
  · rename_i p hp
    obtain ⟨hi, rfl⟩ := List.getElem?_eq_some_iff.mp hp
    apply balanced_call
    apply Pool.Lends.perm h
    rw [hc, packets, packets, List.append_assoc]
    apply List.Perm.append_left
    exact (List.getElem_cons_eraseIdx_perm hi).symm.trans (List.perm_append_singleton _ _).symm

theorem balanced_act (h : Balanced size s) (a : Action) : Balanced size (s.act a) := by
  -- A call without a packet moves only packets that are held.
  have hcall : ∀ c : Sequencer.Call, c.packets = [] → Balanced size (s.call c) := by
    intro c hc
    apply balanced_call
    rw [hc, List.append_nil]
    exact h
  cases a with
  | lend seqno retransmitted content =>
      exact (Pool.Lends.lend h seqno retransmitted content).perm List.perm_middle.symm
  | handle i => exact balanced_handIn h i fun _ => rfl
  | discard i => exact balanced_handIn h i fun _ => rfl
  | tick => exact hcall .tick rfl
  | flush => exact hcall .flush rfl
  | close => exact hcall .close rfl

theorem balanced_run (h : Balanced size s) (actions : List Action) :
    Balanced size (s.run actions) := by
  induction actions generalizing s with
  | nil => exact h
  | cons a actions ih => exact ih (balanced_act h a)

theorem balanced_ofPool (size maxIdle : Nat) (ladder : Ladder) :
    Balanced size (ofPool (.ofSize size maxIdle) ladder) := by
  rw [Balanced, packets, ofPool, PooledSequencer.ofLadder, Sequencer.ofLadder, Tables.values_empty]
  exact Pool.lends_ofSize size maxIdle

end Intake

namespace Sequencer

/-- What was received has been delivered, turned away or dropped while held, or it is held. -/
theorem Disposes.received_split {s : Sequencer} {r : Report} {ladder : Ladder}
    {handed dropped late : List Packet}
    (h : Disposes (ofLadder ladder) s r handed dropped late) :
    s.stats.received = s.stats.delivered + s.stats.stale + s.stats.duplicates +
      s.stats.notStarted + s.stats.held + dropped.length := by
  have htally : s.tally = .ofEvents r.events := h.tally_eq.trans (Tally.zero_add _)
  have hcustody := h.custody.length_eq
  obtain ⟨refused, hreleased, htags⟩ := h.released_perm
  have hlength := hreleased.length_eq
  have hrefused : refused.length = (Tally.ofEvents r.events).stale +
      (Tally.ofEvents r.events).duplicates + (Tally.ofEvents r.events).notStarted := by
    rw [← Tally.length_refused, ← htags, List.length_map]
  have hdelivered : r.delivered.length = (Tally.ofEvents r.events).delivered := by
    rw [Report.delivered, List.length_filterMap_eq_countP]
    rfl
  have hreceived := h.received_eq
  simp only [ofLadder, Tables.values_empty, List.nil_append, List.length_append,
    Tables.length_values] at hcustody hlength
  simp only [stats, htally]
  omega

theorem closed_run_close (s : Sequencer) (calls : List Call) :
    (s.run (calls ++ [.close])).1.closed = true := by
  rw [run_append]
  rfl

/-- A closed sequencer holds nothing, and lets go of what it is given uncounted. -/
theorem closed_call {s : Sequencer} (hs : s.Sound) (hclosed : s.closed = true) :
    s.stats.held = 0 ∧ ∀ c, (s.call c).1.closed = true ∧
      (s.call c).1.stats.received = s.stats.received ∧ (s.call c).2.delivered = [] ∧
      (s.call c).2.released = c.packets := by
  have hempty := hs.held_of_closed hclosed
  refine ⟨by rw [stats, hempty, Std.ExtTreeMap.size_empty], fun c => ?_⟩
  cases c with
  | handle p =>
      rw [call, handle, if_pos hclosed]
      exact ⟨hclosed, rfl, rfl, rfl⟩
  | discard p =>
      rw [call, discard, if_pos hclosed]
      exact ⟨hclosed, rfl, rfl, rfl⟩
  | tick =>
      rw [call, tick_of_held_empty hempty]
      exact ⟨hclosed, rfl, rfl, rfl⟩
  | flush =>
      rw [call, flush, hempty, Tables.values_empty]
      exact ⟨hclosed, rfl, rfl, rfl⟩
  | close =>
      rw [call, close, hempty, Tables.values_empty]
      exact ⟨rfl, rfl, rfl, rfl⟩

/-- After any run of calls every packet handed in has been delivered once, or it is held, or it has
been released; one that is released was turned away or dropped while it was held, or it came after
the close. The counts say how many, and are those of the events. Packets of one pool count as out
for as long as they are held or wait to be handed in. -/
theorem packets_accounted (ladder : Ladder) (calls : List Call) :
    let s := ((ofLadder ladder).run calls).1
    let r := ((ofLadder ladder).run calls).2
    let dropped := (ofLadder ladder).clearedIn calls
    let late := (ofLadder ladder).tooLateIn calls
    (handedIn calls).Perm (r.delivered ++ s.held.values ++ r.released) ∧
      (∃ refused, r.released.Perm (refused ++ dropped ++ late) ∧
        refused.map Packet.tag = r.events.filterMap Event.refused?) ∧
      s.stats.received = s.stats.delivered + s.stats.stale + s.stats.duplicates +
        s.stats.notStarted + s.stats.held + dropped.length ∧
      s.stats.toTally = .ofEvents r.events ∧
      r.requests = r.events.filterMap Event.request? ∧
      (s.closed = true → s.stats.held = 0 ∧ ∀ c, (s.call c).1.closed = true ∧
        (s.call c).1.stats.received = s.stats.received ∧ (s.call c).2.delivered = [] ∧
        (s.call c).2.released = c.packets) ∧
      ∀ size maxIdle actions,
        let intake := (Intake.ofPool (.ofSize size maxIdle) ladder).run actions
        intake.pooled.pool.stats.outstanding =
          intake.pooled.sequencer.stats.held + intake.waiting.length := by
  intro s r dropped late
  have hdisposes := disposes_run (ofLadder ladder) calls
  refine ⟨?_, hdisposes.released_perm, hdisposes.received_split, ?_, hdisposes.requests_eq, ?_, ?_⟩
  · have hcustody := hdisposes.custody
    rwa [ofLadder, Tables.values_empty, List.nil_append] at hcustody
  · exact hdisposes.tally_eq.trans (Tally.zero_add _)
  · exact fun hclosed => closed_call (sound_reached ladder calls) hclosed
  · intro size maxIdle actions intake
    have hbalanced := Intake.balanced_run (Intake.balanced_ofPool size maxIdle ladder) actions
    have hout := hbalanced.outstanding_eq
    rwa [Intake.packets, List.length_append, Tables.length_values] at hout

/-- Nine packets around the wrap: four are delivered, three turned away, and two dropped while they
are held. What comes after the close is let go. -/
theorem packets_accounted_across_wrap :
    let packet := fun n => Packet.ofOctets (SeqNo.ofNat n) [] false
    let copy := Packet.ofOctets (SeqNo.ofNat 7) [] true
    let calls : List Call :=
      [.handle (packet 65534), .handle (packet 0), .handle (packet 0), .handle (packet 3),
        .discard (packet 9000), .tick, .tick, .handle (packet 6), .flush, .handle copy,
        .handle (packet 9), .handle (packet 11)]
    let s := ((ofLadder { rerequestAt := [1], giveUpAt := 2 }).run (calls ++ [.close])).1
    let r := ((ofLadder { rerequestAt := [1], giveUpAt := 2 }).run (calls ++ [.close])).2
    s.closed = true ∧
      s.stats =
        { received := 9, delivered := 4, stale := 1, duplicates := 1, notStarted := 1
          rerequests := 2, evictedGaps := 2, evictedPackets := 3, flushes := 1, held := 0 } ∧
      r.delivered = [65534, 0, 3, 9].map packet ∧
      r.released = [packet 0, packet 9000, packet 6, copy, packet 11] ∧
      s.stats.toTally = .ofEvents r.events ∧ ∀ c, (s.call c).2.released = c.packets := by
  intro packet copy calls
  have hclosed := closed_run_close (ofLadder { rerequestAt := [1], giveUpAt := 2 }) calls
  have haccounted := packets_accounted { rerequestAt := [1], giveUpAt := 2 } (calls ++ [.close])
  refine ⟨hclosed, by decide +kernel, by decide +kernel, by decide +kernel, ?_, ?_⟩
  · exact haccounted.2.2.2.1
  · have hlate := haccounted.2.2.2.2.2.1 hclosed
    exact fun c => (hlate.2 c).2.2.2

end Sequencer

end AudioIntake
