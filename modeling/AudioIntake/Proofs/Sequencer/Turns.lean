import AudioIntake.Proofs.Sequencer.Calls
import AudioIntake.Sequencer.Admission

/-!
# Turns

A worker lets its sequencer take one turn after another: it admits a packet, it flushes, or it
ticks. Admission is what keeps far packets out. A packet beyond the largest lead is let go when it
is retransmitted, and finds the sequencer flushed when it is primary; any other packet is handled.
-/

namespace AudioIntake

inductive Turn where
  | packet (packet : Packet)
  | flush
  | tick

namespace Sequencer

variable {s t : Sequencer} {r : Report} {p : Packet} {n : SeqNo} {maxLead : Int}

def turn (s : Sequencer) (maxLead : Int) : Turn → Sequencer × Report
  | .packet p => s.accept maxLead p
  | .flush => s.flush
  | .tick => s.tick

theorem isBeyond_iff :
    s.isBeyond maxLead n = true ↔ s.started = true ∧ maxLead < n.delta s.low := by
  rw [isBeyond, lead?]
  cases s.started <;> simp

/-- A primary packet that finds no delivery point is delivered at once, and alone. -/
theorem handle_of_idle (hs : s.Sound) (hopen : s.closed = false) (hidle : s.started = false)
    (hprimary : p.retransmitted = false) :
    s.handle p =
      ({ s with
          low := p.seqno.next
          started := true
          held := ∅
          retries := ∅
          tally :=
            { s.tally with
              received := s.tally.received + 1
              delivered := s.tally.delivered + 1 } },
        { events := [.input p.seqno p.retransmitted .delivered, .output p]
          requests := []
          released := [] }) := by
  have hempty := hs.held_of_idle hidle
  have hentry : ¬(!s.countReceived.started && p.retransmitted) = true := by
    rw [hprimary, Bool.and_false]
    decide
  rw [handle, if_neg (Bool.eq_false_iff.mp hopen)]
  dsimp only
  rw [if_neg hentry, start_of_idle (s := s.countReceived) hidle, place]
  dsimp only
  rw [SeqNo.delta_self, if_pos rfl, drain,
    deliverHeld_of_none (by simp [advance, countReceived, hempty])]
  simp [settle, advance, countReceived, hempty]

/-- An early packet that finds nothing held is held, and alone. -/
theorem handle_early (hs : s.Sound) (hstarted : s.started = true) (hempty : s.held = ∅)
    (hahead : 0 < p.seqno.delta s.low) :
    (s.handle p).2.events = [.input p.seqno p.retransmitted .held] ∧
      (s.handle p).2.requests = [] ∧ (s.handle p).1.held[p.seqno]? = some p ∧
      ∀ k ∈ (s.handle p).1.held, k = p.seqno := by
  have hfree : ∀ k, k ∉ s.held := fun k => hempty ▸ Std.ExtTreeMap.not_mem_empty
  rw [handle_of_ahead hs hstarted hahead (hfree _)]
  refine ⟨rfl, rfl, by simp, fun k hk => ?_⟩
  rcases Placed.mem_hold.mp hk with heq | hold
  · exact heq.symm
  · exact absurd hold (hfree k)

theorem accept_of_near (hnear : s.started = true → p.seqno.delta s.low ≤ maxLead) :
    s.accept maxLead p = s.handle p := by
  rw [accept, if_neg]
  intro hbeyond
  obtain ⟨hstarted, hlt⟩ := isBeyond_iff.mp hbeyond
  exact Int.not_lt.mpr (hnear hstarted) hlt

/-- The three ways in which a packet is admitted. -/
inductive Admitted (s : Sequencer) (maxLead : Int) (p : Packet) : Sequencer → Report → Prop where
  | discarded (hbeyond : s.isBeyond maxLead p.seqno = true) (hcopy : p.retransmitted = true) :
      Admitted s maxLead p (s.discard p).1 (s.discard p).2
  | flushed (hbeyond : s.isBeyond maxLead p.seqno = true) (hprimary : p.retransmitted = false) :
      Admitted s maxLead p (s.flush.1.handle p).1 (s.flush.2 ++ (s.flush.1.handle p).2)
  | handled (hnear : s.started = true → p.seqno.delta s.low ≤ maxLead) :
      Admitted s maxLead p (s.handle p).1 (s.handle p).2

theorem admitted_accept (s : Sequencer) (maxLead : Int) (p : Packet) :
    Admitted s maxLead p (s.accept maxLead p).1 (s.accept maxLead p).2 := by
  rw [accept]
  split
  · rename_i hbeyond
    split
    · rename_i hcopy
      exact .discarded hbeyond hcopy
    · rename_i hprimary
      exact .flushed hbeyond (Bool.not_eq_true _ ▸ hprimary)
  · rename_i hnear
    refine .handled fun hstarted => Int.not_lt.mp fun hlt => hnear ?_
    exact isBeyond_iff.mpr ⟨hstarted, hlt⟩

theorem Admitted.sound (hs : s.Sound) (h : Admitted s maxLead p t r) : t.Sound := by
  cases h with
  | discarded => exact sound_call hs (.discard p)
  | flushed => exact sound_call (sound_call hs .flush) (.handle p)
  | handled => exact sound_call hs (.handle p)

theorem sound_turn (hs : s.Sound) (maxLead : Int) (turn : Turn) :
    (s.turn maxLead turn).1.Sound := by
  cases turn with
  | packet p => exact (s.admitted_accept maxLead p).sound hs
  | flush => exact sound_call hs .flush
  | tick => exact sound_call hs .tick

end Sequencer

end AudioIntake
