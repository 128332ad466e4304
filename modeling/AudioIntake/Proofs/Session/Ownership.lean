import AudioIntake.Proofs.Pipeline.Shutdown
import AudioIntake.Proofs.Session.Loops
import AudioIntake.Proofs.Wire.Verdict

/-!
# Who owns the buffers of a session

A buffer that the pool has out is with one of the receive loops, in a packet that waits in the queue,
or in a packet that the sequencer holds. `Balanced` says so. A step of a loop takes what that loop
has, does something with it, and leaves the rest alone; so it is enough to follow the packet at hand.
-/

namespace AudioIntake

namespace Session

variable {α : Type} {s t : Session α} {size : Nat} {channel : Channel} {l : Loop} {p audio : Packet}
  {received : List (Channel × Octets)}

def Balanced (size : Nat) (s : Session α) : Prop :=
  Pool.Lends size s.pipeline.pool (s.gather Loop.packets ++ s.pipeline.packets)

/-- The packets that are out and not with the loop of a channel. -/
def besides (s : Session α) (channel : Channel) : List Packet :=
  s.elsewhere Loop.packets channel ++ s.pipeline.packets

namespace Balanced

theorem at_loop (h : Balanced size s) (channel : Channel) :
    Pool.Lends size s.pipeline.pool ((s.loop channel).packets ++ s.besides channel) := by
  apply h.perm
  rw [besides, ← List.append_assoc]
  exact (s.gather_perm Loop.packets channel).append_right _

theorem setLoop (h : Pool.Lends size s.pipeline.pool (l.packets ++ s.besides channel)) :
    Balanced size (s.setLoop channel l) := by
  rw [Balanced, pipeline_setLoop]
  apply h.perm
  rw [besides, ← List.append_assoc]
  exact (s.gather_setLoop_perm Loop.packets channel l).symm.append_right _

theorem listen (h : Pool.Lends size s.pipeline.pool (s.besides channel)) :
    Balanced size (s.listen channel) := by
  apply setLoop
  exact h.acquire

theorem listen_of_stopped (h : Balanced size s) (hloop : s.loop channel = .stopped) :
    Balanced size (s.listen channel) := by
  have hat := h.at_loop channel
  rw [hloop] at hat
  exact .listen hat

/-- An action of the pipeline moves only packets that are in it or come with the action. -/
theorem act {rest : List Packet} {p : Pipeline} (a : Pipeline.Action)
    (h : Pool.Lends size p.pool (p.entering a ++ (rest ++ p.packets))) :
    Pool.Lends size (p.act a).pool (rest ++ (p.act a).packets) := by
  obtain ⟨new, gone, hpasses⟩ := p.passes_act a
  have hcustody := hpasses.custody
  rw [hpasses.pool_eq]
  apply Pool.Lends.releaseAll
  apply h.perm
  refine List.perm_iff_count.mpr fun packet => ?_
  have hcount := List.perm_iff_count.mp hcustody packet
  simp only [List.count_append] at hcount ⊢
  omega

end Balanced

/-! ### Steps of the loops -/

theorem buffer_of_judge (h : judge channel p = .sequence audio) :
    audio.pooled = p.pooled ∧ audio.buffer = p.buffer := by
  cases channel with
  | data =>
      obtain ⟨_, _, rfl⟩ := Judgement.ofData_eq_sequence_iff.mp h
      exact ⟨rfl, rfl⟩
  | control =>
      obtain ⟨_, _, _, rfl⟩ := Judgement.of_sequence_ofControl h
      exact ⟨rfl, rfl⟩
  | timing => cases h

theorem besides_learn (s : Session α) (channel : Channel) (source : α) (other : Channel) :
    (s.learn channel source).besides other = s.besides other := by
  rw [besides, elsewhere_learn, pipeline_learn, besides]

/-- A step follows the one packet that its loop has. -/
theorem balanced_stepped (h : Balanced size s) (hstep : Stepped s channel received t) :
    Balanced size t := by
  have hat := h.at_loop channel
  -- What is received goes into the buffer of the loop.
  have hreceived : ∀ buffer datagram source, s.loop channel = .listening buffer →
      Pool.Lends size (s.learn channel source).pipeline.pool
        (buffer.receive datagram :: (s.learn channel source).besides channel) := by
    intro buffer datagram source hloop
    rw [hloop] at hat
    rw [besides_learn, pipeline_learn]
    exact hat.rewrite rfl (Packet.length_buffer_overwrite buffer datagram)
  have hsubmitted : ∀ c, s.loop channel = .handing c →
      s.pipeline.entering (.submit c) = c.packets →
      Pool.Lends size (s.pipeline.submit c).pool
        (s.elsewhere Loop.packets channel ++ (s.pipeline.submit c).packets) := by
    intro c hloop hentering
    apply Balanced.act (.submit c)
    rw [hentering]
    rwa [hloop] at hat
  cases hstep with
  | still => exact h
  | @sequenced buffer audio datagram source hloop hjudge =>
      obtain ⟨hpooled, hbuffer⟩ := buffer_of_judge hjudge
      apply Balanced.setLoop
      exact (hreceived buffer datagram source hloop).rewrite hpooled (congrArg List.length hbuffer)
  | @flushed buffer datagram source hloop =>
      apply Balanced.setLoop
      exact (hreceived buffer datagram source hloop).release
  | @discarded buffer datagram source hloop =>
      apply Balanced.listen
      exact (hreceived buffer datagram source hloop).release
  | @entered c hloop _ hroom =>
      apply Balanced.listen
      exact hsubmitted c hloop (Pipeline.entering_of_room hroom c)
  | @refused c hloop hclosed =>
      apply Balanced.setLoop
      exact hsubmitted c hloop (Pipeline.entering_of_closed hclosed c)
  | @left buffer hloop =>
      rw [hloop] at hat
      apply Balanced.setLoop
      exact hat.release

theorem balanced_act (h : Balanced size s) (a : Action α) : Balanced size (s.act a) := by
  have hacted := s.acted_act a
  generalize s.heard a = received at hacted
  generalize s.act a = t at hacted ⊢
  cases hacted with
  | own b _ hentering =>
      apply Balanced.act b
      rw [hentering]
      exact h
  | transmitted => exact Balanced.act .transmit h
  | cancelled => exact h
  | stepped channel hstep => exact balanced_stepped h hstep

theorem balanced_run (h : Balanced size s) (actions : List (Action α)) :
    Balanced size (s.run actions) := by
  induction actions generalizing s with
  | nil => exact h
  | cons a actions ih => exact ih (balanced_act h a)

theorem balanced_start {settings : StreamSettings} {maxIdle : Nat} {peer : Option α}
    {taken : Option Channel} {failsOn : Option SeqNo}
    (h : start settings maxIdle peer taken failsOn = .ok s) :
    Balanced Pool.defaultBufferSize s := by
  obtain ⟨p, hp, rfl⟩ := start_eq h
  obtain ⟨-, -, -, rfl⟩ := Pipeline.start_eq hp
  apply Balanced.listen_of_stopped
  · apply Balanced.listen_of_stopped
    · apply Balanced.listen_of_stopped
      · rw [Balanced, Pipeline.packets, Pipeline.queued, StreamSettings.sequencer,
          Sequencer.ofLadder, Tables.values_empty]
        exact Pool.lends_ofSize _ maxIdle
      · rfl
    · rfl
  · rfl

end Session

end AudioIntake
