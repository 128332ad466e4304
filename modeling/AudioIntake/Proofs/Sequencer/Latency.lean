import AudioIntake.Proofs.Sequencer.Calls

/-!
# How long a packet waits

Everything missing in front of a held packet has been counted up by every tick since the packet was
taken in: what is missing there later was missing there all the time. So by the tick that brings the
packet's own wait to the end of the ladder, everything in front of it has come there too, and the
sweep of that tick passes it.
-/

namespace AudioIntake.Sequencer

variable {s : Sequencer} {p : Packet} {waited : Nat} {c : Call}

/-- A packet is held, and nothing missing in front of it is younger than its own wait. -/
structure Waits (s : Sequencer) (p : Packet) (waited : Nat) : Prop where
  held : s.held[p.seqno]? = some p
  counted : ∀ j, s.Lacks j → s.low.stepsTo j < s.low.stepsTo p.seqno → waited ≤ s.counter j

/-- The call takes the packet out of what is held, by delivering it or by letting everything go. -/
def Leaves (s : Sequencer) (c : Call) (p : Packet) : Prop :=
  p.seqno ∉ (s.call c).1.held ∧
    (p ∈ (s.call c).2.delivered ∨ (c = .flush ∨ c = .close) ∧ p ∈ (s.call c).2.released)

theorem Waits.mem (h : s.Waits p waited) : p.seqno ∈ s.held :=
  (Std.ExtTreeMap.getElem?_eq_some_iff.mp h.held).1

theorem waits_of_held (hs : s.Sound)
    (hheld : .input p.seqno p.retransmitted .held ∈ (s.handle p).2.events) :
    (s.handle p).1.Waits p 0 := by
  refine ⟨?_, fun _ _ _ => Nat.zero_le _⟩
  have hhandled := handled_handle hs p
  generalize (s.handle p).1 = t at hhandled ⊢
  generalize (s.handle p).2 = r at hhandled hheld
  cases hhandled with
  | closed => simp [refusal] at hheld
  | notStarted => simp [refusal] at hheld
  | placed _ _ hplaced =>
      cases hplaced with
      | delivered => simp at hheld
      | stale => simp [refusal] at hheld
      | duplicate => simp [refusal] at hheld
      | held => simp

theorem Waits.handle (hs : s.Sound) (h : s.Waits p waited) (q : Packet) :
    s.Leaves (.handle q) p ∨ (s.handle q).1.Waits p waited := by
  have hhandled := handled_handle hs q
  rcases hhandled.held_or_delivered hs h.held with hstill | ⟨hgone, hdelivered⟩
  · refine Or.inr ⟨hstill, fun j hj hlt => ?_⟩
    obtain ⟨hmem, -⟩ := Std.ExtTreeMap.getElem?_eq_some_iff.mp hstill
    obtain ⟨hlacks, hfront⟩ := hhandled.lacked_in_front hs h.mem hmem hj hlt
    rw [hhandled.counter_eq hs hj]
    exact h.counted j hlacks hfront
  · exact Or.inl ⟨hgone, Or.inl hdelivered⟩

/-- A tick that leaves the packet waiting has counted everything in front of it once more, and the
wait has not come to the end of the ladder. -/
theorem Waits.tick (hs : s.Sound) (h : s.Waits p waited) :
    s.Leaves .tick p ∨ s.tick.1.Waits p (waited + 1) ∧ waited + 1 < s.ladder.giveUpAt := by
  obtain ⟨n, hsweep, hn⟩ := sweeps_tick hs
  rcases hsweep.held_or_delivered (k := p.seqno) h.held with hstill | ⟨hgone, hdelivered⟩
  · obtain ⟨hmem, -⟩ := Std.ExtTreeMap.getElem?_eq_some_iff.mp hstill
    refine Or.inr ⟨⟨hstill, fun j hj hlt => ?_⟩, ?_⟩
    · obtain ⟨hlacks, hfront⟩ := hsweep.lacked_in_front hmem hj hlt
      calc
        waited + 1 ≤ s.counter j + 1 := Nat.succ_le_succ (h.counted j hlacks hfront)
        _ = s.age.counter j := (counter_age hs hlacks).symm
        _ = s.tick.1.counter j := (hsweep.counter_eq hj).symm
    · -- The delivery point is missing in front of the packet, and the sweep has not passed it.
      have htick : s.tick.1.Sound := sound_call hs .tick
      have hlow := htick.lacks_low hmem
      have hpos : s.tick.1.low.stepsTo s.tick.1.low < s.tick.1.low.stepsTo p.seqno := by
        rw [SeqNo.stepsTo_self]
        exact htick.stepsTo_pos hmem
      obtain ⟨hlacks, hfront⟩ := hsweep.lacked_in_front hmem hlow hpos
      have hpassed := hn _ hlacks
      have hle := (hsweep.lacks_iff.mp hlow).2
      change n ≤ s.low.stepsTo s.tick.1.low at hle
      have hcounted := h.counted _ hlacks hfront
      by_contra hend
      have hlt := hpassed.mpr (by omega)
      omega
  · exact Or.inl ⟨hgone, Or.inl hdelivered⟩

/-- One call: the packet leaves, or it waits on, and longer by the tick if the call is one. -/
theorem Waits.call (hs : s.Sound) (h : s.Waits p waited) (c : Call) :
    s.Leaves c p ∨
      (s.call c).1.Waits p (waited + c.ticks) ∧ (c = .tick → waited + 1 < s.ladder.giveUpAt) := by
  cases c with
  | handle q =>
      rcases h.handle hs q with hleaves | hwaits
      · exact Or.inl hleaves
      · exact Or.inr ⟨hwaits, fun hc => by cases hc⟩
  | discard q =>
      refine Or.inr ⟨?_, fun hc => by cases hc⟩
      obtain ⟨tally, hstate⟩ := s.discard_state q
      change (s.discard q).1.Waits p waited
      rw [hstate]
      exact ⟨h.held, h.counted⟩
  | tick =>
      rcases h.tick hs with hleaves | ⟨hwaits, hlt⟩
      · exact Or.inl hleaves
      · exact Or.inr ⟨hwaits, fun _ => hlt⟩
  | flush =>
      exact Or.inl ⟨Std.ExtTreeMap.not_mem_empty, Or.inr ⟨Or.inl rfl, Tables.mem_values h.held⟩⟩
  | close =>
      exact Or.inl ⟨Std.ExtTreeMap.not_mem_empty, Or.inr ⟨Or.inr rfl, Tables.mem_values h.held⟩⟩

def ticks : List Call → Nat
  | [] => 0
  | c :: cs => c.ticks + ticks cs

theorem Waits.run (hs : s.Sound) (h : s.Waits p waited) (hlt : waited < max 1 s.ladder.giveUpAt)
    (cs : List Call) :
    ((s.run cs).1.Waits p (waited + ticks cs) ∧ waited + ticks cs < max 1 s.ladder.giveUpAt) ∨
      ∃ pre c post, cs = pre ++ c :: post ∧ waited + ticks pre < max 1 s.ladder.giveUpAt ∧
        (s.run pre).1.held[p.seqno]? = some p ∧ (s.run pre).1.Leaves c p := by
  induction cs generalizing s waited with
  | nil => exact Or.inl ⟨h, hlt⟩
  | cons c cs ih =>
      rcases h.call hs c with hleaves | ⟨hwaits, htick⟩
      · exact Or.inr ⟨[], c, cs, rfl, hlt, h.held, hleaves⟩
      · have hladder := ladder_call hs c
        have hbelow : waited + c.ticks < max 1 (s.call c).1.ladder.giveUpAt := by
          rw [hladder]
          cases c with
          | tick =>
              have hnext := htick rfl
              simp only [Call.ticks]
              omega
          | _ => exact hlt
        have hticks : ∀ ds, waited + ticks (c :: ds) = waited + c.ticks + ticks ds := by
          intro ds
          rw [ticks, Nat.add_assoc]
        rcases ih (sound_call hs c) hwaits hbelow with hon | ⟨pre, d, post, rfl, hpre, hheld, hleaves⟩
        · rw [hladder] at hon
          rw [run_cons, hticks]
          exact Or.inl hon
        · refine Or.inr ⟨c :: pre, d, post, rfl, ?_, ?_, ?_⟩
          · rw [hticks, ← hladder]
            exact hpre
          · rw [run_cons]
            exact hheld
          · rw [run_cons]
            exact hleaves

/-- Whatever is called after a packet was held: it is waiting still and fewer ticks than the ladder
has have gone by, or one of the calls took it out before that many ticks were over, by delivering
it or because the call let everything go. -/
theorem held_leaves_in_time (ladder : Ladder) (before after : List Call) (p : Packet)
    (hheld : .input p.seqno p.retransmitted .held ∈
      (((ofLadder ladder).run before).1.handle p).2.events) :
    let s := (((ofLadder ladder).run before).1.handle p).1
    ((s.run after).1.held[p.seqno]? = some p ∧ ticks after < max 1 ladder.giveUpAt) ∨
      ∃ pre c post, after = pre ++ c :: post ∧ ticks pre < max 1 ladder.giveUpAt ∧
        (s.run pre).1.held[p.seqno]? = some p ∧ (s.run pre).1.Leaves c p := by
  intro s
  have hbefore := sound_reached ladder before
  have hs : s.Sound := sound_call hbefore (.handle p)
  have hladder : s.ladder = ladder := (ladder_call hbefore (.handle p)).trans
    (ladder_run (sound_ofLadder ladder) before)
  have hwaits : s.Waits p 0 := waits_of_held hbefore hheld
  have hrun := hwaits.run hs (by omega) after
  rw [hladder] at hrun
  simp only [Nat.zero_add] at hrun
  rcases hrun with ⟨hon, hlt⟩ | hleft
  · exact Or.inl ⟨hon.held, hlt⟩
  · exact Or.inr hleft

/-- With another gap opening behind it, a packet held in front of the wrap leaves by the second of
two ticks. -/
theorem held_leaves_in_time_across_wrap :
    let packet := fun n => Packet.ofOctets (SeqNo.ofNat n) [] false
    let ladder : Ladder := { rerequestAt := [1], giveUpAt := 2 }
    let before := [Call.handle (packet 65533)]
    let after := [Call.tick, .handle (packet 1), .tick]
    let p := packet 65535
    .input p.seqno p.retransmitted .held ∈
        (((ofLadder ladder).run before).1.handle p).2.events ∧
      ∃ pre c post, after = pre ++ c :: post ∧ ticks pre < 2 ∧
        ((((ofLadder ladder).run before).1.handle p).1.run pre).1.Leaves c p := by
  intro packet ladder before after p
  have hheld : .input p.seqno p.retransmitted .held ∈
      (((ofLadder ladder).run before).1.handle p).2.events := by
    decide +kernel
  refine ⟨hheld, ?_⟩
  rcases held_leaves_in_time ladder before after p hheld with
    hon | ⟨pre, c, post, hafter, hpre, -, hleaves⟩
  · exact absurd hon.2 (by decide)
  · exact ⟨pre, c, post, hafter, hpre, hleaves⟩

end AudioIntake.Sequencer
