import AudioIntake.Proofs.Sequencer.Tick

/-!
# The calls keep the invariant

`Placed s p t r` lists what may come of a packet on an open sequencer that has a delivery point: it
is delivered with whatever was waiting for it, it is behind, it is a second copy, or it is held. From
that list and from the sweep of a tick follows that every reachable sequencer is sound, and that no
call but a tick changes the counter of a number that stays missing.
-/

namespace AudioIntake.Sequencer

variable {s t : Sequencer} {r : Report} {p : Packet} {k : SeqNo} {ladder : Ladder}

/-! ### Placing a packet -/

inductive Placed (s : Sequencer) (p : Packet) : Sequencer → Report → Prop where
  | delivered {t : Sequencer} {ps : List Packet} (hlow : p.seqno = s.low)
      (hdrained : Drained
        { s with
          low := s.low + 1
          retries := s.retries.erase p.seqno
          tally := { s.tally with delivered := s.tally.delivered + 1 } } t ps) :
      Placed s p t
        { events := .input p.seqno p.retransmitted .delivered :: (p :: ps).map .output
          requests := []
          released := [] }
  | stale (hbehind : p.seqno.delta s.low < 0) :
      Placed s p { s with tally := { s.tally with stale := s.tally.stale + 1 } }
        (refusal p .stale)
  | duplicate (hheld : p.seqno ∈ s.held) :
      Placed s p { s with tally := { s.tally with duplicates := s.tally.duplicates + 1 } }
        (refusal p .duplicate)
  | held (hahead : 0 < p.seqno.delta s.low) (hfree : p.seqno ∉ s.held) :
      Placed s p
        { s with held := s.held.insert p.seqno p, retries := s.retries.erase p.seqno }
        { events := [.input p.seqno p.retransmitted .held], requests := [], released := [] }

theorem placed_place (hs : s.Sound) (p : Packet) : Placed s p (s.place p).1 (s.place p).2 := by
  rw [place]
  dsimp only
  split
  · rename_i hzero
    exact .delivered (SeqNo.delta_eq_zero.mp hzero) (drained_drain _)
  · split
    · rename_i hbehind
      have hlacks : ¬s.Lacks p.seqno := fun h => by
        have := (hs.lacks_iff_delta.mp h).1
        omega
      rw [hs.erase_retries hlacks]
      exact .stale hbehind
    · split
      · rename_i hheld
        have hmem := Std.ExtTreeMap.contains_iff_mem.mp hheld
        rw [hs.erase_retries fun h => h.not_mem hmem]
        exact .duplicate hmem
      · rename_i hheld
        exact .held (by omega) fun h => hheld (Std.ExtTreeMap.contains_iff_mem.mpr h)

namespace Placed

theorem moves (hs : s.Sound) {ps : List Packet} (hlow : p.seqno = s.low)
    (hdrained : Drained
      { s with
        low := s.low + 1
        retries := s.retries.erase p.seqno
        tally := { s.tally with delivered := s.tally.delivered + 1 } } t ps) :
    Moves s t (1 + ps.length) := by
  refine hdrained.moves hs (by decide) ?_ fun k => ?_
  · intro i hi
    obtain rfl := Nat.lt_one_iff.mp hi
    rw [SeqNo.add_zero]
    exact hs.low_not_mem
  · have hzero : s.low.stepsTo k < 1 ↔ s.low = k := by
      rw [Nat.lt_one_iff, SeqNo.stepsTo_eq_zero, eq_comm]
    rw [Std.ExtTreeMap.getElem?_erase, hlow]
    simp only [Std.LawfulEqCmp.compare_eq_iff_eq, hzero]

theorem mem_hold : k ∈ s.held.insert p.seqno p ↔ p.seqno = k ∨ k ∈ s.held := by
  rw [Std.ExtTreeMap.mem_insert]
  simp only [Std.LawfulEqCmp.compare_eq_iff_eq]

theorem getElem?_retries_hold (hk : p.seqno ≠ k) :
    (s.retries.erase p.seqno)[k]? = s.retries[k]? := by
  rw [Std.ExtTreeMap.getElem?_erase]
  simp only [Std.LawfulEqCmp.compare_eq_iff_eq, hk, if_false]

theorem counter_eq (hs : s.Sound) (h : Placed s p t r) (hk : t.Lacks k) :
    t.counter k = s.counter k := by
  cases h with
  | delivered hlow hdrained => exact (moves hs hlow hdrained).counter_eq hk
  | stale => rfl
  | duplicate => rfl
  | held hahead hfree =>
      have hne : p.seqno ≠ k := fun h => hk.not_mem (mem_hold.mpr (Or.inl h))
      rw [counter, counter, Std.ExtTreeMap.getD_eq_getD_getElem?,
        Std.ExtTreeMap.getD_eq_getD_getElem?, getElem?_retries_hold hne]

/-- Holding a packet fills its own place and makes everything else in front of it missing. -/
theorem lacks_hold : Lacks
      { s with held := s.held.insert p.seqno p, retries := s.retries.erase p.seqno } k ↔
    p.seqno ≠ k ∧ k ∉ s.held ∧ ((∃ j ∈ s.held, s.low.stepsTo k < s.low.stepsTo j) ∨
      s.low.stepsTo k < s.low.stepsTo p.seqno) := by
  simp only [Lacks, mem_hold, not_or, and_assoc]
  refine and_congr_right fun _ => and_congr_right fun _ => ?_
  constructor
  · rintro ⟨j, rfl | hj, hlt⟩
    · exact Or.inr hlt
    · exact Or.inl ⟨j, hj, hlt⟩
  · rintro (⟨j, hj, hlt⟩ | hlt)
    · exact ⟨j, Or.inr hj, hlt⟩
    · exact ⟨p.seqno, Or.inl rfl, hlt⟩

theorem sound (hs : s.Sound) (hstarted : s.started = true) (h : Placed s p t r) : t.Sound := by
  have hcounter : ∀ {k : SeqNo}, t.Lacks k → t.counter k = s.counter k := h.counter_eq hs
  cases h with
  | delivered hlow hdrained => exact (moves hs hlow hdrained).sound hs
  | stale => exact hs.withTally _
  | duplicate => exact hs.withTally _
  | held hahead hfree =>
      refine
        { seqno_eq := ?_
          ahead := ?_
          held_of_idle := fun hidle => absurd (hstarted.symm.trans hidle) (by decide)
          idle_of_closed := hs.idle_of_closed
          lacks_of_counted := ?_
          counter_le := ?_
          counter_next := ?_ }
      · intro k q hq
        rw [Std.ExtTreeMap.getElem?_insert] at hq
        simp only [Std.LawfulEqCmp.compare_eq_iff_eq] at hq
        split at hq
        · rename_i heq
          cases hq
          exact heq
        · exact hs.seqno_eq hq
      · intro k hk
        rcases mem_hold.mp hk with rfl | hk
        · exact hahead
        · exact hs.ahead hk
      · intro k hk
        obtain ⟨hne, hmem⟩ := Std.ExtTreeMap.mem_erase.mp hk
        obtain ⟨hnot, hwaits⟩ := hs.lacks_of_counted hmem
        exact lacks_hold.mpr ⟨fun h => hne (Std.LawfulEqCmp.compare_eq_iff_eq.mpr h), hnot,
          Or.inl hwaits⟩
      · intro j k hj hk hle
        rw [hcounter hj, hcounter hk]
        by_cases hsk : s.Lacks k
        · exact hs.counter_le (hsk.of_le hle (lacks_hold.mp hj).2.1) hsk hle
        · rw [hs.counter_eq_zero hsk]
          exact Nat.zero_le _
      · intro k hk hnext
        rw [hcounter hk, hcounter hnext]
        have hboth : s.Lacks k ↔ s.Lacks k.next := by
          apply lacks_next_iff (lacks_hold.mp hk).2.1 (lacks_hold.mp hnext).2.1
          obtain ⟨-, j, -, hlt⟩ := hk
          have hj := s.low.stepsTo_lt j
          dsimp only at hlt
          omega
        by_cases hsk : s.Lacks k
        · exact hs.counter_next hsk (hboth.mp hsk)
        · rw [hs.counter_eq_zero hsk, hs.counter_eq_zero (mt hboth.mpr hsk)]

theorem started_eq (h : Placed s p t r) : t.started = s.started := by
  cases h with
  | delivered _ hdrained => exact hdrained.started_eq
  | stale => rfl
  | duplicate => rfl
  | held => rfl

theorem ladder_eq (h : Placed s p t r) : t.ladder = s.ladder := by
  cases h with
  | delivered _ hdrained => exact hdrained.ladder_eq
  | stale => rfl
  | duplicate => rfl
  | held => rfl

/-- A missing number stays missing until its own packet comes. -/
theorem still_lacks (hs : s.Sound) (h : Placed s p t r) (hk : s.Lacks k) (hne : p.seqno ≠ k) :
    t.Lacks k := by
  cases h with
  | @delivered t ps hlow hdrained =>
      refine (moves hs hlow hdrained).lacks_iff.mpr ⟨hk, ?_⟩
      -- Only the packet itself and held numbers are passed.
      have hpos : s.low.stepsTo k ≠ 0 := by
        rw [Ne, SeqNo.stepsTo_eq_zero, ← hlow]
        exact fun h => hne h.symm
      by_contra hpassed
      have hheld := hdrained.passed_held (s.low.stepsTo k - 1) (by omega)
      rw [Nat.add_sub_cancel' (by omega), SeqNo.add_stepsTo] at hheld
      exact hk.not_mem hheld
  | stale => exact hk
  | duplicate => exact hk
  | held => exact lacks_hold.mpr ⟨hne, hk.not_mem, Or.inl hk.2⟩

/-- What is missing in front of a packet that stays held was missing there before. -/
theorem lacked_in_front (hs : s.Sound) (h : Placed s p t r) {j : SeqNo} (hj : j ∈ s.held)
    (hjt : j ∈ t.held) (hk : t.Lacks k) (hlt : t.low.stepsTo k < t.low.stepsTo j) :
    s.Lacks k ∧ s.low.stepsTo k < s.low.stepsTo j := by
  cases h with
  | @delivered t ps hlow hdrained =>
      have hmoves := moves hs hlow hdrained
      exact hmoves.lacked_in_front hjt hk hlt
  | stale => exact ⟨hk, hlt⟩
  | duplicate => exact ⟨hk, hlt⟩
  | held => exact ⟨⟨(lacks_hold.mp hk).2.1, j, hj, hlt⟩, hlt⟩

theorem held_or_delivered (hs : s.Sound) (h : Placed s p t r) {q : Packet}
    (hq : s.held[k]? = some q) : t.held[k]? = some q ∨ (k ∉ t.held ∧ q ∈ r.delivered) := by
  cases h with
  | @delivered t ps hlow hdrained =>
      have hmoves := moves hs hlow hdrained
      by_cases hlt : s.low.stepsTo k < 1 + ps.length
      · refine Or.inr ⟨fun hk => ?_, ?_⟩
        · have hle := (hmoves.mem_held.mp hk).2
          omega
        · have hfree : ∀ i < 1, s.low + i ∉ s.held := fun i hi => by
            obtain rfl := Nat.lt_one_iff.mp hi
            rw [SeqNo.add_zero]
            exact hs.low_not_mem
          have hmem : q ∈ ps := by
            rw [hdrained.delivered_eq hfree, List.mem_filterMap]
            exact ⟨_, List.mem_range.mpr hlt, by rwa [SeqNo.add_stepsTo]⟩
          rw [Report.delivered, List.filterMap_cons, filterMap_delivery_output]
          exact List.mem_cons_of_mem p hmem
      · refine Or.inl ?_
        rw [hmoves.getElem?_held, if_neg hlt, hq]
  | stale => exact Or.inl hq
  | duplicate => exact Or.inl hq
  | held hahead hfree =>
      refine Or.inl ?_
      have hne : p.seqno ≠ k := by
        rintro rfl
        rw [Std.ExtTreeMap.getElem?_eq_none hfree] at hq
        cases hq
      rw [Std.ExtTreeMap.getElem?_insert]
      simp only [Std.LawfulEqCmp.compare_eq_iff_eq, hne, if_false, hq]

end Placed

/-! ### Handling a packet -/

inductive Handled (s : Sequencer) (p : Packet) : Sequencer → Report → Prop where
  | closed (hclosed : s.closed = true) : Handled s p s (refusal p .closed)
  | notStarted (hopen : s.closed = false) (hidle : s.started = false)
      (hcopy : p.retransmitted = true) :
      Handled s p
        { s with
          tally :=
            { s.tally with
              received := s.tally.received + 1
              notStarted := s.tally.notStarted + 1 } }
        (refusal p .notStarted)
  | placed {t : Sequencer} {r : Report} (hopen : s.closed = false)
      (hentry : s.started = true ∨ p.retransmitted = false)
      (hplaced : Placed (s.countReceived.start p.seqno) p t r) : Handled s p t r

theorem start_of_started (h : s.started = true) (n : SeqNo) : s.start n = s := if_pos h

theorem start_of_idle (h : s.started = false) (n : SeqNo) :
    s.start n = { s with low := n, started := true } := if_neg (Bool.eq_false_iff.mp h)

theorem sound_start (hs : s.Sound) (hopen : s.closed = false) (n : SeqNo) : (s.start n).Sound := by
  by_cases hstarted : s.started = true
  · rwa [start_of_started hstarted]
  · have hempty := hs.held_of_idle (Bool.not_eq_true _ ▸ hstarted)
    have hlacks : ∀ k, ¬s.Lacks k := fun k => not_lacks_of_held_empty hempty
    have hlacks' : ∀ k, ¬Lacks { s with low := n, started := true } k := fun k =>
      not_lacks_of_held_empty hempty
    rw [start, if_neg hstarted]
    exact
      { seqno_eq := hs.seqno_eq
        ahead := fun hk => by
          rw [hempty] at hk
          exact absurd hk Std.ExtTreeMap.not_mem_empty
        held_of_idle := fun h => by cases h
        idle_of_closed := fun h => by
          rw [hopen] at h
          cases h
        lacks_of_counted := fun hk => absurd (hs.lacks_of_counted hk) (hlacks _)
        counter_le := fun hj => absurd hj (hlacks' _)
        counter_next := fun hk => absurd hk (hlacks' _) }

theorem started_start (s : Sequencer) (n : SeqNo) : (s.start n).started = true := by
  rw [start]
  split
  · assumption
  · rfl

theorem retries_start (s : Sequencer) (n : SeqNo) : (s.start n).retries = s.retries := by
  rw [start]
  split <;> rfl

theorem sound_opened (hs : s.Sound) (hopen : s.closed = false) (n : SeqNo) :
    (s.countReceived.start n).Sound :=
  sound_start (hs.withTally { s.tally with received := s.tally.received + 1 }) hopen n

theorem handled_handle (hs : s.Sound) (p : Packet) : Handled s p (s.handle p).1 (s.handle p).2 := by
  rw [handle]
  split
  · rename_i hclosed
    exact .closed hclosed
  · rename_i hclosed
    have hopen := Bool.not_eq_true _ ▸ hclosed
    dsimp only
    split
    · rename_i hlate
      obtain ⟨hidle, hcopy⟩ := Bool.and_eq_true_iff.mp hlate
      exact .notStarted hopen (by simpa [countReceived] using hidle) hcopy
    · rename_i hentry
      refine .placed hopen ?_ (placed_place (sound_opened hs hopen p.seqno) p)
      cases hstarted : s.started
      · refine Or.inr (Bool.not_eq_true _ ▸ fun hcopy => hentry ?_)
        simp [countReceived, hstarted, hcopy]
      · exact Or.inl rfl

namespace Handled

theorem sound (hs : s.Sound) (h : Handled s p t r) : t.Sound := by
  cases h with
  | closed => exact hs
  | notStarted => exact hs.withTally _
  | placed hopen hentry hplaced =>
      exact hplaced.sound (sound_opened hs hopen p.seqno) (started_start _ _)

theorem counter_eq (hs : s.Sound) (h : Handled s p t r) (hk : t.Lacks k) :
    t.counter k = s.counter k := by
  cases h with
  | closed => rfl
  | notStarted => rfl
  | placed hopen hentry hplaced =>
      rw [hplaced.counter_eq (sound_opened hs hopen p.seqno) hk, counter, retries_start]
      rfl

theorem ladder_eq (h : Handled s p t r) : t.ladder = s.ladder := by
  cases h with
  | closed => rfl
  | notStarted => rfl
  | placed hopen hentry hplaced =>
      rw [hplaced.ladder_eq, start]
      split <;> rfl

/-- Once the stream has begun, every packet is placed. -/
theorem of_started (hs : s.Sound) (h : Handled s p t r) (hstarted : s.started = true) :
    Placed s.countReceived p t r := by
  cases h with
  | closed hclosed =>
      exact absurd (hstarted.symm.trans (hs.idle_of_closed hclosed)) (by decide)
  | notStarted _ hidle => exact absurd (hstarted.symm.trans hidle) (by decide)
  | placed hopen hentry hplaced =>
      rw [start_of_started (s := s.countReceived) hstarted] at hplaced
      exact hplaced

/-- Something missing means that the stream has begun. -/
theorem of_lacks (hs : s.Sound) (h : Handled s p t r) (hk : s.Lacks k) :
    Placed s.countReceived p t r := by
  refine h.of_started hs ?_
  by_contra hidle
  exact hs.not_lacks_of_idle (Bool.not_eq_true _ ▸ hidle) hk

theorem still_lacks (hs : s.Sound) (h : Handled s p t r) (hk : s.Lacks k) (hne : p.seqno ≠ k) :
    t.Lacks k :=
  (h.of_lacks hs hk).still_lacks (hs.withTally _) hk hne

theorem lacked_in_front (hs : s.Sound) (h : Handled s p t r) {j : SeqNo} (hj : j ∈ s.held)
    (hjt : j ∈ t.held) (hk : t.Lacks k) (hlt : t.low.stepsTo k < t.low.stepsTo j) :
    s.Lacks k ∧ s.low.stepsTo k < s.low.stepsTo j :=
  (h.of_lacks hs (hs.lacks_low hj)).lacked_in_front (hs.withTally _) hj hjt hk hlt

theorem held_or_delivered (hs : s.Sound) (h : Handled s p t r) {q : Packet}
    (hq : s.held[k]? = some q) : t.held[k]? = some q ∨ (k ∉ t.held ∧ q ∈ r.delivered) := by
  cases h with
  | closed => exact Or.inl hq
  | notStarted => exact Or.inl hq
  | placed hopen hentry hplaced =>
      refine hplaced.held_or_delivered (sound_opened hs hopen p.seqno) ?_
      rw [start]
      split <;> exact hq

end Handled

/-- A packet judged to be behind is counted and let go. -/
theorem handle_of_behind (hs : s.Sound) (hstarted : s.started = true)
    (hbehind : p.seqno.delta s.low < 0) :
    s.handle p =
      ({ s with
          tally :=
            { s.tally with received := s.tally.received + 1, stale := s.tally.stale + 1 } },
        refusal p .stale) := by
  have hplaced := (handled_handle hs p).of_started hs hstarted
  generalize s.handle p = result at hplaced ⊢
  obtain ⟨t, r⟩ := result
  cases hplaced with
  | delivered hlow =>
      change p.seqno = s.low at hlow
      rw [hlow, SeqNo.delta_self] at hbehind
      exact absurd hbehind (by decide)
  | stale => rfl
  | duplicate hheld =>
      have hahead := hs.ahead hheld
      omega
  | held hahead =>
      change 0 < p.seqno.delta s.low at hahead
      omega

/-- A second copy of a packet that is held is counted and let go. -/
theorem handle_of_held (hs : s.Sound) (hheld : p.seqno ∈ s.held) :
    s.handle p =
      ({ s with
          tally :=
            { s.tally with
              received := s.tally.received + 1
              duplicates := s.tally.duplicates + 1 } },
        refusal p .duplicate) := by
  have hplaced := (handled_handle hs p).of_started hs (hs.started_of_held hheld)
  generalize s.handle p = result at hplaced ⊢
  obtain ⟨t, r⟩ := result
  cases hplaced with
  | delivered hlow => exact absurd (hlow ▸ hheld) hs.low_not_mem
  | stale hbehind =>
      have hahead := hs.ahead hheld
      change p.seqno.delta s.low < 0 at hbehind
      omega
  | duplicate => rfl
  | held _ hfree => exact absurd hheld hfree

/-- A packet ahead of the delivery point is held if its number is free. -/
theorem handle_of_ahead (hs : s.Sound) (hstarted : s.started = true)
    (hahead : 0 < p.seqno.delta s.low) (hfree : p.seqno ∉ s.held) :
    s.handle p =
      ({ s.countReceived with
          held := s.held.insert p.seqno p
          retries := s.retries.erase p.seqno },
        { events := [.input p.seqno p.retransmitted .held], requests := [], released := [] }) := by
  have hplaced := (handled_handle hs p).of_started hs hstarted
  generalize s.handle p = result at hplaced ⊢
  obtain ⟨t, r⟩ := result
  cases hplaced with
  | delivered hlow =>
      change p.seqno = s.low at hlow
      rw [hlow, SeqNo.delta_self] at hahead
      exact absurd hahead (by decide)
  | stale hbehind =>
      change p.seqno.delta s.low < 0 at hbehind
      omega
  | duplicate hheld => exact absurd hheld hfree
  | held => rfl

/-! ### Calls and runs -/

def Call.ticks : Call → Nat
  | .tick => 1
  | _ => 0

theorem discard_state (s : Sequencer) (p : Packet) :
    ∃ tally, (s.discard p).1 = { s with tally } := by
  rw [discard]
  split
  · exact ⟨s.tally, rfl⟩
  · exact ⟨_, rfl⟩

theorem sound_call (hs : s.Sound) (c : Call) : (s.call c).1.Sound := by
  cases c with
  | handle p => exact (handled_handle hs p).sound hs
  | discard p =>
      obtain ⟨tally, hstate⟩ := s.discard_state p
      change Sound (s.discard p).1
      rw [hstate]
      exact hs.withTally tally
  | tick =>
      obtain ⟨n, hsweep, -⟩ := sweeps_tick hs
      exact hsweep.sound (sound_age hs)
  | flush => exact sound_forget s s.closed _
  | close => exact sound_forget s true _

theorem ladder_call (hs : s.Sound) (c : Call) : (s.call c).1.ladder = s.ladder := by
  cases c with
  | handle p => exact (handled_handle hs p).ladder_eq
  | discard p =>
      obtain ⟨tally, hstate⟩ := s.discard_state p
      change (s.discard p).1.ladder = s.ladder
      rw [hstate]
  | tick =>
      obtain ⟨n, hsweep, -⟩ := sweeps_tick hs
      exact hsweep.ladder_eq
  | flush => rfl
  | close => rfl

theorem run_cons (s : Sequencer) (c : Call) (cs : List Call) :
    s.run (c :: cs) =
      (((s.call c).1.run cs).1, (s.call c).2 ++ ((s.call c).1.run cs).2) := rfl

theorem run_append (s : Sequencer) (cs ds : List Call) :
    s.run (cs ++ ds) =
      (((s.run cs).1.run ds).1, (s.run cs).2 ++ ((s.run cs).1.run ds).2) := by
  induction cs generalizing s with
  | nil => rfl
  | cons c cs ih =>
      rw [List.cons_append, run_cons, run_cons, ih, Report.append_assoc]

theorem sound_run (hs : s.Sound) (cs : List Call) : (s.run cs).1.Sound := by
  induction cs generalizing s with
  | nil => exact hs
  | cons c cs ih => exact ih (sound_call hs c)

theorem ladder_run (hs : s.Sound) (cs : List Call) : (s.run cs).1.ladder = s.ladder := by
  induction cs generalizing s with
  | nil => rfl
  | cons c cs ih => exact (ih (sound_call hs c)).trans (ladder_call hs c)

theorem sound_reached (ladder : Ladder) (cs : List Call) : ((ofLadder ladder).run cs).1.Sound :=
  sound_run (sound_ofLadder ladder) cs

/-- A number that is missing after a call has the counter it had before, and one more for a tick;
and what was not missing before starts from nothing, for only a packet newly held makes it missing. -/
theorem counter_call (hs : s.Sound) (c : Call) (hk : (s.call c).1.Lacks k) :
    (s.call c).1.counter k = s.counter k + c.ticks ∧ (c = .tick → s.Lacks k) := by
  cases c with
  | handle p => exact ⟨(handled_handle hs p).counter_eq hs hk, fun h => by cases h⟩
  | discard p =>
      obtain ⟨tally, hstate⟩ := s.discard_state p
      refine ⟨?_, fun h => by cases h⟩
      change (s.discard p).1.counter k = s.counter k
      rw [hstate]
      rfl
  | tick =>
      obtain ⟨n, hsweep, -⟩ := sweeps_tick hs
      have hlacks : s.Lacks k := (hsweep.lacks_iff.mp hk).1
      exact ⟨(hsweep.counter_eq hk).trans (counter_age hs hlacks), fun _ => hlacks⟩
  | flush => exact absurd hk (not_lacks_of_held_empty rfl)
  | close => exact absurd hk (not_lacks_of_held_empty rfl)

end AudioIntake.Sequencer
