import AudioIntake.Proofs.Sequencer.Calls

/-!
# The stream is accounted for without a gap

From the first primary packet on, the events of a sequencer name every number exactly once and in
order, as delivered or as given up. Nothing is given up anywhere but at the delivery point.
-/

namespace AudioIntake.Sequencer

variable {s t u : Sequencer} {r r' : Report} {p : Packet} {n m : Nat} {ladder : Ladder}

/-- The events of a report account for the `n` numbers from the delivery point of `s` to the one of
`t`, and the counts of packets delivered and given up have grown by as much. -/
structure Accounts (s t : Sequencer) (r : Report) (n : Nat) : Prop where
  low_eq : t.low = s.low + n
  accounted_eq : r.accounted = (List.range n).map (s.low + ·)
  tally_eq : t.tally.delivered + t.tally.evictedPackets =
    s.tally.delivered + s.tally.evictedPackets + n
  started_eq : t.started = s.started
  closed_eq : t.closed = s.closed

namespace Accounts

theorem trans (h : Accounts s t r n) (h' : Accounts t u r' m) :
    Accounts s u (r ++ r') (n + m) where
  low_eq := by rw [h'.low_eq, h.low_eq, SeqNo.add_add]
  accounted_eq := by
    rw [Report.accounted_append, h.accounted_eq, h'.accounted_eq, range_map_add, h.low_eq]
  tally_eq := by rw [h'.tally_eq, h.tally_eq, Nat.add_assoc]
  started_eq := h'.started_eq.trans h.started_eq
  closed_eq := h'.closed_eq.trans h.closed_eq

theorem still (tally : Tally)
    (htally : tally.delivered + tally.evictedPackets =
      s.tally.delivered + s.tally.evictedPackets)
    (haccounted : r.accounted = []) : Accounts s { s with tally } r 0 where
  low_eq := (SeqNo.add_zero _).symm
  accounted_eq := haccounted
  tally_eq := htally
  started_eq := rfl
  closed_eq := rfl

end Accounts

/-! ### One call -/

theorem Placed.accounts (hs : s.Sound) (h : Placed s p t r) : ∃ n, Accounts s t r n := by
  cases h with
  | @delivered t ps hlow hdrained =>
      have hmoves := Placed.moves hs hlow hdrained
      refine ⟨1 + ps.length, hmoves.low_eq, ?_, ?_, hmoves.started_eq, hmoves.closed_eq⟩
      · have hseqnos := hdrained.map_seqno hs.seqno_eq
        rw [Report.accounted, List.flatMap_cons, flatMap_accounted_output, List.map_cons, hseqnos,
          range_map_add, hlow]
        simp [Event.accounted]
      · rw [hdrained.tally_eq]
        dsimp only
        omega
  | stale => exact ⟨0, .still _ rfl rfl⟩
  | duplicate => exact ⟨0, .still _ rfl rfl⟩
  | held =>
      exact ⟨0, (SeqNo.add_zero _).symm, rfl, rfl, rfl, rfl⟩

/-- The packet that sets the delivery point is delivered. -/
theorem Placed.accounts_pos (hs : s.Sound) (hlow : p.seqno = s.low) (h : Placed s p t r) :
    ∃ n, 0 < n ∧ Accounts s t r n := by
  obtain ⟨n, haccounts⟩ := h.accounts hs
  refine ⟨n, ?_, haccounts⟩
  have hzero : p.seqno.delta s.low = 0 := by rw [hlow, SeqNo.delta_self]
  cases h with
  | delivered =>
      have hlen := congrArg List.length haccounts.accounted_eq
      simp [Report.accounted, Event.accounted] at hlen
      omega
  | stale hbehind => omega
  | duplicate hheld => exact absurd (hlow ▸ hheld) hs.low_not_mem
  | held hahead => omega

theorem accounts_discard (s : Sequencer) (p : Packet) :
    Accounts s (s.discard p).1 (s.discard p).2 0 := by
  rw [discard]
  split
  · exact .still _ rfl rfl
  · exact .still _ rfl rfl

theorem accounts_tick (hs : s.Sound) : ∃ n, Accounts s s.tick.1 s.tick.2 n := by
  obtain ⟨n, hsweep, -⟩ := sweeps_tick hs
  exact ⟨n, hsweep.low_eq, hsweep.accounted_eq, hsweep.tally_eq, hsweep.started_eq,
    hsweep.closed_eq⟩

theorem accounts_handle (hs : s.Sound) (hstarted : s.started = true) (p : Packet) :
    ∃ n, Accounts s (s.handle p).1 (s.handle p).2 n := by
  have hplaced := (handled_handle hs p).of_started hs hstarted
  obtain ⟨n, h⟩ := hplaced.accounts (hs.withTally _)
  exact ⟨n, h.low_eq, h.accounted_eq, h.tally_eq, h.started_eq, h.closed_eq⟩

/-! ### Runs of calls -/

/-- The number of the first primary packet that is handled, which sets the delivery point. -/
def firstPrimary? : List Call → Option SeqNo
  | [] => none
  | .handle p :: cs => if p.retransmitted then firstPrimary? cs else some p.seqno
  | _ :: cs => firstPrimary? cs

theorem accounts_run (hs : s.Sound) (hstarted : s.started = true) {cs : List Call}
    (hcs : ∀ c ∈ cs, c ≠ .flush ∧ c ≠ .close) :
    ∃ n, Accounts s (s.run cs).1 (s.run cs).2 n := by
  induction cs generalizing s with
  | nil => exact ⟨0, .still _ rfl rfl⟩
  | cons c cs ih =>
      obtain ⟨hflush, hclose⟩ := hcs c List.mem_cons_self
      have hcall : ∃ n, Accounts s (s.call c).1 (s.call c).2 n := by
        cases c with
        | handle p => exact accounts_handle hs hstarted p
        | discard p => exact ⟨0, accounts_discard s p⟩
        | tick => exact accounts_tick hs
        | flush => exact absurd rfl hflush
        | close => exact absurd rfl hclose
      obtain ⟨n, hn⟩ := hcall
      obtain ⟨m, hm⟩ := ih (sound_call hs c) (hn.started_eq.trans hstarted) fun c hc =>
        hcs c (List.mem_cons_of_mem _ hc)
      exact ⟨n + m, hn.trans hm⟩

/-- What the events of a run account for, on a sequencer without a delivery point. -/
def AccountedFrom (s t : Sequencer) (r : Report) : Option SeqNo → Prop
  | none =>
      r.accounted = [] ∧ t.low? = none ∧ t.tally.delivered + t.tally.evictedPackets =
        s.tally.delivered + s.tally.evictedPackets
  | some first =>
      ∃ n, 0 < n ∧ r.accounted = (List.range n).map (first + ·) ∧ t.low? = some (first + n) ∧
        t.tally.delivered + t.tally.evictedPackets =
          s.tally.delivered + s.tally.evictedPackets + n

theorem AccountedFrom.of_still {first? : Option SeqNo} (h : Accounts s t r 0)
    (h' : AccountedFrom t u r' first?) : AccountedFrom s u (r ++ r') first? := by
  have haccounted : (r ++ r').accounted = r'.accounted := by
    rw [Report.accounted_append, h.accounted_eq]
    rfl
  have htally := h.tally_eq
  cases first? with
  | none =>
      obtain ⟨hnone, hlow, hsame⟩ := h'
      exact ⟨haccounted.trans hnone, hlow, by omega⟩
  | some first =>
      obtain ⟨n, hpos, hall, hlow, hgrown⟩ := h'
      exact ⟨n, hpos, haccounted.trans hall, hlow, by omega⟩

theorem accountedFrom_primary (hs : s.Sound) (hopen : s.closed = false) (hidle : s.started = false)
    (hprimary : p.retransmitted = false) {cs : List Call}
    (hcs : ∀ c ∈ cs, c ≠ .flush ∧ c ≠ .close) :
    AccountedFrom s (s.run (.handle p :: cs)).1 (s.run (.handle p :: cs)).2 (some p.seqno) := by
  have hhandled := handled_handle hs p
  rw [run_cons]
  change AccountedFrom s ((s.handle p).1.run cs).1 ((s.handle p).2 ++ ((s.handle p).1.run cs).2) _
  generalize (s.handle p).1 = t at hhandled ⊢
  generalize (s.handle p).2 = r at hhandled ⊢
  have hsound := hhandled.sound hs
  cases hhandled with
  | closed hclosed => exact absurd (hopen.symm.trans hclosed) (by decide)
  | notStarted _ _ hcopy => exact absurd (hprimary.symm.trans hcopy) (by decide)
  | placed _ _ hplaced =>
      have hopened := sound_opened hs hopen p.seqno
      rw [start_of_idle (s := s.countReceived) hidle] at hplaced hopened
      obtain ⟨n, hpos, hfirst⟩ := hplaced.accounts_pos hopened rfl
      obtain ⟨m, hrest⟩ := accounts_run hsound hfirst.started_eq hcs
      have hall := hfirst.trans hrest
      refine ⟨n + m, by omega, hall.accounted_eq, ?_, hall.tally_eq⟩
      rw [low?, hall.started_eq, if_pos rfl, hall.low_eq]

theorem accountedFrom_run (hs : s.Sound) (hopen : s.closed = false) (hidle : s.started = false)
    {cs : List Call} (hcs : ∀ c ∈ cs, c ≠ .flush ∧ c ≠ .close) :
    AccountedFrom s (s.run cs).1 (s.run cs).2 (firstPrimary? cs) := by
  induction cs generalizing s with
  | nil => exact ⟨rfl, by rw [low?, run, hidle]; rfl, rfl⟩
  | cons c cs ih =>
      obtain ⟨hflush, hclose⟩ := hcs c List.mem_cons_self
      have hrest := fun c' hc' => hcs c' (List.mem_cons_of_mem c hc')
      -- A call that leaves the sequencer idle is followed by the rest of the run.
      have hskip : Accounts s (s.call c).1 (s.call c).2 0 →
          AccountedFrom s (s.run (c :: cs)).1 (s.run (c :: cs)).2 (firstPrimary? cs) := by
        intro hstill
        exact .of_still hstill (ih (sound_call hs c) (hstill.closed_eq.trans hopen)
          (hstill.started_eq.trans hidle) hrest)
      cases c with
      | discard p => exact hskip (accounts_discard s p)
      | tick =>
          apply hskip
          change Accounts s s.tick.1 s.tick.2 0
          rw [tick_of_held_empty (hs.held_of_idle hidle)]
          exact .still _ rfl rfl
      | flush => exact absurd rfl hflush
      | close => exact absurd rfl hclose
      | handle p =>
          by_cases hcopy : p.retransmitted = true
          · rw [firstPrimary?, if_pos hcopy]
            apply hskip
            change Accounts s (s.handle p).1 (s.handle p).2 0
            have hlate : (!s.countReceived.started && p.retransmitted) = true := by
              rw [hcopy, countReceived, hidle]
              rfl
            rw [handle, if_neg (Bool.eq_false_iff.mp hopen)]
            dsimp only
            rw [if_pos hlate]
            exact .still _ rfl rfl
          · rw [firstPrimary?, if_neg hcopy]
            exact accountedFrom_primary hs hopen hidle (Bool.not_eq_true _ ▸ hcopy) hrest

/-! ### Where runs are given up -/

/-- When a tick comes to a run that it gives up, it has given up all nearer ones, and the delivery
point stands where the run begins. -/
theorem first_eq_low_of_given_up {done rest : List Run} {run : Run} (hs : s.Sound)
    (h : Tiled s 0 (done ++ run :: rest)) (hgive : s.ladder.giveUpAt ≤ run.level) :
    run.first = (s.escalateAll done).1.low := by
  induction done generalizing s with
  | nil => exact (h.head hs).1
  | cons nearer done ih =>
      have hgap := h.isGap (Or.inl rfl) run (by simp)
      have hmem := hgap.first_mem
      have hlevel : s.ladder.giveUpAt ≤ nearer.level := by
        have hle := h.level_le hs (hgap.lacks _ hmem)
        rw [hgap.counter_eq _ hmem] at hle
        omega
      obtain ⟨n, hsweep, htiled, -⟩ := sweeps_evict hs h
      rw [escalateAll_cons, escalate_of_le hlevel]
      exact ih (hsweep.sound hs) htiled (hsweep.ladder_eq ▸ hgive)

/-- No number comes back before the whole circle has been walked. -/
theorem nodup_of_isInfix {first : SeqNo} {lap : List SeqNo}
    (h : lap <:+: (List.range n).map (first + ·)) (hlap : lap.length ≤ 65536) : lap.Nodup := by
  obtain ⟨before, after, hall⟩ := h
  have hget : ∀ i (hi : i < lap.length), lap[i] = first + (before.length + i) := by
    intro i hi
    have hin : before.length + i < n := by
      have hlen := congrArg List.length hall
      simp only [List.length_append, List.length_map, List.length_range] at hlen
      omega
    have hentry := congrArg (·[before.length + i]?) hall
    rw [List.append_assoc, List.getElem?_append_right (by omega), Nat.add_sub_cancel_left,
      List.getElem?_append_left hi, List.getElem?_eq_getElem hi, List.getElem?_map,
      List.getElem?_range hin] at hentry
    exact Option.some.inj hentry
  refine List.pairwise_iff_getElem.mpr fun i j hi hj hlt => ?_
  rw [hget i hi, hget j hj, ← SeqNo.add_add, ← SeqNo.add_add]
  intro heq
  have hsame := SeqNo.add_inj (by omega) (by omega) heq
  omega

/-! ### The accounting -/

/-- For calls that neither flush nor close, on an open sequencer that is fresh or has just been
flushed: what the events account for is the number of the first primary packet and every number
after it up to the delivery point, each once and in order, and there are as many of them as the
counts of packets delivered and given up say. Whatever the calls before, a tick gives up a run only
when the delivery point stands at its beginning. -/
theorem accounted_consecutive (ladder : Ladder) (before calls : List Call)
    (hopen : ((ofLadder ladder).run before).1.closed = false)
    (hidle : ((ofLadder ladder).run before).1.started = false)
    (hcalls : ∀ c ∈ calls, c ≠ .flush ∧ c ≠ .close) :
    let s := ((ofLadder ladder).run before).1
    AccountedFrom s (s.run calls).1 (s.run calls).2 (firstPrimary? calls) ∧
      (∀ lap, lap <:+: (s.run calls).2.accounted → lap.length ≤ 65536 → lap.Nodup) ∧
      ∀ reached done run rest, let u := ((ofLadder ladder).run reached).1
        u.age.runs = done ++ run :: rest → u.ladder.giveUpAt ≤ run.level →
          run.first = (u.age.escalateAll done).1.low := by
  intro s
  have hall := accountedFrom_run (sound_reached ladder before) hopen hidle hcalls
  refine ⟨hall, ?_, ?_⟩
  · intro lap hlap hlen
    cases hfirst : firstPrimary? calls with
    | none =>
        rw [hfirst] at hall
        rw [hall.1] at hlap
        rw [List.eq_nil_of_infix_nil hlap]
        exact List.nodup_nil
    | some first =>
        rw [hfirst] at hall
        obtain ⟨n, -, haccounted, -⟩ := hall
        rw [haccounted] at hlap
        exact nodup_of_isInfix hlap hlen
  · intro reached done run rest u hruns hgive
    have hs := sound_age (sound_reached ladder reached)
    exact first_eq_low_of_given_up hs (hruns ▸ tiled_runs hs) hgive

/-- Two numbers around the wrap are given up, those on either side of them delivered. -/
theorem accounted_consecutive_across_wrap :
    let packet := fun n => Packet.ofOctets (SeqNo.ofNat n) [] false
    let calls := [Call.handle (packet 65534), .handle (packet 1), .tick, .tick]
    let s := ofLadder { rerequestAt := [1], giveUpAt := 2 }
    s.closed = false ∧ s.started = false ∧ (∀ c ∈ calls, c ≠ .flush ∧ c ≠ .close) ∧
      (s.run calls).2.accounted = [65534, 65535, 0, 1].map SeqNo.ofNat ∧
      AccountedFrom s (s.run calls).1 (s.run calls).2 (some (SeqNo.ofNat 65534)) := by
  intro packet calls s
  have hcalls : ∀ c ∈ calls, c ≠ .flush ∧ c ≠ .close := by simp [calls]
  refine ⟨rfl, rfl, hcalls, by decide +kernel, ?_⟩
  exact (accounted_consecutive { rerequestAt := [1], giveUpAt := 2 } [] calls rfl rfl hcalls).1

end AudioIntake.Sequencer
