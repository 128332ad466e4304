import AudioIntake.Proofs.Sequencer.Calls
import AudioIntake.Settings.Stream

/-!
# What every reachable sequencer looks like

The invariant of a sequencer, said of its tables alone: the window up to the newest held packet, and
for each number in it the packet that is held or the counter that is kept. A counter is kept from the
first tick on that finds its number missing, and a tick that brings it to the end of the ladder takes
it out again, so it stays below that end however many ticks there are. Hence the window, the runs in
it and the counters fit the words that a packet and the settings give them.
-/

namespace AudioIntake.Sequencer

variable {s t : Sequencer} {r : Report} {p : Packet} {n k : SeqNo}

/-! ### The counters that are kept -/

/-- Every counter that is kept has counted a tick and has not come to the end of the ladder. -/
def Climbing (s : Sequencer) : Prop :=
  ∀ (n : SeqNo) (c : Nat), s.retries[n]? = some c → 1 ≤ c ∧ c < s.ladder.giveUpAt

theorem climbing_of_retries_empty (h : s.retries = ∅) : s.Climbing := by
  intro n c hc
  rw [h, Std.ExtTreeMap.getElem?_empty] at hc
  cases hc

/-- What is still counted has the counter that it had. -/
theorem Climbing.of_kept (h : s.Climbing) (hladder : t.ladder = s.ladder)
    (hkept : ∀ {k : SeqNo}, k ∈ t.retries → t.retries[k]? = s.retries[k]?) : t.Climbing := by
  intro n c hc
  have hmem := (Std.ExtTreeMap.getElem?_eq_some_iff.mp hc).1
  rw [hkept hmem] at hc
  rw [hladder]
  exact h n c hc

theorem Placed.getElem?_retries (hs : s.Sound) (h : Placed s p t r) (hk : k ∈ t.retries) :
    t.retries[k]? = s.retries[k]? := by
  cases h with
  | delivered hlow hdrained =>
      have hmoves := moves hs hlow hdrained
      exact hmoves.getElem?_retries (hmoves.lacks_of_counted hk)
  | stale => rfl
  | duplicate => rfl
  | held =>
      obtain ⟨hne, -⟩ := Std.ExtTreeMap.mem_erase.mp hk
      exact getElem?_retries_hold fun heq => hne (Std.LawfulEqCmp.compare_eq_iff_eq.mpr heq)

theorem Handled.getElem?_retries (hs : s.Sound) (h : Handled s p t r) (hk : k ∈ t.retries) :
    t.retries[k]? = s.retries[k]? := by
  cases h with
  | closed => rfl
  | notStarted => rfl
  | placed hopen _ hplaced =>
      rw [hplaced.getElem?_retries (sound_opened hs hopen p.seqno) hk, retries_start]
      rfl

/-- A tick counts from one on, and a counter that it leaves was not passed. -/
theorem climbing_tick (hs : s.Sound) : s.tick.1.Climbing := by
  intro n c hc
  obtain ⟨m, hsweep, hm⟩ := sweeps_tick hs
  have hmem := (Std.ExtTreeMap.getElem?_eq_some_iff.mp hc).1
  have hlacks := hsweep.lacks_of_counted hmem
  obtain ⟨hbefore, hle⟩ := hsweep.lacks_iff.mp hlacks
  rw [hsweep.getElem?_retries hlacks, getElem?_age hs,
    if_pos ((mem_missing hs.toOrdered).mpr hbefore)] at hc
  obtain rfl := Option.some.inj hc
  have hend := mt (hm n hbefore).mpr (Nat.not_lt.mpr hle)
  rw [hsweep.ladder_eq]
  change 1 ≤ s.counter n + 1 ∧ s.counter n + 1 < s.ladder.giveUpAt
  omega

theorem climbing_call (hs : s.Sound) (h : s.Climbing) (c : Call) : (s.call c).1.Climbing := by
  cases c with
  | handle p =>
      have hhandled := handled_handle hs p
      exact h.of_kept hhandled.ladder_eq (hhandled.getElem?_retries hs)
  | discard p =>
      obtain ⟨tally, hstate⟩ := s.discard_state p
      change (s.discard p).1.Climbing
      rw [hstate]
      exact h.of_kept rfl fun _ => rfl
  | tick => exact climbing_tick hs
  | flush => exact climbing_of_retries_empty rfl
  | close => exact climbing_of_retries_empty rfl

theorem climbing_run (hs : s.Sound) (h : s.Climbing) (cs : List Call) : (s.run cs).1.Climbing := by
  induction cs generalizing s with
  | nil => exact h
  | cons c cs ih => exact ih (sound_call hs c) (climbing_call hs h c)

/-! ### The window -/

theorem span_eq_zero (hempty : s.held = ∅) : s.span = 0 := by
  rw [span, Std.ExtTreeMap.keys_eq_nil_iff.mpr hempty]
  rfl

theorem le_span (h : s.Ordered) (hn : n ∈ s.held) : n.delta s.low ≤ s.span := by
  have hpos := h.stepsTo_pos hn
  have hlt := (lt_span_iff h (o := s.low.stepsTo n - 1)).mpr ⟨n, hn, by omega⟩
  rw [h.delta_eq hn]
  omega

theorem exists_delta_eq_span (h : s.Ordered) (hn : n ∈ s.held) :
    ∃ far ∈ s.held, far.delta s.low = s.span := by
  have hpos := h.ahead hn
  have hle := le_span h hn
  obtain ⟨far, hfar, hlt⟩ := (lt_span_iff h (o := s.span - 1)).mp (by omega)
  have hdelta := h.delta_eq hfar
  have hmax := le_span h hfar
  exact ⟨far, hfar, by omega⟩

theorem lacks_add_iff (h : s.Ordered) {o : Nat} (ho : o < s.span) :
    s.Lacks (s.low + o) ↔ s.low + o ∉ s.held := by
  have hspan := span_le h
  refine ⟨Lacks.not_mem, fun hfree => ⟨hfree, ?_⟩⟩
  rw [SeqNo.stepsTo_add _ (by omega)]
  exact (lt_span_iff h).mp ho

theorem Lacks.exists_offset (h : s.Ordered) (hn : s.Lacks n) : ∃ o < s.span, n = s.low + o :=
  ⟨s.low.stepsTo n, (lt_span_iff h).mpr hn.2, (SeqNo.add_stepsTo _ _).symm⟩

/-! ### The tables -/

/-- The tables of a sequencer fit together. The window holds the numbers from the delivery point up
to the newest held packet, and a number of it that is not held is missing. -/
structure Consistent (s : Sequencer) : Prop where
  empty_of_idle : s.started = false ∨ s.closed = true → s.held = ∅ ∧ s.retries = ∅
  held_under : ∀ (n : SeqNo) (p : Packet), s.held[n]? = some p → p.seqno = n ∧ 0 < n.delta s.low
  low_free : s.low ∉ s.held
  span_eq : (s.held = ∅ → s.span = 0) ∧ ∀ n ∈ s.held, n.delta s.low ≤ s.span ∧
    ∃ far ∈ s.held, far.delta s.low = s.span
  counted_missing : ∀ n ∈ s.retries, n ∉ s.held ∧ ∃ o < s.span, n = s.low + o
  counter_next : ∀ o, o + 1 < s.span → s.low + o ∉ s.held → s.low + (o + 1) ∉ s.held →
    s.counter (s.low + (o + 1)) = s.counter (s.low + o)
  counter_le : ∀ o o', o ≤ o' → o' < s.span → s.low + o ∉ s.held → s.low + o' ∉ s.held →
    s.counter (s.low + o') ≤ s.counter (s.low + o)
  counter_bounds : ∀ (n : SeqNo) (c : Nat), s.retries[n]? = some c → 1 ≤ c ∧ c < s.ladder.giveUpAt

/-- What a tick works out fits the words: the window and its runs those of sequence numbers, and the
counters, counted up, those of the settings. -/
structure FitsWords (s : Sequencer) : Prop where
  span_lt : s.span < UInt16.size
  count_lt : ∀ run ∈ s.age.runs, run.count < UInt16.size
  counter_lt : ∀ (n : SeqNo) (c : Nat), s.age.retries[n]? = some c → c < UInt32.size

theorem Sound.retries_of_idle (h : s.Sound) (hidle : s.started = false) : s.retries = ∅ := by
  rw [Std.ExtTreeMap.eq_empty_iff_forall_not_mem]
  exact fun k hk => h.not_lacks_of_idle hidle (h.lacks_of_counted hk)

theorem Sound.consistent (h : s.Sound) (hclimbing : s.Climbing) : s.Consistent where
  empty_of_idle hidle := by
    have hidle : s.started = false := hidle.elim id h.idle_of_closed
    exact ⟨h.held_of_idle hidle, h.retries_of_idle hidle⟩
  held_under n p hp := ⟨h.seqno_eq hp, h.ahead (Std.ExtTreeMap.getElem?_eq_some_iff.mp hp).1⟩
  low_free := h.low_not_mem
  span_eq := ⟨span_eq_zero, fun _ hn =>
    ⟨le_span h.toOrdered hn, exists_delta_eq_span h.toOrdered hn⟩⟩
  counted_missing n hn := by
    have hlacks := h.lacks_of_counted hn
    exact ⟨hlacks.not_mem, hlacks.exists_offset h.toOrdered⟩
  counter_next o ho hfree hnext := by
    have hneighbour : s.low + (o + 1) = (s.low + o).next := (SeqNo.add_add _ _ _).symm
    have hlacks := (lacks_add_iff h.toOrdered (Nat.lt_of_succ_lt ho)).mpr hfree
    have hlacks' := (lacks_add_iff h.toOrdered ho).mpr hnext
    rw [hneighbour] at hlacks' ⊢
    exact h.counter_next hlacks hlacks'
  counter_le o o' hle ho' hfree hfree' := by
    have hspan := span_le h.toOrdered
    refine h.counter_le ((lacks_add_iff h.toOrdered (by omega)).mpr hfree)
      ((lacks_add_iff h.toOrdered ho').mpr hfree') ?_
    rw [SeqNo.stepsTo_add _ (by omega), SeqNo.stepsTo_add _ (by omega)]
    exact hle
  counter_bounds := hclimbing

theorem Sound.fitsWords (h : s.Sound) (hclimbing : s.Climbing)
    (hladder : s.ladder.giveUpAt < UInt32.size) : s.FitsWords where
  span_lt := Nat.lt_of_le_of_lt (span_le h.toOrdered) (by decide)
  count_lt run hrun := ((tiled_runs (sound_age h)).isGap (Or.inl rfl) run hrun).count_lt
  counter_lt n c hc := by
    have hkept : ∀ {c : Nat}, s.retries[n]? = some c → c < s.ladder.giveUpAt := fun hc =>
      (hclimbing n _ hc).2
    rw [getElem?_age h] at hc
    split at hc
    · obtain rfl := Option.some.inj hc
      rw [counter, Std.ExtTreeMap.getD_eq_getD_getElem?]
      cases hget : s.retries[n]? with
      | none => decide
      | some c =>
          have hlt := hkept hget
          rw [Option.getD_some]
          omega
    · exact Nat.lt_trans (hkept hc) hladder

/-- After any calls, whatever the settings, the tables of the sequencer fit together, and what the
next tick works out fits the words it is kept in. -/
theorem consistent_reached (settings : StreamSettings) (calls : List Call) :
    let s := (settings.sequencer.run calls).1
    s.ladder = settings.ladder ∧ s.Consistent ∧ s.FitsWords := by
  intro s
  have hstart : settings.sequencer.Sound := sound_ofLadder settings.ladder
  have hs : s.Sound := sound_run hstart calls
  have hclimbing : s.Climbing := climbing_run hstart (climbing_of_retries_empty rfl) calls
  have hladder : s.ladder = settings.ladder := ladder_run hstart calls
  refine ⟨hladder, hs.consistent hclimbing, hs.fitsWords hclimbing ?_⟩
  rw [hladder]
  exact settings.giveUpTick.toNat_lt

end AudioIntake.Sequencer
