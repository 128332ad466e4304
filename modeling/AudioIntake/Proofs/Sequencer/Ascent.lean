import AudioIntake.Proofs.Sequencer.Window

/-!
# Delivery goes forward around the circle

Between two flushes the numbers of the packets delivered go forward around the circle, and no step
leaves more numbers out than a gap may have. The number due after a delivery is the one behind it;
after a flush none is due, and any number may come next.
-/

namespace AudioIntake

/-- Neither a delivery nor a flush. -/
def Event.IsSilent (e : Event) : Prop := e.delivery? = none ∧ e ≠ .flush

/-- From `due` to the last of the events, no packet is delivered more than `bound` numbers ahead of
the one due at that moment. What is due afterwards comes last. -/
inductive Ascends (bound : Int) : Option SeqNo → List Event → Option SeqNo → Prop where
  | nil (due : Option SeqNo) : Ascends bound due [] due
  | silent {due last : Option SeqNo} {e : Event} {es : List Event} (hsilent : e.IsSilent)
      (h : Ascends bound due es last) : Ascends bound due (e :: es) last
  | flush {due last : Option SeqNo} {es : List Event} (h : Ascends bound none es last) :
      Ascends bound due (.flush :: es) last
  | output {due last : Option SeqNo} {p : Packet} {es : List Event}
      (hnear : ∀ low ∈ due, (low.stepsTo p.seqno : Int) ≤ bound)
      (h : Ascends bound (some p.seqno.next) es last) : Ascends bound due (.output p :: es) last

namespace Ascends

variable {bound : Int} {due mid last : Option SeqNo} {es es' : List Event}

theorem append_iff : Ascends bound due (es ++ es') last ↔
    ∃ mid, Ascends bound due es mid ∧ Ascends bound mid es' last := by
  induction es generalizing due with
  | nil =>
      constructor
      · intro h
        exact ⟨due, .nil due, h⟩
      · rintro ⟨mid, ⟨⟩, h⟩
        exact h
  | cons e es ih =>
      constructor
      · intro h
        cases h with
        | silent hsilent h =>
            obtain ⟨mid, hleft, hright⟩ := ih.mp h
            exact ⟨mid, .silent hsilent hleft, hright⟩
        | flush h =>
            obtain ⟨mid, hleft, hright⟩ := ih.mp h
            exact ⟨mid, .flush hleft, hright⟩
        | output hnear h =>
            obtain ⟨mid, hleft, hright⟩ := ih.mp h
            exact ⟨mid, .output hnear hleft, hright⟩
      · rintro ⟨mid, hleft, hright⟩
        cases hleft with
        | silent hsilent h => exact .silent hsilent (ih.mpr ⟨mid, h, hright⟩)
        | flush h => exact .flush (ih.mpr ⟨mid, h, hright⟩)
        | output hnear h => exact .output hnear (ih.mpr ⟨mid, h, hright⟩)

theorem append (h : Ascends bound due es mid) (h' : Ascends bound mid es' last) :
    Ascends bound due (es ++ es') last :=
  append_iff.mpr ⟨mid, h, h'⟩

theorem of_isPrefix (h : Ascends bound due es last) (hcut : es' <+: es) :
    ∃ mid, Ascends bound due es' mid := by
  obtain ⟨rest, rfl⟩ := hcut
  obtain ⟨mid, hmid, -⟩ := append_iff.mp h
  exact ⟨mid, hmid⟩

theorem of_silent (hes : ∀ e ∈ es, e.IsSilent) : Ascends bound due es due := by
  induction es with
  | nil => exact .nil due
  | cons e es ih =>
      exact .silent (hes e List.mem_cons_self)
        (ih fun e' he' => hes e' (List.mem_cons_of_mem e he'))

theorem eq_of_silent (h : Ascends bound due es last) (hes : ∀ e ∈ es, e.IsSilent) : last = due := by
  induction h with
  | nil => rfl
  | silent _ _ ih => exact ih fun e he => hes e (List.mem_cons_of_mem _ he)
  | flush => exact absurd rfl (hes _ List.mem_cons_self).2
  | output => cases (hes _ List.mem_cons_self).1

/-- The second of two deliveries with no flush between them is near the number behind the first. -/
theorem next_delivery {before middle after : List Event} {a b : Packet}
    (h : Ascends bound due (before ++ .output a :: middle ++ .output b :: after) last)
    (hmiddle : ∀ e ∈ middle, e.IsSilent) : (a.seqno.next.stepsTo b.seqno : Int) ≤ bound := by
  obtain ⟨mid, hfirst, hsecond⟩ := append_iff.mp h
  obtain ⟨_, -, hfrom⟩ := append_iff.mp hfirst
  cases hfrom with
  | silent hsilent => cases hsilent.1
  | output _ hmid =>
      rw [hmid.eq_of_silent hmiddle] at hsecond
      cases hsecond with
      | silent hsilent => cases hsilent.1
      | output hnear => exact hnear _ rfl

/-- Without a flush the deliveries are all that matters. -/
theorem of_deliveries (hflush : Event.flush ∉ es)
    (h : Ascends bound due ((es.filterMap Event.delivery?).map .output) last) :
    Ascends bound due es last := by
  induction es generalizing due with
  | nil => exact h
  | cons e es ih =>
      rw [List.mem_cons, not_or] at hflush
      obtain ⟨hne, hrest⟩ := hflush
      cases e with
      | output p =>
          cases h with
          | silent hsilent => cases hsilent.1
          | output hnear h => exact .output hnear (ih hrest h)
      | flush => exact absurd rfl hne
      | input => exact .silent ⟨rfl, nofun⟩ (ih hrest h)
      | rerequest => exact .silent ⟨rfl, nofun⟩ (ih hrest h)
      | evict => exact .silent ⟨rfl, nofun⟩ (ih hrest h)

/-- Neighbours are delivered without leaving a number out. -/
theorem of_consecutive (hbound : 0 ≤ bound) {low : SeqNo} {ps : List Packet}
    (h : ps.map Packet.seqno = (List.range ps.length).map (low + ·)) :
    Ascends bound (some low) (ps.map .output) (some (low + ps.length)) := by
  induction ps generalizing low with
  | nil =>
      rw [List.length_nil, SeqNo.add_zero]
      exact .nil _
  | cons p ps ih =>
      rw [List.length_cons, List.range_succ_eq_map, List.map_cons, List.map_cons, List.map_map,
        List.cons.injEq, SeqNo.add_zero] at h
      obtain ⟨hhead, htail⟩ := h
      have hshift : ∀ i, low.next + i = low + (i + 1) := by
        intro i
        rw [SeqNo.next, SeqNo.add_add, Nat.add_comm]
      refine .output ?_ ?_
      · rintro _ ⟨⟩
        rw [hhead, SeqNo.stepsTo_self]
        exact hbound
      · rw [hhead, List.length_cons, ← hshift]
        refine ih (htail.trans (List.map_congr_left fun i _ => ?_))
        exact (hshift i).symm

end Ascends

namespace Sequencer

variable {s t : Sequencer} {r : Report} {p : Packet} {bound : Int} {n : Nat} {run : Run}
  {runs : List Run} {due : Option SeqNo}

/-! ### Ticks -/

/-- What is held in front of a place comes out in the order of the numbers. The number due in the
end is the one behind the last packet found, which is `d` ahead. -/
theorem ascends_held (hs : s.Sound) (hwithin : s.Within bound) (hn : n < 65536) :
    ∃ d ≤ n, (n = 0 ∨ s.low + (n - 1) ∈ s.held → d = n) ∧
      Ascends bound (some s.low)
        (((List.range n).filterMap fun i => s.held[s.low + i]?).map .output)
        (some (s.low + d)) := by
  induction n with
  | zero =>
      refine ⟨0, Nat.le_refl 0, fun _ => rfl, ?_⟩
      rw [SeqNo.add_zero]
      exact .nil _
  | succ n ih =>
      obtain ⟨d, hd, -, hascends⟩ := ih (by omega)
      rw [List.range_succ, List.filterMap_append, List.map_append]
      cases hheld : s.held[s.low + n]? with
      | none =>
          refine ⟨d, by omega, fun h => ?_, ?_⟩
          · have hmem := h.resolve_left (Nat.succ_ne_zero n)
            rw [Nat.add_sub_cancel, Std.ExtTreeMap.mem_iff_isSome_getElem?, hheld] at hmem
            cases hmem
          · simpa [hheld] using hascends
      | some p =>
          have hmem := (Std.ExtTreeMap.getElem?_eq_some_iff.mp hheld).1
          have hlead := hwithin _ hmem
          have hsteps : s.low.stepsTo (s.low + n) = n := SeqNo.stepsTo_add _ (by omega)
          rw [hs.delta_eq hmem, hsteps] at hlead
          have hseqno := hs.seqno_eq hheld
          have hlast : Ascends bound (some (s.low + d)) [.output p] (some (s.low + (n + 1))) := by
            refine .output ?_ ?_
            · rintro _ ⟨⟩
              rw [hseqno, SeqNo.stepsTo_add_left (by omega), hsteps]
              omega
            · rw [hseqno, SeqNo.next, SeqNo.add_add]
              exact .nil _
          refine ⟨n + 1, Nat.le_refl _, fun _ => rfl, ?_⟩
          simpa [hheld] using hascends.append hlast

theorem Sweeps.ascends (h : Sweeps s t r n) (hs : s.Sound) (hwithin : s.Within bound)
    (hflush : .flush ∉ r.events) : Ascends bound (some s.low) r.events (some t.low) := by
  obtain ⟨d, -, hall, hascends⟩ := ascends_held hs hwithin h.lt
  rw [hall h.reached, ← h.low_eq, ← h.delivered_eq] at hascends
  exact .of_deliveries hflush hascends

theorem flush_not_mem_escalate : .flush ∉ (s.escalate run).2.events := by
  rw [escalate, evict]
  dsimp only
  split
  · split <;> simp
  · split <;> simp [Report.empty]

theorem flush_not_mem_escalateAll : .flush ∉ (s.escalateAll runs).2.events := by
  induction runs generalizing s with
  | nil => exact List.not_mem_nil
  | cons run runs ih =>
      rw [escalateAll_cons, Report.append_events, List.mem_append, not_or]
      exact ⟨flush_not_mem_escalate, ih⟩

theorem flush_not_mem_tick (hs : s.Sound) : .flush ∉ s.tick.2.events := by
  rw [tick_eq hs]
  exact flush_not_mem_escalateAll

theorem ascends_tick (hs : s.Sound) (hwithin : s.Within bound) :
    Ascends bound s.low? s.tick.2.events s.tick.1.low? := by
  obtain ⟨n, hsweep, -⟩ := sweeps_tick hs
  by_cases hstarted : s.started = true
  · have hstarted' : s.tick.1.started = true := hsweep.started_eq.trans hstarted
    rw [low?, low?, if_pos hstarted, if_pos hstarted']
    exact hsweep.ascends (s := s.age) (sound_age hs) hwithin (flush_not_mem_tick hs)
  · rw [tick_of_held_empty (hs.held_of_idle (Bool.not_eq_true _ ▸ hstarted))]
    exact .nil _

/-! ### Packets -/

theorem silent_refusal {d : Disposition} : ∀ e ∈ (refusal p d).events, e.IsSilent := by
  simp [refusal, Event.IsSilent, Event.delivery?]

/-- A packet is delivered only when it is the one due, or when it sets the delivery point. -/
theorem Placed.ascends (hs : s.Sound) (hbound : 0 ≤ bound) (h : Placed s p t r)
    (hdue : due = some s.low ∨ due = none ∧ p.seqno = s.low) :
    Ascends bound due r.events (some t.low) := by
  -- What sets the delivery point is not refused or held.
  have hkept : (p.seqno = s.low → False) → due = some s.low := fun hne =>
    hdue.resolve_right fun h => hne h.2
  cases h with
  | @delivered t ps hlow hdrained =>
      refine .silent ⟨rfl, nofun⟩ (.output (fun low hmem => ?_) ?_)
      · rcases hdue with rfl | ⟨rfl, -⟩
        · rw [hlow, Option.mem_some.mp hmem, SeqNo.stepsTo_self]
          exact hbound
        · cases hmem
      · rw [hlow, hdrained.low_eq]
        exact .of_consecutive hbound (hdrained.map_seqno hs.seqno_eq)
  | stale hbehind =>
      rw [hkept fun heq => ?_]
      · exact .of_silent silent_refusal
      · rw [heq, SeqNo.delta_self] at hbehind
        omega
  | duplicate hheld =>
      rw [hkept fun heq => hs.low_not_mem (heq ▸ hheld)]
      exact .of_silent silent_refusal
  | held hahead =>
      rw [hkept fun heq => ?_]
      · exact .silent ⟨rfl, nofun⟩ (.nil _)
      · rw [heq, SeqNo.delta_self] at hahead
        omega

theorem Handled.ascends (hs : s.Sound) (hbound : 0 ≤ bound) (h : Handled s p t r) :
    Ascends bound s.low? r.events t.low? := by
  cases h with
  | closed => exact .of_silent silent_refusal
  | notStarted => exact .of_silent silent_refusal
  | placed hopen _ hplaced =>
      have hsound := sound_opened hs hopen p.seqno
      have hbegun : t.started = true := by
        rw [hplaced.started_eq]
        exact started_start _ _
      rw [low?, low?, if_pos hbegun]
      refine hplaced.ascends hsound hbound ?_
      by_cases hstarted : s.started = true
      · rw [if_pos hstarted, start_of_started (s := s.countReceived) hstarted]
        exact Or.inl rfl
      · rw [if_neg hstarted, start_of_idle (s := s.countReceived) (Bool.not_eq_true _ ▸ hstarted)]
        exact Or.inr ⟨rfl, rfl⟩

theorem Admitted.ascends (hs : s.Sound) (hbound : 0 ≤ bound) {maxLead : Int}
    (h : Admitted s maxLead p t r) : Ascends bound s.low? r.events t.low? := by
  cases h with
  | discarded =>
      obtain ⟨tally, hstate⟩ := s.discard_state p
      rw [hstate, discard]
      split
      · exact .nil _
      · exact .of_silent silent_refusal
  | flushed =>
      have hflushed := sound_call hs .flush
      exact .flush ((handled_handle hflushed p).ascends hflushed hbound)
  | handled => exact (handled_handle hs p).ascends hs hbound

/-- One turn carries the order of delivery on. -/
theorem ascends_turn (hs : s.Sound) (hwithin : s.Within bound) (hbound : 0 ≤ bound)
    (maxLead : Int) (turn : Turn) :
    Ascends bound s.low? (s.turn maxLead turn).2.events (s.turn maxLead turn).1.low? := by
  cases turn with
  | packet p => exact (s.admitted_accept maxLead p).ascends hs hbound
  | flush => exact .flush (.nil none)
  | tick => exact ascends_tick hs hwithin

end Sequencer

end AudioIntake
