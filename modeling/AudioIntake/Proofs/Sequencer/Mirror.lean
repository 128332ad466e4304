import AudioIntake.Proofs.Sequencer.Unrolled
import AudioIntake.Proofs.Sequencer.Tiling

/-!
# A sequencer and its unrolled counterpart

`Mirrors a i s` relates an unrolled sequencer to one that wraps, while both work within reach of the
position `a`: the delivery points agree, and the tables mirror each other between bounds set by `a`.
Every step that a tick or a packet is made of keeps that relation and reports the same on both sides.
-/

namespace AudioIntake.Unrolled

open SeqNo (ofPosition)

variable {a : Int} {i : Sequencer} {s : AudioIntake.Sequencer}

structure Mirrors (a : Int) (i : Sequencer) (s : AudioIntake.Sequencer) : Prop where
  ladder_eq : s.ladder = i.ladder
  started_eq : s.started = i.started
  closed_eq : s.closed = i.closed
  tally_eq : s.tally = i.tally
  low_eq : s.low = ofPosition i.low
  le_low : a ≤ i.low
  low_le : i.low ≤ a + 8192
  held : Mirrored (a + 1) (a + 8191) i.held s.held
  retries : Mirrored a (a + 8191) i.retries s.retries

/-- Both reports tell the same, one in numbers and the other in positions. Packets let go of all at
once may come in another order. -/
structure Wraps (ir : Report) (r : AudioIntake.Report) : Prop where
  events_eq : r.events = ir.events.map Event.wrap
  requests_eq : r.requests = ir.requests.map Rerequest.wrap
  released_perm : r.released.Perm ir.released

namespace Wraps

theorem empty : Wraps .empty .empty := ⟨rfl, rfl, .refl _⟩

theorem append {ir jr : Report} {r r' : AudioIntake.Report} (h : Wraps ir r) (h' : Wraps jr r') :
    Wraps (ir ++ jr) (r ++ r') where
  events_eq := by
    change r.events ++ r'.events = (ir.events ++ jr.events).map Event.wrap
    rw [h.events_eq, h'.events_eq, List.map_append]
  requests_eq := by
    change r.requests ++ r'.requests = (ir.requests ++ jr.requests).map Rerequest.wrap
    rw [h.requests_eq, h'.requests_eq, List.map_append]
  released_perm := h.released_perm.append h'.released_perm

theorem delivered_eq {ir : Report} {r : AudioIntake.Report} (h : Wraps ir r) :
    r.delivered = ir.delivered := by
  rw [AudioIntake.Report.delivered, h.events_eq, List.filterMap_map, Report.delivered]
  congr 1
  funext e
  cases e <;> rfl

end Wraps

namespace Mirrors

theorem withTally (h : Mirrors a i s) {tally tally' : Tally} (heq : tally = tally') :
    Mirrors a { i with tally := tally' } { s with tally } :=
  { h with tally_eq := heq }

/-! ### Draining -/

theorem getElem?_low (h : Mirrors a i s) : s.held[s.low]? = i.held[i.low]? := by
  have hle := h.le_low
  have hge := h.low_le
  rw [h.low_eq]
  exact h.held.getElem?_eq (by omega) (by omega)

theorem advance (h : Mirrors a i s) (hlt : i.low ≤ a + 8191) :
    Mirrors a i.advance s.advance where
  ladder_eq := h.ladder_eq
  started_eq := h.started_eq
  closed_eq := h.closed_eq
  tally_eq := by
    simp only [Sequencer.advance, AudioIntake.Sequencer.advance, h.tally_eq]
  low_eq := by
    simp only [Sequencer.advance, AudioIntake.Sequencer.advance, h.low_eq, SeqNo.ofPosition_add_one]
  le_low := Int.le_trans h.le_low (Int.le_of_lt (Int.lt_succ _))
  low_le := by
    simp only [Sequencer.advance]
    omega
  held := h.held
  retries := h.retries

theorem erase_low (h : Mirrors a i s) :
    Mirrors a { i with held := i.held.erase i.low } { s with held := s.held.erase s.low } := by
  have hle := h.le_low
  have hge := h.low_le
  refine { h with held := ?_ }
  change Mirrored (a + 1) (a + 8191) (i.held.erase i.low) (s.held.erase s.low)
  rw [h.low_eq]
  exact h.held.erase (by omega) (by omega)

end Mirrors

theorem deliverHeld_of_none (h : i.held[i.low]? = none) : i.deliverHeld = (i, []) := by
  rw [Sequencer.deliverHeld]
  split
  · rfl
  · rename_i q hq
    rw [h] at hq
    cases hq

theorem deliverHeld_of_some {p : Packet} (h : i.held[i.low]? = some p) :
    i.deliverHeld =
      (({ i with held := i.held.erase i.low } : Sequencer).advance.deliverHeld.1,
        p :: ({ i with held := i.held.erase i.low } : Sequencer).advance.deliverHeld.2) := by
  rw [Sequencer.deliverHeld]
  split
  · rename_i hq
    rw [h] at hq
    cases hq
  · rename_i q hq
    rw [h] at hq
    cases hq
    rfl

namespace Mirrors

theorem deliverHeld (h : Mirrors a i s) :
    Mirrors a i.deliverHeld.1 s.deliverHeld.1 ∧ s.deliverHeld.2 = i.deliverHeld.2 := by
  induction i using Sequencer.deliverHeld.induct generalizing s with
  | case1 i hnone =>
      rw [deliverHeld_of_none hnone,
        AudioIntake.Sequencer.deliverHeld_of_none (h.getElem?_low.trans hnone)]
      exact ⟨h, rfl⟩
  | case2 i p hsome t ps heq ih =>
      obtain ⟨hmem, -⟩ := Std.ExtTreeMap.getElem?_eq_some_iff.mp hsome
      have hlow := (h.held.near hmem).2
      have hrest := ih (h.erase_low.advance hlow)
      rw [deliverHeld_of_some hsome,
        AudioIntake.Sequencer.deliverHeld_of_some (h.getElem?_low.trans hsome) rfl]
      exact ⟨hrest.1, congrArg (p :: ·) hrest.2⟩

theorem settle (h : Mirrors a i s) : Mirrors a i.settle s.settle := by
  rw [Sequencer.settle, AudioIntake.Sequencer.settle, h.held.isEmpty_eq]
  split
  · exact { h with retries := .empty (by omega) }
  · exact h

theorem drain (h : Mirrors a i s) :
    Mirrors a i.drain.1 s.drain.1 ∧ s.drain.2 = i.drain.2 :=
  ⟨h.deliverHeld.1.settle, h.deliverHeld.2⟩

end Mirrors

/-! ### Giving runs up and asking for them -/

def Run.wrap (run : Run) : AudioIntake.Run :=
  { first := ofPosition run.first, count := run.count, level := run.level }

theorem Run.seqnos_wrap (run : Run) : run.wrap.seqnos = run.positions.map ofPosition := by
  rw [AudioIntake.Run.seqnos, Run.positions, List.map_map]
  refine List.map_congr_left fun i _ => ?_
  exact (SeqNo.ofPosition_add run.first i).symm

theorem Run.mem_positions {run : Run} {k : Int} (hk : k ∈ run.positions) :
    run.first ≤ k ∧ k < run.stop := by
  obtain ⟨i, hi, rfl⟩ := List.mem_map.mp hk
  rw [List.mem_range] at hi
  rw [Run.stop]
  omega

theorem map_wrap_output (ps : List Packet) :
    (ps.map Event.output).map Event.wrap = ps.map AudioIntake.Event.output := by
  rw [List.map_map]
  rfl

namespace Mirrors

variable {run : Run}

theorem erase_run (h : Mirrors a i s) (hfirst : a ≤ run.first) (hstop : run.stop ≤ a + 8191) :
    Mirrored a (a + 8191) (run.positions.foldl (fun r k => r.erase k) i.retries)
      (run.wrap.seqnos.foldl (fun r n => r.erase n) s.retries) := by
  rw [Run.seqnos_wrap]
  apply h.retries.foldl_erase
  intro k hk
  obtain ⟨hle, hlt⟩ := Run.mem_positions hk
  omega

/-- A run begins at the delivery point on both sides, or on neither. -/
theorem first_eq_low_iff (h : Mirrors a i s) (hfirst : a ≤ run.first)
    (hstop : run.stop ≤ a + 8191) : run.wrap.first = s.low ↔ run.first = i.low := by
  rw [h.low_eq]
  constructor
  · intro heq
    have hle := h.le_low
    have hge := h.low_le
    rw [Run.stop] at hstop
    exact SeqNo.ofPosition_inj heq (by omega) (by omega)
  · exact congrArg ofPosition

theorem evict (h : Mirrors a i s) (hfirst : a ≤ run.first) (hstop : run.stop ≤ a + 8191) :
    Mirrors a (i.evict run).1 (s.evict run.wrap).1 ∧ Wraps (i.evict run).2 (s.evict run.wrap).2 := by
  have hretries := h.erase_run hfirst hstop
  have hat := h.first_eq_low_iff hfirst hstop
  rw [Sequencer.evict, AudioIntake.Sequencer.evict]
  dsimp only
  by_cases hlow : run.first = i.low
  · rw [if_pos hlow, if_pos (hat.mpr hlow)]
    have hmoved : Mirrors a
        { i with
          low := run.stop
          retries := run.positions.foldl (fun r k => r.erase k) i.retries
          tally :=
            { i.tally with
              evictedGaps := i.tally.evictedGaps + 1
              evictedPackets := i.tally.evictedPackets + run.count } }
        { s with
          low := run.wrap.stop
          retries := run.wrap.seqnos.foldl (fun r n => r.erase n) s.retries
          tally :=
            { s.tally with
              evictedGaps := s.tally.evictedGaps + 1
              evictedPackets := s.tally.evictedPackets + run.wrap.count } } :=
      { h with
        tally_eq := by
          rw [h.tally_eq]
          rfl
        low_eq := (SeqNo.ofPosition_add run.first run.count).symm
        le_low := by
          change a ≤ run.first + run.count
          omega
        low_le := by
          change run.stop ≤ a + 8192
          omega
        retries := hretries }
    obtain ⟨hdrained, hdelivered⟩ := hmoved.drain
    refine ⟨hdrained, ?_, rfl, .refl _⟩
    rw [hdelivered, List.map_cons, map_wrap_output]
    rfl
  · rw [if_neg hlow, if_neg (mt hat.mp hlow)]
    refine ⟨{ h with tally_eq := ?_, retries := hretries }, rfl, rfl, .refl _⟩
    rw [h.tally_eq]
    rfl

theorem escalate (h : Mirrors a i s) (hfirst : a ≤ run.first) (hstop : run.stop ≤ a + 8191) :
    Mirrors a (i.escalate run).1 (s.escalate run.wrap).1 ∧
      Wraps (i.escalate run).2 (s.escalate run.wrap).2 := by
  have hend : s.ladder.giveUpAt ≤ run.wrap.level ↔ i.ladder.giveUpAt ≤ run.level := by
    rw [h.ladder_eq]
    rfl
  have hasked : run.wrap.level ∈ s.ladder.rerequestAt ↔ run.level ∈ i.ladder.rerequestAt := by
    rw [h.ladder_eq]
    rfl
  rw [Sequencer.escalate, AudioIntake.Sequencer.escalate]
  by_cases hgive : i.ladder.giveUpAt ≤ run.level
  · rw [if_pos hgive, if_pos (hend.mpr hgive)]
    exact h.evict hfirst hstop
  · rw [if_neg hgive, if_neg (mt hend.mp hgive)]
    by_cases hrung : run.level ∈ i.ladder.rerequestAt
    · rw [if_pos hrung, if_pos (hasked.mpr hrung)]
      exact ⟨h.withTally (by rw [h.tally_eq]), rfl, rfl, .refl _⟩
    · rw [if_neg hrung, if_neg (mt hasked.mp hrung)]
      exact ⟨h, .empty⟩

theorem escalateAll (h : Mirrors a i s) {runs : List Run}
    (hruns : ∀ run ∈ runs, a ≤ run.first ∧ run.stop ≤ a + 8191) :
    Mirrors a (i.escalateAll runs).1 (s.escalateAll (runs.map Run.wrap)).1 ∧
      Wraps (i.escalateAll runs).2 (s.escalateAll (runs.map Run.wrap)).2 := by
  induction runs generalizing i s with
  | nil => exact ⟨h, .empty⟩
  | cons run runs ih =>
      obtain ⟨hfirst, hstop⟩ := hruns run List.mem_cons_self
      obtain ⟨hone, hreport⟩ := h.escalate hfirst hstop
      obtain ⟨hall, hreports⟩ := ih hone fun r hr => hruns r (List.mem_cons_of_mem run hr)
      exact ⟨hall, hreport.append hreports⟩

end Mirrors

/-! ### What a tick finds -/

theorem lt_span_iff (i : Sequencer) {o : Nat} :
    o < i.span ↔ ∃ k ∈ i.held, (o : Int) < k - i.low := by
  have hfar := Tables.lt_foldl_max (fun k : Int => k - i.low) i.held.keys 0 (o : Int)
  unfold Sequencer.span
  rw [Int.lt_toNat, hfar]
  simp only [Std.ExtTreeMap.mem_keys]
  exact or_iff_right (by omega)

namespace Mirrors

theorem span_le (h : Mirrors i.low i s) : i.span ≤ 8191 := by
  by_contra hlt
  obtain ⟨k, hk, hfar⟩ := (lt_span_iff i).mp (Nat.not_le.mp hlt)
  have hnear := (h.held.near hk).2
  omega

theorem span_eq (h : Mirrors i.low i s) (hs : s.Ordered) : s.span = i.span := by
  have hsteps : ∀ k ∈ i.held, (s.low.stepsTo (ofPosition k) : Int) = k - i.low := by
    intro k hk
    obtain ⟨hle, hge⟩ := h.held.near hk
    rw [h.low_eq]
    exact SeqNo.stepsTo_ofPosition (by omega) (by omega)
  have hiff : ∀ o, o < s.span ↔ o < i.span := by
    intro o
    rw [AudioIntake.Sequencer.lt_span_iff hs, lt_span_iff]
    constructor
    · rintro ⟨n, hn, hlt⟩
      obtain ⟨k, hk, rfl⟩ := h.held.onto hn
      have hk' := hsteps k hk
      exact ⟨k, hk, by omega⟩
    · rintro ⟨k, hk, hlt⟩
      have hk' := hsteps k hk
      obtain ⟨hle, hge⟩ := h.held.near hk
      exact ⟨ofPosition k, (h.held.mem_iff (by omega) (by omega)).mpr hk, by omega⟩
  have hle := hiff s.span
  have hge := hiff i.span
  omega

theorem window_eq (h : Mirrors i.low i s) (hs : s.Ordered) :
    s.window = i.window.map ofPosition := by
  rw [AudioIntake.Sequencer.window, Sequencer.window, h.span_eq hs, List.map_map]
  refine List.map_congr_left fun o _ => ?_
  rw [h.low_eq]
  exact (SeqNo.ofPosition_add i.low o).symm

theorem mem_window (h : Mirrors i.low i s) {k : Int} (hk : k ∈ i.window) :
    i.low ≤ k ∧ k < i.low + 8191 := by
  obtain ⟨o, ho, rfl⟩ := List.mem_map.mp hk
  rw [List.mem_range] at ho
  have hspan := h.span_le
  omega

theorem missing_eq (h : Mirrors i.low i s) (hs : s.Ordered) :
    s.missing = i.missing.map ofPosition := by
  rw [AudioIntake.Sequencer.missing, h.window_eq hs, List.filter_map, Sequencer.missing]
  congr 1
  refine List.filter_congr fun k hk => ?_
  obtain ⟨hle, hlt⟩ := h.mem_window hk
  rw [Function.comp_apply, h.held.contains_eq (by omega) (by omega)]

theorem age (h : Mirrors i.low i s) (hs : s.Ordered) : Mirrors i.low i.age s.age := by
  refine { h with retries := ?_ }
  rw [AudioIntake.Sequencer.age, h.missing_eq hs]
  refine h.retries.foldl_count _ fun k hk => ?_
  obtain ⟨hle, hlt⟩ := h.mem_window (List.mem_of_mem_filter hk)
  omega

/-- A missing number joins the run in front of it on both sides, or on neither. -/
theorem consMissing_wrap {k : Int} {level : Nat} {runs : List Run}
    (hruns : ∀ run ∈ runs, a ≤ run.first ∧ run.stop ≤ a + 8191) (hle : a ≤ k) (hlt : k < a + 8191) :
    AudioIntake.Run.consMissing (ofPosition k) level (runs.map Run.wrap) =
      (Run.consMissing k level runs).map Run.wrap := by
  cases runs with
  | nil => rfl
  | cons run runs =>
      obtain ⟨hfirst, hstop⟩ := hruns run List.mem_cons_self
      rw [Run.stop] at hstop
      have hjoins : run.wrap.first = (ofPosition k).next ↔ run.first = k + 1 := by
        rw [← SeqNo.ofPosition_add_one]
        constructor
        · intro heq
          exact SeqNo.ofPosition_inj heq (by omega) (by omega)
        · exact congrArg ofPosition
      rw [List.map_cons, AudioIntake.Run.consMissing, Run.consMissing]
      by_cases hnext : run.first = k + 1
      · rw [if_pos hnext, if_pos (hjoins.mpr hnext)]
        rfl
      · rw [if_neg hnext, if_neg (mt hjoins.mp hnext)]
        rfl

theorem consMissing_near {k : Int} {level : Nat} {runs : List Run}
    (hruns : ∀ run ∈ runs, a ≤ run.first ∧ run.stop ≤ a + 8191) (hle : a ≤ k) (hlt : k < a + 8191) :
    ∀ run ∈ Run.consMissing k level runs, a ≤ run.first ∧ run.stop ≤ a + 8191 := by
  have halone : a ≤ k ∧ Run.stop { first := k, count := 1, level } ≤ a + 8191 := by
    refine ⟨hle, ?_⟩
    change k + 1 ≤ a + 8191
    omega
  cases runs with
  | nil =>
      intro run hrun
      obtain rfl := List.mem_singleton.mp hrun
      exact halone
  | cons next runs =>
      obtain ⟨hfirst, hstop⟩ := hruns next List.mem_cons_self
      intro run hrun
      rw [Run.consMissing] at hrun
      split at hrun
      · rename_i hnext
        obtain rfl | hrun := List.mem_cons.mp hrun
        · refine ⟨hle, ?_⟩
          rw [Run.stop] at hstop ⊢
          dsimp only
          omega
        · exact hruns run (List.mem_cons_of_mem next hrun)
      · obtain rfl | hrun := List.mem_cons.mp hrun
        · exact halone
        · exact hruns run hrun

theorem runsAmong (h : Mirrors a i s) (ks : List Int) (hks : ∀ k ∈ ks, a ≤ k ∧ k < a + 8191) :
    s.runsAmong (ks.map ofPosition) = (i.runsAmong ks).map Run.wrap ∧
      ∀ run ∈ i.runsAmong ks, a ≤ run.first ∧ run.stop ≤ a + 8191 := by
  induction ks with
  | nil => exact ⟨rfl, fun run hrun => by cases hrun⟩
  | cons k ks ih =>
      obtain ⟨hle, hlt⟩ := hks k List.mem_cons_self
      obtain ⟨hwrap, hnear⟩ := ih fun j hj => hks j (List.mem_cons_of_mem k hj)
      have hmem : ofPosition k ∈ s.held ↔ k ∈ i.held := h.held.mem_iff (by omega) (by omega)
      rw [List.map_cons]
      by_cases hheld : k ∈ i.held
      · have hskip : i.runsAmong (k :: ks) = i.runsAmong ks :=
          if_pos (Std.ExtTreeMap.contains_iff_mem.mpr hheld)
        rw [AudioIntake.Sequencer.runsAmong_cons_held (hmem.mpr hheld), hskip]
        exact ⟨hwrap, hnear⟩
      · have hcons : i.runsAmong (k :: ks) =
            Run.consMissing k (i.retries.getD k 0) (i.runsAmong ks) :=
          if_neg fun h => hheld (Std.ExtTreeMap.contains_iff_mem.mp h)
        rw [AudioIntake.Sequencer.runsAmong_cons_missing (mt hmem.mp hheld), hcons, hwrap,
          AudioIntake.Sequencer.counter, h.retries.getD_eq (by omega) (by omega)]
        exact ⟨consMissing_wrap hnear hle hlt, consMissing_near hnear hle hlt⟩

theorem runs (h : Mirrors i.low i s) (hs : s.Ordered) :
    s.runs = i.runs.map Run.wrap ∧
      ∀ run ∈ i.runs, i.low ≤ run.first ∧ run.stop ≤ i.low + 8191 := by
  have hruns := h.runsAmong i.window fun k hk => h.mem_window hk
  rwa [← h.window_eq hs] at hruns

theorem tick (h : Mirrors i.low i s) (hs : s.Sound) :
    Mirrors i.low i.tick.1 s.tick.1 ∧ Wraps i.tick.2 s.tick.2 := by
  rw [Sequencer.tick, AudioIntake.Sequencer.tick, h.closed_eq, h.held.isEmpty_eq]
  split
  · exact ⟨h, .empty⟩
  · have hage : Mirrors i.age.low i.age s.age := h.age hs.toOrdered
    have hordered : s.age.Ordered := ⟨hs.seqno_eq, hs.ahead⟩
    obtain ⟨hruns, hnear⟩ := hage.runs hordered
    dsimp only
    rw [hruns]
    exact hage.escalateAll hnear

end Mirrors

end AudioIntake.Unrolled
