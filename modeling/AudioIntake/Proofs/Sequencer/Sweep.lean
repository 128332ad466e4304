import AudioIntake.Proofs.Sequencer.Tiling

/-!
# Sweeps

An event accounts for the numbers it puts behind the delivery point: one for a packet delivered, a
run for one given up. A sweep is a move of the delivery point whose events account for exactly the
numbers it passes, in their order, with every held packet among them delivered.
-/

namespace AudioIntake

def Event.accounted : Event → List SeqNo
  | output packet => [packet.seqno]
  | evict first count => (List.range count).map (first + ·)
  | _ => []

namespace Report

def accounted (r : Report) : List SeqNo := r.events.flatMap Event.accounted

@[simp] theorem accounted_append (a b : Report) :
    (a ++ b).accounted = a.accounted ++ b.accounted := by
  simp [accounted]

end Report

theorem flatMap_accounted_output (ps : List Packet) :
    (ps.map Event.output).flatMap Event.accounted = ps.map Packet.seqno := by
  induction ps with
  | nil => rfl
  | cons p ps ih =>
      rw [List.map_cons, List.flatMap_cons, ih]
      rfl

theorem filterMap_delivery_output (ps : List Packet) :
    (ps.map Event.output).filterMap Event.delivery? = ps := by
  simp [List.filterMap_map, Function.comp_def, Event.delivery?]

namespace Sequencer

variable {s t u : Sequencer} {m n c : Nat} {k : SeqNo} {r r' : Report} {ps : List Packet}

/-! ### What a drain delivers -/

theorem Drained.map_seqno (h : Drained s t ps)
    (hs : ∀ {n : SeqNo} {p : Packet}, s.held[n]? = some p → p.seqno = n) :
    ps.map Packet.seqno = (List.range ps.length).map (s.low + ·) := by
  apply List.ext_getElem
  · simp
  · intro i hi _
    rw [List.length_map] at hi
    have hget := h.getElem?_delivered i hi
    rw [List.getElem?_eq_getElem hi] at hget
    simpa using hs hget

theorem Drained.eq_filterMap (h : Drained s t ps) :
    ps = (List.range ps.length).filterMap fun i => s.held[s.low + i]? := by
  have hsome : (List.range ps.length).map (fun i => s.held[s.low + i]?) = ps.map some := by
    apply List.ext_getElem
    · simp
    · intro i hi _
      simp only [List.length_map, List.length_range] at hi
      simp [h.getElem?_delivered i hi, List.getElem?_eq_getElem hi]
  calc
    ps = (ps.map some).filterMap id := by simp [List.filterMap_map]
    _ = ((List.range ps.length).map fun i => s.held[s.low + i]?).filterMap id := by rw [hsome]
    _ = (List.range ps.length).filterMap fun i => s.held[s.low + i]? := by
      rw [List.filterMap_map]
      rfl

theorem range_map_add (a : SeqNo) (n m : Nat) :
    (List.range (n + m)).map (a + ·) =
      (List.range n).map (a + ·) ++ (List.range m).map (a + n + ·) := by
  simp [List.range_add, Function.comp_def, SeqNo.add_add]

/-! ### Skipping ahead and draining

The delivery point is put `c` numbers ahead, over numbers of which none is held, and then what is
held there is delivered. -/

section Skip

variable {retries : Std.ExtTreeMap SeqNo Nat} {tally : Tally}
  (h : Drained { s with low := s.low + c, retries, tally } t ps)

include h

theorem Drained.passed_held : ∀ i < ps.length, s.low + (c + i) ∈ s.held := by
  intro i hi
  have hget := h.getElem?_delivered i hi
  rw [List.getElem?_eq_getElem hi, SeqNo.add_add] at hget
  exact (Std.ExtTreeMap.getElem?_eq_some_iff.mp hget).1

theorem Drained.delivered_eq (hfree : ∀ i < c, s.low + i ∉ s.held) :
    ps = (List.range (c + ps.length)).filterMap fun i => s.held[s.low + i]? := by
  have hskipped : (List.range c).filterMap (fun i => s.held[s.low + i]?) = [] := by
    rw [List.filterMap_eq_nil_iff]
    intro i hi
    exact Std.ExtTreeMap.getElem?_eq_none (hfree i (List.mem_range.mp hi))
  rw [List.range_add, List.filterMap_append, hskipped, List.nil_append, List.filterMap_map]
  have hps := h.eq_filterMap
  simp only [SeqNo.add_add] at hps
  exact hps

theorem Drained.length_lt (hs : s.Sound) (hc : c ≤ 57344) : c + ps.length < 65536 := by
  by_contra hge
  have hfar := hs.stepsTo_le (h.passed_held (57345 - c) (by omega))
  rw [SeqNo.stepsTo_add _ (by omega)] at hfar
  omega

theorem Drained.getElem?_moved (hfree : ∀ i < c, s.low + i ∉ s.held) (k : SeqNo) :
    t.held[k]? = if s.low.stepsTo k < c + ps.length then none else s.held[k]? := by
  rw [h.getElem?_held]
  dsimp only
  by_cases hk : s.low.stepsTo k < c
  · have hnot := hfree _ hk
    rw [SeqNo.add_stepsTo] at hnot
    simp [Std.ExtTreeMap.getElem?_eq_none hnot]
  · rw [SeqNo.stepsTo_add_left (Nat.not_lt.mp hk)]
    by_cases hpast : s.low.stepsTo k < c + ps.length
    · rw [if_pos (by omega), if_pos hpast]
    · rw [if_neg (by omega), if_neg hpast]

theorem Drained.moves (hs : s.Sound) (hc : c ≤ 57344) (hfree : ∀ i < c, s.low + i ∉ s.held)
    (hretries : ∀ k, retries[k]? = if s.low.stepsTo k < c then none else s.retries[k]?) :
    Moves s t (c + ps.length) := by
  have hlt := h.length_lt hs hc
  have hlow : t.low = s.low + (c + ps.length) := h.low_eq.trans (SeqNo.add_add _ _ _)
  have hheld := h.getElem?_moved hfree
  have hlacks : ∀ {k : SeqNo}, t.Lacks k ↔ s.Lacks k ∧ c + ps.length ≤ s.low.stepsTo k :=
    lacks_iff_of_moved hlt hlow hheld
  refine
    { lt := hlt
      low_eq := hlow
      getElem?_held := hheld
      due := h.due
      lacks_of_counted := ?_
      getElem?_retries := ?_
      ladder_eq := h.ladder_eq
      started_eq := h.started_eq
      closed_eq := h.closed_eq }
  · intro k hk
    rw [h.retries_eq] at hk
    split at hk
    · exact absurd hk Std.ExtTreeMap.not_mem_empty
    · rw [Std.ExtTreeMap.mem_iff_isSome_getElem?] at hk
      dsimp only at hk
      rw [hretries] at hk
      split at hk
      · cases hk
      · rename_i hle
        have hsk := hs.lacks_of_counted (Std.ExtTreeMap.mem_iff_isSome_getElem?.mpr hk)
        refine hlacks.mpr ⟨hsk, ?_⟩
        -- Between the numbers skipped and the new delivery point everything was held.
        by_contra hlt
        have hheldk := h.passed_held (s.low.stepsTo k - c) (by omega)
        rw [Nat.add_sub_cancel' (by omega), SeqNo.add_stepsTo] at hheldk
        exact hsk.not_mem hheldk
  · intro k hk
    have hnonempty : ¬t.held.isEmpty := by
      obtain ⟨-, j, hj, -⟩ := hk
      intro hempty
      rw [Std.ExtTreeMap.isEmpty_iff.mp hempty] at hj
      exact Std.ExtTreeMap.not_mem_empty hj
    rw [h.retries_eq, if_neg hnonempty]
    dsimp only
    have hle := (hlacks.mp hk).2
    rw [hretries, if_neg (by omega)]

end Skip

/-! ### Sweeps -/

structure Sweeps (s t : Sequencer) (r : Report) (n : Nat) : Prop extends Moves s t n where
  accounted_eq : r.accounted = (List.range n).map (s.low + ·)
  delivered_eq : r.delivered = (List.range n).filterMap fun i => s.held[s.low + i]?
  tally_eq : t.tally.delivered + t.tally.evictedPackets =
    s.tally.delivered + s.tally.evictedPackets + n
  reached : n = 0 ∨ s.low + (n - 1) ∈ s.held

namespace Sweeps

theorem refl (hs : s.Sound) (tally : Tally)
    (htally : tally.delivered + tally.evictedPackets =
      s.tally.delivered + s.tally.evictedPackets)
    (haccounted : r.accounted = []) (hdelivered : r.delivered = []) :
    Sweeps s { s with tally } r 0 where
  toMoves := { Moves.refl hs with }
  accounted_eq := haccounted
  delivered_eq := hdelivered
  tally_eq := htally
  reached := Or.inl rfl

theorem trans (hs : s.Sound) (h : Sweeps s t r n) (h' : Sweeps t u r' m) :
    Sweeps s u (r ++ r') (n + m) := by
  have hadd : ∀ i, t.low + i = s.low + (n + i) := fun i => by rw [h.low_eq, SeqNo.add_add]
  have hreached : n + m = 0 ∨ s.low + (n + m - 1) ∈ s.held := by
    rcases h'.reached with rfl | hlast
    · exact h.reached
    · by_cases hm : m = 0
      · subst hm
        exact h.reached
      · refine Or.inr ?_
        rw [hadd, ← Nat.add_sub_assoc (by omega)] at hlast
        exact (h.mem_held.mp hlast).1
  have hlt : n + m < 65536 := by
    rcases h'.reached with rfl | hlast
    · exact h.lt
    · obtain ⟨hmem, hle⟩ := h.mem_held.mp hlast
      have hfar := hs.stepsTo_le hmem
      have hsteps := h.stepsTo_eq hle
      have hm := h'.lt
      rw [SeqNo.stepsTo_add _ (by omega)] at hsteps
      omega
  refine { h.toMoves.trans h'.toMoves hlt with
    accounted_eq := ?_, delivered_eq := ?_, tally_eq := ?_, reached := hreached }
  · rw [Report.accounted_append, h.accounted_eq, h'.accounted_eq, range_map_add, h.low_eq]
  · rw [Report.delivered_append, h.delivered_eq, h'.delivered_eq, List.range_add,
      List.filterMap_append, List.filterMap_map]
    congr 1
    apply List.filterMap_congr
    intro i hi
    have him := List.mem_range.mp hi
    rw [h.getElem?_held, hadd, SeqNo.stepsTo_add _ (by omega), if_neg (by omega)]
    rfl
  · rw [h'.tally_eq, h.tally_eq, Nat.add_assoc]

/-- What was held is still held, or it has been delivered. -/
theorem held_or_delivered (h : Sweeps s t r n) {p : Packet} (hp : s.held[k]? = some p) :
    t.held[k]? = some p ∨ (k ∉ t.held ∧ p ∈ r.delivered) := by
  by_cases hlt : s.low.stepsTo k < n
  · refine Or.inr ⟨fun hk => ?_, ?_⟩
    · have hle := (h.mem_held.mp hk).2
      omega
    · rw [h.delivered_eq, List.mem_filterMap]
      exact ⟨_, List.mem_range.mpr hlt, by rwa [SeqNo.add_stepsTo]⟩
  · refine Or.inl ?_
    rw [h.getElem?_held, if_neg hlt, hp]

end Sweeps

end Sequencer

end AudioIntake
