import AudioIntake.Proofs.Sequencer.Calls
import Mathlib.Data.Finset.Card

/-!
# Any order of arrival is put right

As long as nothing is given up, what has been delivered and what is held depend only on which
numbers have arrived so far, and on which copy of each came first. `Sorts first arrivals s t r m`
says so of the arrivals handled between `s` and `t`: the first `m` numbers from `first` on have all
arrived and left in order, the next one has not arrived, and whatever has arrived from behind it is
held. One more packet keeps that up, whether it is late, a copy, early or the one due.
-/

namespace AudioIntake.Sequencer

variable {s t u : Sequencer} {r r' : Report} {p : Packet} {arrivals : List Packet}
  {first n : SeqNo} {m : Nat}

/-- The copy of a number that arrived first. -/
def earliest? (arrivals : List Packet) (n : SeqNo) : Option Packet :=
  arrivals.find? fun p => p.seqno = n

theorem earliest?_append_singleton (arrivals : List Packet) (p : Packet) (n : SeqNo) :
    earliest? (arrivals ++ [p]) n =
      (earliest? arrivals n).or (if p.seqno = n then some p else none) := by
  rw [earliest?, List.find?_append, List.find?_singleton, earliest?]
  simp only [decide_eq_true_eq]

/-- A packet changes nothing about any other number than its own. -/
theorem earliest?_append_of_ne (hne : p.seqno ≠ n) :
    earliest? (arrivals ++ [p]) n = earliest? arrivals n := by
  rw [earliest?_append_singleton, if_neg hne, Option.or_none]

theorem earliest?_add_of_ne {o : Nat} (ho : o < 65536) (hne : first.stepsTo p.seqno ≠ o) :
    earliest? (arrivals ++ [p]) (first + o) = earliest? arrivals (first + o) := by
  refine earliest?_append_of_ne fun heq => hne ?_
  rw [heq, SeqNo.stepsTo_add _ ho]

theorem earliest?_append_of_none (hnew : earliest? arrivals p.seqno = none) :
    earliest? (arrivals ++ [p]) p.seqno = some p := by
  rw [earliest?_append_singleton, hnew, if_pos rfl, Option.none_or]

theorem earliest?_eq_none : earliest? arrivals n = none ↔ ∀ p ∈ arrivals, p.seqno ≠ n := by
  simp [earliest?, List.find?_eq_none]

theorem seqno_of_earliest? (h : earliest? arrivals n = some p) : p.seqno = n := by
  simpa using List.find?_some h

theorem isSome_earliest? : (earliest? arrivals n).isSome ↔ ∃ p ∈ arrivals, p.seqno = n := by
  simp [earliest?, List.find?_isSome]

/-- Every packet lies so close behind `first` that `delta` is right about any two of them. -/
def Near (first : SeqNo) (arrivals : List Packet) : Prop :=
  ∀ p ∈ arrivals, first.stepsTo p.seqno ≤ 8190

structure Sorts (first : SeqNo) (arrivals : List Packet) (s t : Sequencer) (r : Report) (m : Nat) :
    Prop where
  low?_eq : t.low? = some (first + m)
  due : earliest? arrivals (first + m) = none
  delivered_eq :
    r.delivered.map some = (List.range m).map fun o => earliest? arrivals (first + o)
  getElem?_held : ∀ n, t.held[n]? = if m < first.stepsTo n then earliest? arrivals n else none
  tally_eq : t.tally.stale + t.tally.duplicates + (arrivals.map Packet.seqno).toFinset.card =
    s.tally.stale + s.tally.duplicates + arrivals.length

/-! ### Numbers that have arrived -/

section Arrived

variable (harrived : (earliest? arrivals p.seqno).isSome)

include harrived

theorem earliest?_again : earliest? (arrivals ++ [p]) = earliest? arrivals := by
  funext n
  by_cases hn : p.seqno = n
  · obtain ⟨q, hq⟩ := Option.isSome_iff_exists.mp (hn ▸ harrived)
    rw [earliest?_append_singleton, hq, Option.some_or]
  · exact earliest?_append_of_ne hn

theorem card_again : ((arrivals ++ [p]).map Packet.seqno).toFinset.card =
    (arrivals.map Packet.seqno).toFinset.card := by
  have hmem : p.seqno ∈ (arrivals.map Packet.seqno).toFinset := by
    rw [List.mem_toFinset, List.mem_map]
    exact isSome_earliest?.mp harrived
  rw [List.map_append, List.toFinset_append]
  congr 1
  exact Finset.union_eq_left.mpr (by simpa using hmem)

end Arrived

theorem card_new (hnew : earliest? arrivals p.seqno = none) :
    ((arrivals ++ [p]).map Packet.seqno).toFinset.card =
      (arrivals.map Packet.seqno).toFinset.card + 1 := by
  have hnot : p.seqno ∉ (arrivals.map Packet.seqno).toFinset := by
    rw [List.mem_toFinset, List.mem_map]
    rintro ⟨q, hq, heq⟩
    exact earliest?_eq_none.mp hnew q hq heq
  rw [List.map_append, List.toFinset_append, Finset.card_union_of_disjoint]
  · rfl
  · simpa using hnot

namespace Sorts

theorem isSome_of_lt (h : Sorts first arrivals s t r m) {o : Nat} (ho : o < m) :
    (earliest? arrivals (first + o)).isSome := by
  have hmem : earliest? arrivals (first + o) ∈ r.delivered.map some := by
    rw [h.delivered_eq]
    exact List.mem_map.mpr ⟨o, List.mem_range.mpr ho, rfl⟩
  obtain ⟨q, -, hq⟩ := List.mem_map.mp hmem
  rw [← hq]
  rfl

theorem le (h : Sorts first arrivals s t r m) (hnear : Near first arrivals) : m ≤ 8191 := by
  by_contra hlt
  obtain ⟨q, hq, hseqno⟩ := isSome_earliest?.mp (h.isSome_of_lt (o := 8191) (by omega))
  have hle := hnear q hq
  rw [hseqno, SeqNo.stepsTo_add _ (by decide)] at hle
  omega

theorem low_eq (h : Sorts first arrivals s t r m) : t.low = first + m :=
  (low?_eq_some.mp h.low?_eq).2

theorem started (h : Sorts first arrivals s t r m) : t.started = true :=
  (low?_eq_some.mp h.low?_eq).1

/-- The lead of a packet that comes next is its distance from the delivery point on the line. -/
theorem delta_eq (h : Sorts first arrivals s t r m) (hnear : Near first arrivals)
    (hp : first.stepsTo p.seqno ≤ 8190) : p.seqno.delta t.low = first.stepsTo p.seqno - m := by
  have hm := h.le hnear
  have hdelta := SeqNo.delta_add_add first (m := m) (n := first.stepsTo p.seqno)
    (by omega) (by omega)
  rwa [SeqNo.add_stepsTo, ← h.low_eq] at hdelta

theorem mem_held (h : Sorts first arrivals s t r m) :
    n ∈ t.held ↔ m < first.stepsTo n ∧ ∃ p ∈ arrivals, p.seqno = n := by
  rw [Std.ExtTreeMap.mem_iff_isSome_getElem?, h.getElem?_held, ← isSome_earliest?]
  split
  · rename_i hlt
    exact (and_iff_right hlt).symm
  · rename_i hge
    simp [hge]

/-! ### One more packet -/

/-- A packet whose number has arrived before is let go and counted. -/
theorem refuse (h : Sorts first arrivals s t r m)
    (harrived : (earliest? arrivals p.seqno).isSome) {tally : Tally} {d : Disposition}
    (htally : tally.stale + tally.duplicates = t.tally.stale + t.tally.duplicates + 1) :
    Sorts first (arrivals ++ [p]) s { t with tally } (r ++ refusal p d) m where
  low?_eq := h.low?_eq
  due := by rw [earliest?_again harrived, h.due]
  delivered_eq := by
    rw [Report.delivered_append, earliest?_again harrived, ← h.delivered_eq]
    simp [refusal, Report.delivered, Event.delivery?]
  getElem?_held := by
    rw [earliest?_again harrived]
    exact h.getElem?_held
  tally_eq := by
    have hcount := h.tally_eq
    rw [card_again harrived, List.length_append, List.length_singleton]
    dsimp only
    omega

theorem hold (h : Sorts first arrivals s t r m) (hlt : m < first.stepsTo p.seqno)
    (hfree : p.seqno ∉ t.held) :
    Sorts first (arrivals ++ [p]) s
      { t with held := t.held.insert p.seqno p, retries := t.retries.erase p.seqno }
      (r ++ { events := [.input p.seqno p.retransmitted .held], requests := [], released := [] })
      m := by
  have hnew : earliest? arrivals p.seqno = none := by
    rw [earliest?_eq_none]
    intro q hq heq
    exact hfree (h.mem_held.mpr ⟨hlt, q, hq, heq⟩)
  have hm := first.stepsTo_lt p.seqno
  refine ⟨h.low?_eq, ?_, ?_, ?_, ?_⟩
  · rw [earliest?_add_of_ne (by omega) (by omega), h.due]
  · rw [Report.delivered_append, List.map_append, h.delivered_eq]
    refine (List.append_nil _).trans (List.map_congr_left fun o ho => ?_)
    have ho := List.mem_range.mp ho
    exact (earliest?_add_of_ne (by omega) (by omega)).symm
  · intro n
    dsimp only
    rw [Std.ExtTreeMap.getElem?_insert, h.getElem?_held]
    simp only [Std.LawfulEqCmp.compare_eq_iff_eq]
    by_cases hn : p.seqno = n
    · subst hn
      rw [if_pos rfl, if_pos hlt, earliest?_append_of_none hnew]
    · rw [if_neg hn, earliest?_append_of_ne hn]
  · have hcount := h.tally_eq
    rw [card_new hnew, List.length_append, List.length_singleton]
    dsimp only
    omega

section Deliver

variable {ps : List Packet} {retries : Std.ExtTreeMap SeqNo Nat} {tally : Tally}
  (h : Sorts first arrivals s t r m) (hnear : Near first arrivals) (hm : m ≤ 8190)
  (hdrained : Drained { t with low := t.low + 1, retries, tally } u ps)

include h hdrained

theorem held_waiting {i : Nat} (hi : i < ps.length) : first + (m + (1 + i)) ∈ t.held := by
  have hheld := hdrained.passed_held i hi
  rwa [h.low_eq, SeqNo.add_add] at hheld

include hnear hm in
/-- What waits behind the packet due has arrived, so it does not reach beyond the packets near. -/
theorem length_waiting : m + (1 + ps.length) ≤ 8191 := by
  by_contra hlt
  obtain ⟨q, hq, hseqno⟩ := (h.mem_held.mp (h.held_waiting hdrained (i := 8190 - m) (by omega))).2
  have hle := hnear q hq
  rw [hseqno, SeqNo.stepsTo_add _ (by omega)] at hle
  omega

include hnear hm in
theorem map_some_waiting :
    ps.map some =
      (List.range ps.length).map fun i => earliest? arrivals (first + (m + (1 + i))) := by
  have hlen := h.length_waiting hnear hm hdrained
  apply List.ext_getElem
  · simp
  · intro i hi _
    rw [List.length_map] at hi
    have hget := hdrained.getElem?_delivered i hi
    dsimp only at hget
    rw [SeqNo.add_add, h.low_eq, SeqNo.add_add, h.getElem?_held, SeqNo.stepsTo_add _ (by omega),
      if_pos (by omega), List.getElem?_eq_getElem hi] at hget
    simpa using hget.symm

include hnear hm in
/-- The delivery point comes to rest at a number that has not arrived. -/
theorem due_behind_waiting (hmoves : Moves t u (1 + ps.length)) :
    earliest? arrivals (first + (m + (1 + ps.length))) = none := by
  have hlen := h.length_waiting hnear hm hdrained
  have hnot : t.low + (1 + ps.length) ∉ t.held := by
    intro hheld
    apply hmoves.due
    rw [hmoves.mem_held, hmoves.low_eq, SeqNo.stepsTo_add _ (by omega)]
    exact ⟨hheld, Nat.le_refl _⟩
  rw [h.low_eq, SeqNo.add_add, Std.ExtTreeMap.mem_iff_isSome_getElem?, h.getElem?_held,
    SeqNo.stepsTo_add _ (by omega), if_pos (by omega)] at hnot
  simpa using hnot

include hnear hm in
/-- Delivered are the earliest copies up to the new delivery point. -/
theorem delivered_waiting (hseqno : p.seqno = first + m) :
    (r.delivered ++ p :: ps).map some =
      (List.range (m + (1 + ps.length))).map fun o => earliest? (arrivals ++ [p]) (first + o) := by
  have hlen := h.length_waiting hnear hm hdrained
  have hsteps : first.stepsTo p.seqno = m := by rw [hseqno, SeqNo.stepsTo_add _ (by omega)]
  have hself : earliest? (arrivals ++ [p]) (first + m) = some p := by
    rw [← hseqno]
    exact earliest?_append_of_none (hseqno ▸ h.due)
  have hbefore : r.delivered.map some =
      (List.range m).map fun o => earliest? (arrivals ++ [p]) (first + o) := by
    rw [h.delivered_eq]
    refine List.map_congr_left fun o ho => ?_
    have ho := List.mem_range.mp ho
    exact (earliest?_add_of_ne (by omega) (by omega)).symm
  have hwaiting : ps.map some = (List.range ps.length).map fun i =>
      earliest? (arrivals ++ [p]) (first + (m + (1 + i))) := by
    rw [h.map_some_waiting hnear hm hdrained]
    refine List.map_congr_left fun i hi => ?_
    have hi := List.mem_range.mp hi
    exact (earliest?_add_of_ne (by omega) (by omega)).symm
  rw [List.map_append, hbefore, List.range_add, List.map_append, List.range_add]
  simp only [List.map_cons, hwaiting, List.map_map, List.range_one, Nat.add_zero, hself,
    List.singleton_append, Function.comp_def]

include hnear hm in
/-- Held are the earliest copies behind the new delivery point. -/
theorem getElem?_held_waiting (hseqno : p.seqno = first + m) (hmoves : Moves t u (1 + ps.length))
    (n : SeqNo) :
    u.held[n]? =
      if m + (1 + ps.length) < first.stepsTo n then earliest? (arrivals ++ [p]) n else none := by
  have hlen := h.length_waiting hnear hm hdrained
  have hdue := h.due_behind_waiting hnear hm hdrained hmoves
  rw [hmoves.getElem?_held, h.getElem?_held]
  by_cases hle : first.stepsTo n ≤ m
  · rw [if_neg (Nat.not_lt.mpr hle), ite_self, if_neg (by omega)]
  · have hsteps : t.low.stepsTo n = first.stepsTo n - m := by
      rw [h.low_eq, SeqNo.stepsTo_add_left (by omega)]
    rw [hsteps, if_pos (Nat.not_le.mp hle)]
    rcases Nat.lt_trichotomy (first.stepsTo n) (m + (1 + ps.length)) with hlt | heq | hgt
    · rw [if_pos (by omega), if_neg (by omega)]
    · rw [if_neg (by omega), if_neg (by omega), ← hdue, ← heq, SeqNo.add_stepsTo]
    · have hne : p.seqno ≠ n := by
        rintro rfl
        rw [hseqno, SeqNo.stepsTo_add _ (by omega)] at hgt
        omega
      rw [if_neg (by omega), if_pos hgt, earliest?_append_of_ne hne]

include hnear hm in
/-- The packet due leaves with everything that waited for it. -/
theorem deliver (hlow : p.seqno = t.low) (hmoves : Moves t u (1 + ps.length))
    (htally : tally.stale + tally.duplicates = t.tally.stale + t.tally.duplicates) :
    Sorts first (arrivals ++ [p]) s u
      (r ++ { events := .input p.seqno p.retransmitted .delivered :: (p :: ps).map .output
              requests := []
              released := [] }) (m + (1 + ps.length)) := by
  have hlen := h.length_waiting hnear hm hdrained
  have hseqno : p.seqno = first + m := hlow.trans h.low_eq
  refine ⟨?_, ?_, ?_, h.getElem?_held_waiting hnear hm hdrained hseqno hmoves, ?_⟩
  · rw [low?_eq_some, hmoves.started_eq, hmoves.low_eq, h.low_eq, SeqNo.add_add]
    exact ⟨h.started, rfl⟩
  · have hsteps : first.stepsTo p.seqno = m := by rw [hseqno, SeqNo.stepsTo_add _ (by omega)]
    rw [earliest?_add_of_ne (by omega) (by omega)]
    exact h.due_behind_waiting hnear hm hdrained hmoves
  · rw [← h.delivered_waiting hnear hm hdrained hseqno, Report.delivered_append, Report.delivered,
      Report.delivered, List.filterMap_cons, filterMap_delivery_output]
    rfl
  · have hcount := h.tally_eq
    rw [card_new (hseqno ▸ h.due), List.length_append, List.length_singleton, hdrained.tally_eq]
    dsimp only
    omega

end Deliver

theorem placed (h : Sorts first arrivals s t r m) (hs : t.Sound)
    (hnear : Near first (arrivals ++ [p])) (hp : Placed t p u r') :
    ∃ m', Sorts first (arrivals ++ [p]) s u (r ++ r') m' := by
  have hbefore : Near first arrivals := fun q hq => hnear q (List.mem_append_left _ hq)
  have hone : first.stepsTo p.seqno ≤ 8190 := hnear p (by simp)
  have hdelta := h.delta_eq hbefore hone
  cases hp with
  | delivered hlow hdrained =>
      have hm : m ≤ 8190 := by
        rw [hlow, SeqNo.delta_self] at hdelta
        rw [hlow] at hone
        omega
      exact ⟨_, h.deliver hbefore hm hdrained hlow (Placed.moves hs hlow hdrained) rfl⟩
  | stale hbehind =>
      have harrived := h.isSome_of_lt (o := first.stepsTo p.seqno) (by omega)
      rw [SeqNo.add_stepsTo] at harrived
      exact ⟨_, h.refuse harrived (by dsimp only; omega)⟩
  | duplicate hheld =>
      exact ⟨_, h.refuse (isSome_earliest?.mpr (h.mem_held.mp hheld).2) (by dsimp only; omega)⟩
  | held hahead hfree => exact ⟨_, h.hold (by omega) hfree⟩

theorem handled (h : Sorts first arrivals s t r m) (hs : t.Sound)
    (hnear : Near first (arrivals ++ [p])) :
    ∃ m', Sorts first (arrivals ++ [p]) s (t.handle p).1 (r ++ (t.handle p).2) m' := by
  have hplaced := (handled_handle hs p).of_started hs h.started
  have hcounted : Sorts first arrivals s t.countReceived r m := { h with }
  exact hcounted.placed (hs.withTally _) hnear hplaced

theorem run (h : Sorts first arrivals s t r m) (hs : t.Sound) {rest : List Packet}
    (hnear : Near first (arrivals ++ rest)) :
    ∃ m', Sorts first (arrivals ++ rest) s (t.run (rest.map .handle)).1
      (r ++ (t.run (rest.map .handle)).2) m' := by
  induction rest generalizing arrivals t r m with
  | nil =>
      rw [List.append_nil, List.map_nil, Sequencer.run, Report.append_empty]
      exact ⟨m, h⟩
  | cons p rest ih =>
      rw [List.append_cons] at hnear ⊢
      obtain ⟨m', hone⟩ := h.handled hs (p := p) fun q hq => hnear q (List.mem_append_left _ hq)
      rw [List.map_cons, run_cons, ← Report.append_assoc]
      exact ih hone (sound_call hs (.handle p)) hnear

/-! ### What the arrivals determine -/

theorem map_seqno_delivered (h : Sorts first arrivals s t r m) :
    r.delivered.map Packet.seqno = (List.range m).map (first + ·) := by
  have hseqno : ∀ o ∈ List.range m,
      (earliest? arrivals (first + o)).map Packet.seqno = some (first + o) := by
    intro o ho
    obtain ⟨q, hq⟩ := Option.isSome_iff_exists.mp (h.isSome_of_lt (List.mem_range.mp ho))
    rw [hq, Option.map_some, seqno_of_earliest? hq]
  apply List.map_injective_iff.mpr (Option.some_injective SeqNo)
  calc
    (r.delivered.map Packet.seqno).map some =
        (r.delivered.map some).map (Option.map Packet.seqno) := by
      simp only [List.map_map, Function.comp_def, Option.map_some]
    _ = (List.range m).map fun o => (earliest? arrivals (first + o)).map Packet.seqno := by
      rw [h.delivered_eq, List.map_map]
      rfl
    _ = ((List.range m).map (first + ·)).map some := by
      rw [List.map_congr_left hseqno, List.map_map]
      rfl

theorem frontier_eq (h : Sorts first arrivals s t r m) {arrivals' : List Packet} {m' : Nat}
    (h' : Sorts first arrivals' s u r' m') (hsame : arrivals'.Perm arrivals) : m' = m := by
  have hiff : ∀ n, (earliest? arrivals' n).isSome ↔ (earliest? arrivals n).isSome := by
    intro n
    simp only [isSome_earliest?, hsame.mem_iff]
  rcases Nat.lt_trichotomy m' m with hlt | heq | hgt
  · have hsome := (hiff _).mpr (h.isSome_of_lt hlt)
    rw [h'.due] at hsome
    cases hsome
  · exact heq
  · have hsome := (hiff _).mp (h'.isSome_of_lt hgt)
    rw [h.due] at hsome
    cases hsome

end Sorts

/-- The stream begins when its first packet sets the delivery point. -/
theorem sorts_begin (hs : s.Sound) (hidle : s.started = false) (first : SeqNo) :
    Sorts first [] s (s.countReceived.start first) .empty 0 := by
  rw [start_of_idle (s := s.countReceived) hidle]
  refine ⟨?_, rfl, rfl, fun n => ?_, rfl⟩
  · rw [low?_eq_some, SeqNo.add_zero]
    exact ⟨rfl, rfl⟩
  · change s.held[n]? = if 0 < first.stepsTo n then none else none
    rw [hs.held_of_idle hidle, ite_self, Std.ExtTreeMap.getElem?_empty]

theorem sorts_run (hs : s.Sound) (hopen : s.closed = false) (hidle : s.started = false)
    {rest : List Packet} (hprimary : p.retransmitted = false)
    (hnear : Near p.seqno (p :: rest)) :
    ∃ m, Sorts p.seqno (p :: rest) s (s.run ((p :: rest).map .handle)).1
      (s.run ((p :: rest).map .handle)).2 m := by
  rw [List.map_cons, run_cons]
  change ∃ m, Sorts p.seqno (p :: rest) s ((s.handle p).1.run (rest.map .handle)).1
    ((s.handle p).2 ++ ((s.handle p).1.run (rest.map .handle)).2) m
  have hhandled := handled_handle hs p
  generalize (s.handle p).1 = t at hhandled ⊢
  generalize (s.handle p).2 = r at hhandled ⊢
  have hsound := hhandled.sound hs
  cases hhandled with
  | closed hclosed => exact absurd (hopen.symm.trans hclosed) (by decide)
  | notStarted _ _ hcopy => exact absurd (hprimary.symm.trans hcopy) (by decide)
  | placed _ _ hplaced =>
      obtain ⟨m, hone⟩ := (sorts_begin hs hidle p.seqno).placed (sound_opened hs hopen p.seqno)
        (fun q hq => hnear q (List.mem_cons.mpr (Or.inl (by simpa using hq)))) hplaced
      rw [List.nil_append, Report.empty_append] at hone
      exact hone.run hsound hnear

/-- For packets handled on an open sequencer without a delivery point, in any order, with any copies
and retransmissions among them, the first of them primary and the others at most 8190 numbers ahead
of it: delivered are the earliest copies of all numbers from the first one up to, but without, the
first that is missing, in order; held are the earliest copies of all numbers behind that one; the
delivery point stands there, a gap is open if anything is held, and every further copy is counted as
stale or duplicate. So packets that arrive in another order, with the first number still in front,
end in the same numbers delivered and held. -/
theorem arrivals_sorted (ladder : Ladder) (before : List Call) (p : Packet) (rest : List Packet)
    (hopen : ((ofLadder ladder).run before).1.closed = false)
    (hidle : ((ofLadder ladder).run before).1.started = false)
    (hprimary : p.retransmitted = false)
    (hnear : ∀ q ∈ p :: rest, ∃ o ≤ 8190, q.seqno = p.seqno + o) :
    let s := ((ofLadder ladder).run before).1
    let arrivals := p :: rest
    let after := s.run (arrivals.map .handle)
    (∃ m, (∀ o < m, ∃ q ∈ arrivals, q.seqno = p.seqno + o) ∧
      (∀ q ∈ arrivals, q.seqno ≠ p.seqno + m) ∧
      after.2.delivered.map some =
        (List.range m).map (fun o => earliest? arrivals (p.seqno + o)) ∧
      (∀ n, after.1.held[n]? =
        if m < p.seqno.stepsTo n then earliest? arrivals n else none) ∧
      after.1.low? = some (p.seqno + m) ∧
      (after.1.inRecovery = true ↔ ∃ q ∈ arrivals, m < p.seqno.stepsTo q.seqno)) ∧
    after.1.tally.stale + after.1.tally.duplicates + (arrivals.map Packet.seqno).toFinset.card =
      s.tally.stale + s.tally.duplicates + arrivals.length ∧
    ∀ q others, q.retransmitted = false → q.seqno = p.seqno → (q :: others).Perm arrivals →
      let after' := s.run ((q :: others).map .handle)
      after'.2.delivered.map Packet.seqno = after.2.delivered.map Packet.seqno ∧
        ∀ n, n ∈ after'.1.held ↔ n ∈ after.1.held := by
  intro s arrivals after
  have hs : s.Sound := sound_reached ladder before
  have hall : Near p.seqno arrivals := by
    intro q hq
    obtain ⟨o, ho, heq⟩ := hnear q hq
    rw [heq, SeqNo.stepsTo_add _ (by omega)]
    exact ho
  obtain ⟨m, hsorts⟩ := sorts_run hs hopen hidle hprimary hall
  refine ⟨⟨m, ?_, ?_, hsorts.delivered_eq, hsorts.getElem?_held, hsorts.low?_eq, ?_⟩,
    hsorts.tally_eq, ?_⟩
  · exact fun o ho => isSome_earliest?.mp (hsorts.isSome_of_lt ho)
  · exact earliest?_eq_none.mp hsorts.due
  · rw [inRecovery_iff]
    constructor
    · rintro ⟨n, hn⟩
      obtain ⟨hlt, q, hq, rfl⟩ := hsorts.mem_held.mp hn
      exact ⟨q, hq, hlt⟩
    · rintro ⟨q, hq, hlt⟩
      exact ⟨q.seqno, hsorts.mem_held.mpr ⟨hlt, q, hq, rfl⟩⟩
  · intro q others hq hsame hperm after'
    have hall' : Near q.seqno (q :: others) := by
      intro x hx
      rw [hsame]
      exact hall x (hperm.mem_iff.mp hx)
    obtain ⟨m', hsorts'⟩ := sorts_run hs hopen hidle hq hall'
    rw [hsame] at hsorts'
    obtain rfl := hsorts.frontier_eq hsorts' hperm
    refine ⟨hsorts'.map_seqno_delivered.trans hsorts.map_seqno_delivered.symm, fun n => ?_⟩
    rw [hsorts'.mem_held, hsorts.mem_held]
    simp only [hperm.mem_iff, arrivals]

/-- Around the wrap: a copy, a retransmission that fills the gap in front of the wrap, and one
packet behind a number that never arrives. In the reverse order the same numbers are delivered. -/
theorem arrivals_sorted_across_wrap :
    let packet := fun n copy => Packet.ofOctets (SeqNo.ofNat n) [] copy
    let p := packet 65534 false
    let rest := [packet 0 false, packet 2 false, packet 0 true, packet 65535 true]
    let s := ofLadder { rerequestAt := [1], giveUpAt := 2 }
    s.closed = false ∧ s.started = false ∧ p.retransmitted = false ∧
      (∀ q ∈ p :: rest, ∃ o ≤ 8190, q.seqno = p.seqno + o) ∧
      (s.run ((p :: rest).map .handle)).2.delivered = [p, packet 65535 true, packet 0 false] ∧
      (s.run ((p :: rest.reverse).map .handle)).2.delivered.map Packet.seqno =
        (s.run ((p :: rest).map .handle)).2.delivered.map Packet.seqno := by
  intro packet p rest s
  have hnear : ∀ q ∈ p :: rest, ∃ o ≤ 8190, q.seqno = p.seqno + o := by
    intro q hq
    refine ⟨p.seqno.stepsTo q.seqno, ?_, (SeqNo.add_stepsTo _ _).symm⟩
    exact (by decide : ∀ q ∈ p :: rest, p.seqno.stepsTo q.seqno ≤ 8190) q hq
  refine ⟨rfl, rfl, rfl, hnear, by decide +kernel, ?_⟩
  obtain ⟨-, -, hreordered⟩ :=
    arrivals_sorted { rerequestAt := [1], giveUpAt := 2 } [] p rest rfl rfl rfl hnear
  exact (hreordered p rest.reverse rfl rfl (rest.reverse_perm.cons p)).1

end AudioIntake.Sequencer
