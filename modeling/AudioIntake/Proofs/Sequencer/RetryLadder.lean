import AudioIntake.Proofs.Sequencer.Calls

/-!
# The retry ladder

For how long a number has been missing can be read off the calls alone: a tick counts if the number
is missing before and after it, and any call after which the number is not missing starts the count
anew. The counters of a sequencer agree with that reading. So a tick asks for exactly the missing
numbers that stand on a rung of the ladder, and gives up exactly those that have come to its end.
-/

namespace AudioIntake

variable {run : Run} {runs : List Run} {n : SeqNo}

def Rerequest.seqnos (q : Rerequest) : List SeqNo := (List.range q.count.toNat).map (q.first + ·)

theorem Run.seqnos_request (hcount : run.count < 65536) : run.request.seqnos = run.seqnos := by
  rw [Rerequest.seqnos, Run.request, Run.seqnos]
  dsimp only
  rw [UInt16.toNat_ofNat_of_lt' hcount]

def Event.rerequest? : Event → Option (Rerequest × Nat)
  | rerequest request level => some (request, level)
  | _ => none

def Event.givenUp : Event → List SeqNo
  | evict first count => (List.range count).map (first + ·)
  | _ => []

namespace Report

def asked (r : Report) : List SeqNo := r.requests.flatMap Rerequest.seqnos

def rerequests (r : Report) : List (Rerequest × Nat) := r.events.filterMap Event.rerequest?

def givenUp (r : Report) : List SeqNo := r.events.flatMap Event.givenUp

@[simp] theorem rerequests_append (a b : Report) :
    (a ++ b).rerequests = a.rerequests ++ b.rerequests := by
  simp [rerequests]

@[simp] theorem givenUp_append (a b : Report) : (a ++ b).givenUp = a.givenUp ++ b.givenUp := by
  simp [givenUp]

end Report

/-- Whether the ladder has a rung, below its end, for a number missing that long. -/
def Ladder.Asks (ladder : Ladder) (age : Nat) : Prop :=
  age ∈ ladder.rerequestAt ∧ age < ladder.giveUpAt

instance (ladder : Ladder) (age : Nat) : Decidable (ladder.Asks age) :=
  inferInstanceAs (Decidable (_ ∧ _))

namespace Sequencer

variable {s t : Sequencer} {r : Report} {p : Packet} {k : SeqNo}

/-! ### How long a number has been missing -/

instance (s : Sequencer) (n : SeqNo) : Decidable (s.Lacks n) :=
  decidable_of_iff (n ∉ s.held ∧ ∃ k ∈ s.held.keys, s.low.stepsTo n < s.low.stepsTo k)
    (by simp only [Lacks, Std.ExtTreeMap.mem_keys])

/-- For how many ticks a number has been missing after the calls, if it was for `before` ticks when
they began. -/
def waited (s : Sequencer) (n : SeqNo) (before : Nat) : List Call → Nat
  | [] => before
  | c :: cs =>
    let t := (s.call c).1
    t.waited n (if s.Lacks n ∧ t.Lacks n then before + c.ticks else 0) cs

theorem waited_append (s : Sequencer) (n : SeqNo) (before : Nat) (cs ds : List Call) :
    s.waited n before (cs ++ ds) = (s.run cs).1.waited n (s.waited n before cs) ds := by
  induction cs generalizing s before with
  | nil => rfl
  | cons c cs ih =>
      rw [List.cons_append, waited, run_cons]
      exact ih _ _

theorem counter_call_eq (hs : s.Sound) (c : Call) (n : SeqNo) :
    (s.call c).1.counter n =
      if s.Lacks n ∧ (s.call c).1.Lacks n then s.counter n + c.ticks else 0 := by
  split
  · rename_i hboth
    exact (counter_call hs c hboth.2).1
  · rename_i hnot
    by_cases hafter : (s.call c).1.Lacks n
    · have hbefore : ¬s.Lacks n := fun h => hnot ⟨h, hafter⟩
      obtain ⟨hcounter, htick⟩ := counter_call hs c hafter
      have hquiet : c.ticks = 0 := by
        cases c with
        | tick => exact absurd (htick rfl) hbefore
        | _ => rfl
      rw [hcounter, hs.counter_eq_zero hbefore, hquiet]
    · exact (sound_call hs c).counter_eq_zero hafter

theorem counter_run (hs : s.Sound) (cs : List Call) (n : SeqNo) :
    (s.run cs).1.counter n = s.waited n (s.counter n) cs := by
  induction cs generalizing s with
  | nil => rfl
  | cons c cs ih =>
      rw [run_cons, waited, ← counter_call_eq hs c n]
      exact ih (sound_call hs c)

theorem counter_reached (ladder : Ladder) (cs : List Call) (n : SeqNo) :
    ((ofLadder ladder).run cs).1.counter n = (ofLadder ladder).waited n 0 cs := by
  have hstart := sound_ofLadder ladder
  calc
    ((ofLadder ladder).run cs).1.counter n =
        (ofLadder ladder).waited n ((ofLadder ladder).counter n) cs := counter_run hstart cs n
    _ = (ofLadder ladder).waited n 0 cs := by
      rw [hstart.counter_eq_zero (not_lacks_of_held_empty rfl)]

/-- A call that brings in some other packet, or lets one go unseen. -/
def Call.Spares (n : SeqNo) : Call → Prop
  | .handle p => p.seqno ≠ n
  | .discard _ => True
  | _ => False

theorem lacks_call {c : Call} (hs : s.Sound) (hc : c.Spares n) (hn : s.Lacks n) :
    (s.call c).1.Lacks n ∧ c.ticks = 0 := by
  cases c with
  | handle p => exact ⟨(handled_handle hs p).still_lacks hs hn hc, rfl⟩
  | discard p =>
      obtain ⟨tally, hstate⟩ := s.discard_state p
      refine ⟨?_, rfl⟩
      change (s.discard p).1.Lacks n
      rw [hstate]
      exact hn
  | _ => exact hc.elim

theorem waited_of_spared {cs : List Call} (hs : s.Sound) (hcs : ∀ c ∈ cs, c.Spares n)
    (hn : s.Lacks n) (before : Nat) :
    (s.run cs).1.Lacks n ∧ s.waited n before cs = before := by
  induction cs generalizing s with
  | nil => exact ⟨hn, rfl⟩
  | cons c cs ih =>
      obtain ⟨hlacks, hticks⟩ := lacks_call hs (hcs c List.mem_cons_self) hn
      rw [run_cons, waited, if_pos ⟨hn, hlacks⟩, hticks]
      exact ih (sound_call hs c) (fun d hd => hcs d (List.mem_cons_of_mem c hd)) hlacks

/-! ### What working off the runs reports -/

theorem evict_report (s : Sequencer) (run : Run) :
    (s.evict run).1.ladder = s.ladder ∧ (s.evict run).2.requests = [] ∧
      (s.evict run).2.rerequests = [] ∧ (s.evict run).2.givenUp = run.seqnos := by
  have hrerequests : ∀ ps : List Packet, (ps.map Event.output).filterMap Event.rerequest? = [] := by
    simp [List.filterMap_eq_nil_iff, Event.rerequest?]
  have hgivenUp : ∀ ps : List Packet, (ps.map Event.output).flatMap Event.givenUp = [] := by
    simp [List.flatMap_eq_nil_iff, Event.givenUp]
  rw [evict]
  dsimp only
  split
  · refine ⟨(drained_drain _).ladder_eq, rfl, hrerequests _, ?_⟩
    rw [Report.givenUp, List.flatMap_cons, hgivenUp, List.append_nil]
    rfl
  · refine ⟨rfl, rfl, rfl, ?_⟩
    rw [Report.givenUp, List.flatMap_cons, List.flatMap_nil, List.append_nil]
    rfl

theorem escalate_report (s : Sequencer) (run : Run) :
    (s.escalate run).1.ladder = s.ladder ∧
      (s.escalate run).2.requests = (if s.ladder.Asks run.level then [run.request] else []) ∧
      (s.escalate run).2.rerequests =
        (if s.ladder.Asks run.level then [(run.request, run.level)] else []) ∧
      (s.escalate run).2.givenUp = if s.ladder.giveUpAt ≤ run.level then run.seqnos else [] := by
  by_cases hgive : s.ladder.giveUpAt ≤ run.level
  · have hasks : ¬s.ladder.Asks run.level := fun h => Nat.not_lt.mpr hgive h.2
    rw [escalate_of_le hgive, if_neg hasks, if_neg hasks, if_pos hgive]
    exact evict_report s run
  · rw [escalate, if_neg hgive, if_neg hgive]
    by_cases hrung : run.level ∈ s.ladder.rerequestAt
    · have hasks : s.ladder.Asks run.level := ⟨hrung, Nat.not_le.mp hgive⟩
      rw [if_pos hrung, if_pos hasks, if_pos hasks]
      exact ⟨rfl, rfl, rfl, rfl⟩
    · have hasks : ¬s.ladder.Asks run.level := fun h => hrung h.1
      rw [if_neg hrung, if_neg hasks, if_neg hasks]
      exact ⟨rfl, rfl, rfl, rfl⟩

/-- Every run is judged by its own level, whatever became of the runs before it. -/
theorem escalateAll_report (s : Sequencer) (runs : List Run) :
    (s.escalateAll runs).2.requests =
        (runs.filter fun run => s.ladder.Asks run.level).map Run.request ∧
      (s.escalateAll runs).2.rerequests =
        (runs.filter fun run => s.ladder.Asks run.level).map (fun run => (run.request, run.level)) ∧
      (s.escalateAll runs).2.givenUp =
        (runs.filter fun run => s.ladder.giveUpAt ≤ run.level).flatMap Run.seqnos := by
  induction runs generalizing s with
  | nil => exact ⟨rfl, rfl, rfl⟩
  | cons run runs ih =>
      obtain ⟨hladder, hrequests, hrerequests, hgivenUp⟩ := s.escalate_report run
      obtain ⟨ihrequests, ihrerequests, ihgivenUp⟩ := ih (s.escalate run).1
      rw [hladder] at ihrequests ihrerequests ihgivenUp
      rw [escalateAll_cons]
      refine ⟨?_, ?_, ?_⟩
      · rw [Report.append_requests, hrequests, ihrequests, List.filter_cons]
        by_cases hasks : s.ladder.Asks run.level <;> simp [hasks]
      · rw [Report.rerequests_append, hrerequests, ihrerequests, List.filter_cons]
        by_cases hasks : s.ladder.Asks run.level <;> simp [hasks]
      · rw [Report.givenUp_append, hgivenUp, ihgivenUp, List.filter_cons]
        by_cases hgive : s.ladder.giveUpAt ≤ run.level <;> simp [hgive]

/-! ### The runs of a tick and the ages of their numbers -/

/-- The runs whose level fulfils a condition cover the missing numbers whose age does. -/
theorem mem_filter_runs (hs : s.Sound) (P : Nat → Prop) [DecidablePred P] (n : SeqNo) :
    (∃ run ∈ s.age.runs.filter fun run => P run.level, n ∈ run.seqnos) ↔
      s.Lacks n ∧ P (s.counter n + 1) := by
  have hage := sound_age hs
  have htiled := tiled_runs hage
  have hlevel : ∀ run ∈ s.age.runs, n ∈ run.seqnos → s.Lacks n ∧ s.counter n + 1 = run.level := by
    intro run hrun hn
    have hgap := htiled.isGap (Or.inl rfl) run hrun
    have hlacks : s.Lacks n := hgap.lacks n hn
    rw [← counter_age hs hlacks]
    exact ⟨hlacks, hgap.counter_eq n hn⟩
  constructor
  · rintro ⟨run, hrun, hn⟩
    obtain ⟨hrun, hP⟩ := List.mem_filter.mp hrun
    obtain ⟨hlacks, heq⟩ := hlevel run hrun hn
    rw [heq]
    exact ⟨hlacks, of_decide_eq_true hP⟩
  · rintro ⟨hlacks, hP⟩
    obtain ⟨run, hrun, hn⟩ := htiled.mem_iff.mpr ⟨hlacks, Nat.zero_le _⟩
    rw [(hlevel run hrun hn).2] at hP
    exact ⟨run, List.mem_filter.mpr ⟨hrun, decide_eq_true hP⟩, hn⟩

/-- Missing numbers that cannot be extended: they begin at the delivery point or just behind a held
packet, and a held packet ends them. -/
structure IsWholeRun (s : Sequencer) (q : Rerequest) : Prop where
  count_pos : 0 < q.count.toNat
  lacks : ∀ n ∈ q.seqnos, s.Lacks n
  begins : q.first = s.low ∨ ∃ k ∈ s.held, q.first = k.next
  stop_mem : q.first + q.count.toNat ∈ s.held

theorem IsGap.isWholeRun (h : s.age.IsGap run) : s.IsWholeRun run.request := by
  have hcount : run.request.count.toNat = run.count := UInt16.toNat_ofNat_of_lt' h.count_lt
  refine ⟨hcount ▸ h.count_pos, ?_, h.begins, ?_⟩
  · rw [Run.seqnos_request h.count_lt]
    exact h.lacks
  · rw [hcount]
    exact h.stop_mem

/-- What a tick from `s` to `t` reports, given for every missing number how many ticks it has been
missing with this one. -/
structure FollowsLadder (s : Sequencer) (age : SeqNo → Nat) (t : Sequencer) (r : Report) :
    Prop where
  missing_iff : ∀ n, s.Lacks n ↔ 0 ≤ n.delta s.low ∧ n ∉ s.held ∧ ∃ k ∈ s.held, n.delta k < 0
  asked_iff : ∀ n, n ∈ r.asked ↔ s.Lacks n ∧ age n ∈ s.ladder.rerequestAt ∧
    age n < s.ladder.giveUpAt
  reported : r.rerequests.map Prod.fst = r.requests
  level_eq : ∀ q level, (q, level) ∈ r.rerequests → ∀ n ∈ q.seqnos, level = age n
  givenUp_iff : ∀ n, n ∈ r.givenUp ↔ s.Lacks n ∧ max 1 s.ladder.giveUpAt ≤ age n
  ascending : r.requests.Pairwise fun a b =>
    a.first.delta s.low + (a.count.toNat : Int) < b.first.delta s.low ∧ ∀ n ∈ a.seqnos, n ∉ b.seqnos
  whole : ∀ q ∈ r.requests, s.IsWholeRun q
  ahead : ∀ q ∈ r.requests, ∀ n ∈ q.seqnos, 0 ≤ n.delta t.low ∧ t.Lacks n

theorem isGap_runs_age (hs : s.Sound) : ∀ run ∈ s.age.runs, s.age.IsGap run :=
  (tiled_runs (sound_age hs)).isGap (Or.inl rfl)

theorem tick_report (hs : s.Sound) :
    s.tick.2.requests = (s.age.runs.filter fun run => s.ladder.Asks run.level).map Run.request ∧
      s.tick.2.rerequests = (s.age.runs.filter fun run => s.ladder.Asks run.level).map
        (fun run => (run.request, run.level)) ∧
      s.tick.2.givenUp =
        (s.age.runs.filter fun run => s.ladder.giveUpAt ≤ run.level).flatMap Run.seqnos := by
  rw [tick_eq hs]
  exact s.age.escalateAll_report s.age.runs

theorem run_of_request (hs : s.Sound) {q : Rerequest} (hq : q ∈ s.tick.2.requests) :
    ∃ run ∈ s.age.runs, s.ladder.Asks run.level ∧ q = run.request := by
  rw [(tick_report hs).1] at hq
  obtain ⟨run, hrun, rfl⟩ := List.mem_map.mp hq
  obtain ⟨hrun, hasks⟩ := List.mem_filter.mp hrun
  exact ⟨run, hrun, of_decide_eq_true hasks, rfl⟩

theorem mem_asked_tick (hs : s.Sound) (n : SeqNo) :
    n ∈ s.tick.2.asked ↔ s.Lacks n ∧ s.ladder.Asks (s.counter n + 1) := by
  rw [← mem_filter_runs hs, Report.asked, (tick_report hs).1, List.flatMap_map, List.mem_flatMap]
  refine exists_congr fun run => and_congr_right fun hrun => ?_
  have hgap := isGap_runs_age hs run (List.mem_of_mem_filter hrun)
  rw [Run.seqnos_request hgap.count_lt]

theorem level_eq_of_reported (hs : s.Sound) {q : Rerequest} {level : Nat}
    (hq : (q, level) ∈ s.tick.2.rerequests) (hn : n ∈ q.seqnos) : level = s.counter n + 1 := by
  rw [(tick_report hs).2.1] at hq
  obtain ⟨run, hrun, heq⟩ := List.mem_map.mp hq
  obtain ⟨rfl, rfl⟩ := Prod.mk.inj heq
  have hgap := isGap_runs_age hs run (List.mem_of_mem_filter hrun)
  rw [Run.seqnos_request hgap.count_lt] at hn
  calc
    run.level = s.age.counter n := (hgap.counter_eq n hn).symm
    _ = s.counter n + 1 := counter_age hs (hgap.lacks n hn)

/-- A number asked for again has not come to the end of the ladder, so the sweep of the tick does
not pass it. -/
theorem lacks_of_requested (hs : s.Sound) {q : Rerequest} (hq : q ∈ s.tick.2.requests)
    (hn : n ∈ q.seqnos) : s.tick.1.Lacks n := by
  obtain ⟨run, hrun, hasks, rfl⟩ := run_of_request hs hq
  have hgap := isGap_runs_age hs run hrun
  rw [Run.seqnos_request hgap.count_lt] at hn
  have hlacks : s.Lacks n := hgap.lacks n hn
  have hlevel : s.counter n + 1 = run.level := by
    calc
      s.counter n + 1 = s.age.counter n := (counter_age hs hlacks).symm
      _ = run.level := hgap.counter_eq n hn
  obtain ⟨m, hsweep, hm⟩ := sweeps_tick hs
  refine hsweep.lacks_iff.mpr ⟨hlacks, Nat.not_lt.mp fun hpassed => ?_⟩
  have hend := (hm n hlacks).mp hpassed
  have hbelow := hasks.2
  omega

/-- The runs of a tick come in the order of their distance, and apart from each other. -/
theorem ascending_runs_age (hs : s.Sound) : s.age.runs.Pairwise fun a b =>
    a.first.delta s.low + (a.count : Int) < b.first.delta s.low ∧ ∀ n ∈ a.seqnos, n ∉ b.seqnos := by
  have htiled := tiled_runs (sound_age hs)
  have hdelta : ∀ run ∈ s.age.runs, run.first.delta s.low = s.low.stepsTo run.first := by
    intro run hrun
    have hgap := isGap_runs_age hs run hrun
    have hfirst : s.Lacks run.first := hgap.lacks _ hgap.first_mem
    exact SeqNo.delta_eq_stepsTo (hs.lacks_iff_delta.mp hfirst).1
  refine List.Pairwise.imp_of_mem ?_ htiled.pairwise
  intro a b ha hb hlt
  change s.low.stepsTo a.first + a.count < s.low.stepsTo b.first at hlt
  refine ⟨?_, ?_⟩
  · rw [hdelta a ha, hdelta b hb]
    omega
  · intro n hna hnb
    have hbefore : s.low.stepsTo n < s.low.stepsTo a.first + a.count :=
      (htiled.steps_of_mem a ha n hna).2
    have hbehind : s.low.stepsTo b.first ≤ s.low.stepsTo n := (htiled.steps_of_mem b hb n hnb).1
    omega

theorem ascending_requests (hs : s.Sound) : s.tick.2.requests.Pairwise fun a b =>
    a.first.delta s.low + (a.count.toNat : Int) < b.first.delta s.low ∧
      ∀ n ∈ a.seqnos, n ∉ b.seqnos := by
  have hfits : ∀ run ∈ s.age.runs.filter fun run => s.ladder.Asks run.level,
      run.count < 65536 := fun run hrun =>
    (isGap_runs_age hs run (List.mem_of_mem_filter hrun)).count_lt
  rw [(tick_report hs).1, List.pairwise_map]
  refine List.Pairwise.imp_of_mem ?_ ((ascending_runs_age hs).filter _)
  intro a b ha hb hab
  have hcount : a.request.count.toNat = a.count := UInt16.toNat_ofNat_of_lt' (hfits a ha)
  rw [hcount, Run.seqnos_request (hfits a ha), Run.seqnos_request (hfits b hb)]
  exact hab

theorem followsLadder_tick (hs : s.Sound) :
    s.FollowsLadder (fun n => s.counter n + 1) s.tick.1 s.tick.2 where
  missing_iff _ := hs.lacks_iff_delta
  asked_iff := mem_asked_tick hs
  reported := by
    rw [(tick_report hs).2.1, (tick_report hs).1, List.map_map]
    rfl
  level_eq _ _ hq _ hn := level_eq_of_reported hs hq hn
  givenUp_iff n := by
    rw [(tick_report hs).2.2, List.mem_flatMap, mem_filter_runs hs]
    refine and_congr_right fun _ => ?_
    omega
  ascending := ascending_requests hs
  whole q hq := by
    obtain ⟨run, hrun, -, rfl⟩ := run_of_request hs hq
    exact (isGap_runs_age hs run hrun).isWholeRun
  ahead q hq n hn := by
    have hstill := lacks_of_requested hs hq hn
    exact ⟨((sound_call hs .tick).lacks_iff_delta.mp hstill).1, hstill⟩

/-- After any calls, a tick reports what the ladder says for the ages of the missing numbers, where
the age of a number is for how many ticks in a row it has been missing, this one included. Packets
that come in between leave a missing number missing and its age as it is, unless one of them is the
packet with that number. -/
theorem tick_follows_ladder (ladder : Ladder) (calls : List Call) :
    let s := ((ofLadder ladder).run calls).1
    let age := fun cs n => (ofLadder ladder).waited n 0 cs + 1
    s.ladder = ladder ∧ s.FollowsLadder (age calls) s.tick.1 s.tick.2 ∧
      ∀ n more, s.Lacks n → (∀ c ∈ more, c.Spares n) →
        ((ofLadder ladder).run (calls ++ more)).1.Lacks n ∧ age (calls ++ more) n = age calls n := by
  intro s age
  have hs : s.Sound := sound_reached ladder calls
  have hcounter : age calls = fun n => s.counter n + 1 := by
    funext n
    rw [counter_reached]
  refine ⟨ladder_run (sound_ofLadder ladder) calls, ?_, ?_⟩
  · rw [hcounter]
    exact followsLadder_tick hs
  · intro n more hn hmore
    obtain ⟨hlacks, hwaited⟩ :=
      waited_of_spared hs hmore hn ((ofLadder ladder).waited n 0 calls)
    refine ⟨?_, ?_⟩
    · rw [run_append]
      exact hlacks
    · simp only [age, waited_append]
      rw [hwaited]

/-- The fourth tick gives up two numbers around the wrap and asks for the one that went missing
later. -/
theorem tick_follows_ladder_across_wrap :
    let packet := fun n => Packet.ofOctets (SeqNo.ofNat n) [] false
    let ladder : Ladder := { rerequestAt := [1, 3], giveUpAt := 4 }
    let calls := [Call.handle (packet 65534), .handle (packet 1), .tick, .handle (packet 3), .tick,
      .tick]
    let s := ((ofLadder ladder).run calls).1
    s.tick.2.asked = [SeqNo.ofNat 2] ∧ s.tick.2.givenUp = [SeqNo.ofNat 65535, SeqNo.ofNat 0] ∧
      (ofLadder ladder).waited (SeqNo.ofNat 0) 0 calls + 1 = 4 ∧
      s.FollowsLadder (fun n => (ofLadder ladder).waited n 0 calls + 1) s.tick.1 s.tick.2 := by
  intro packet ladder calls s
  refine ⟨by decide +kernel, by decide +kernel, by decide +kernel, ?_⟩
  exact (tick_follows_ladder ladder calls).2.1

end Sequencer

end AudioIntake
