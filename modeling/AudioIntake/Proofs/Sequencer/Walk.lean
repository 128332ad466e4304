import AudioIntake.Proofs.Sequencer.Consistency
import AudioIntake.Proofs.Sequencer.Window

/-!
# One walk along the window

The missing numbers can be counted up and gathered into runs in one walk, from the delivery point to
the newest held packet. The walk carries the runs that have ended and the one that is open: a missing
number extends the open run or opens one, and a held number ends it. `missingRuns_eq` says that this
comes to the same as counting up first and putting the runs together from the far end.

Either way the runs partition the window. They are its maximal runs of missing numbers, nearest
first, each with its length and the least of its counters; and of all the state only the counters of
their numbers change.
-/

namespace AudioIntake

namespace Run

variable {current : Option Run} {n : SeqNo} {level : Nat}

/-- The open run with a missing number at its end, or a run of that number alone. -/
def extend (current : Option Run) (n : SeqNo) (level : Nat) : Run :=
  match current with
  | some run => { run with count := run.count + 1, level := min run.level level }
  | none => { first := n, count := 1, level }

/-- Puts the open run in front of the runs ahead of it. It takes in the first of them when nothing
lies between. -/
def attach : Option Run → List Run → List Run
  | none, runs => runs
  | some run, [] => [run]
  | some run, next :: runs =>
    if next.first = run.stop then
      { run with count := run.count + next.count, level := min run.level next.level } :: runs
    else run :: next :: runs

@[simp] theorem attach_nil (current : Option Run) : attach current [] = current.toList := by
  cases current <;> rfl

theorem stop_extend (level : Nat) (hopen : ∀ run ∈ current, run.stop = n) :
    (extend current n level).stop = n.next := by
  cases current with
  | none => rfl
  | some run =>
      rw [← hopen run rfl]
      exact (SeqNo.add_add _ _ _).symm

theorem attach_consMissing (hopen : ∀ run ∈ current, run.stop = n) (runs : List Run) :
    attach current (consMissing n level runs) = attach (some (extend current n level)) runs := by
  have hstop := stop_extend level hopen
  cases current with
  | none =>
      cases runs with
      | nil => rfl
      | cons next runs =>
          rw [attach, attach, consMissing, hstop]
          split
          · simp only [extend, Nat.add_comm]
          · rfl
  | some run =>
      have hend := hopen run rfl
      cases runs with
      | nil => simp [consMissing, attach, extend, hend]
      | cons next runs =>
          rw [attach, consMissing, hstop]
          split
          · rw [attach, if_pos hend.symm]
            simp only [extend, Nat.min_assoc, Nat.add_comm, Nat.add_left_comm]
          · rw [attach, if_pos hend.symm]
            rfl

/-- An open run that a number ends which is in none of the runs ahead stays apart from them. -/
theorem attach_of_apart {runs : List Run} (hopen : ∀ run ∈ current, run.stop = n)
    (hruns : ∀ run ∈ runs, run.first ≠ n) : attach current runs = current.toList ++ runs := by
  cases current with
  | none => rfl
  | some run =>
      cases runs with
      | nil => rfl
      | cons next runs =>
          have hne : next.first ≠ run.stop := hopen run rfl ▸ hruns next List.mem_cons_self
          rw [attach, if_neg hne]
          rfl

end Run

/-- How far a walk has come: the counters, counted up so far, the runs that have ended, and the run
that is open. -/
structure Walk where
  retries : Std.ExtTreeMap SeqNo Nat
  ended : List Run
  current : Option Run

namespace Walk

def runs (w : Walk) : List Run := w.ended ++ w.current.toList

/-- The next number of the window is passed: a held one ends the open run, a missing one is counted
up and extends it. -/
def pass (w : Walk) (held : Std.ExtTreeMap SeqNo Packet) (n : SeqNo) : Walk :=
  if held.contains n then { w with ended := w.runs, current := none }
  else
    let level := w.retries.getD n 0 + 1
    { w with retries := w.retries.insert n level, current := some (.extend w.current n level) }

variable {held : Std.ExtTreeMap SeqNo Packet} {w : Walk} {n : SeqNo}

theorem pass_of_held (hn : n ∈ held) : w.pass held n = { w with ended := w.runs, current := none } :=
  if_pos (Std.ExtTreeMap.contains_iff_mem.mpr hn)

theorem pass_of_missing (hn : n ∉ held) :
    w.pass held n =
      { retries := w.retries.insert n (w.retries.getD n 0 + 1)
        ended := w.ended
        current := some (.extend w.current n (w.retries.getD n 0 + 1)) } :=
  if_neg fun h => hn (Std.ExtTreeMap.contains_iff_mem.mp h)

theorem retries_foldl_pass (held : Std.ExtTreeMap SeqNo Packet) (w : Walk) (ns : List SeqNo) :
    (ns.foldl (fun w n => w.pass held n) w).retries =
      (ns.filter fun n => !held.contains n).foldl (fun r n => r.insert n (r.getD n 0 + 1))
        w.retries := by
  induction ns generalizing w with
  | nil => rfl
  | cons n ns ih =>
      rw [List.foldl_cons, ih]
      cases hheld : held.contains n <;> simp [pass, hheld]

end Walk

namespace Sequencer

variable {s : Sequencer} {n : SeqNo} {o o' count count' : Nat} {run : Run}

def walk (s : Sequencer) : Walk :=
  s.window.foldl (fun w n => w.pass s.held n)
    { retries := s.retries, ended := [], current := none }

/-- The missing numbers counted up, and the runs that they make. -/
def missingRuns (s : Sequencer) : Sequencer × List Run :=
  ({ s with retries := s.walk.retries }, s.walk.runs)

theorem first_not_held {ns : List SeqNo} : ∀ run ∈ s.runsAmong ns, run.first ∉ s.held := by
  induction ns with
  | nil => simp [runsAmong]
  | cons n ns ih =>
      by_cases hn : n ∈ s.held
      · rwa [runsAmong_cons_held hn]
      · rw [runsAmong_cons_missing hn]
        generalize s.runsAmong ns = runs at ih
        cases runs with
        | nil => simpa [Run.consMissing] using hn
        | cons next runs =>
            obtain ⟨hnext, hruns⟩ := List.forall_mem_cons.mp ih
            rw [Run.consMissing]
            split
            · exact List.forall_mem_cons.mpr ⟨hn, hruns⟩
            · exact List.forall_mem_cons.mpr ⟨hn, List.forall_mem_cons.mpr ⟨hnext, hruns⟩⟩

/-- Wherever the walk stands in the window, it ends with the runs that have ended and those of the
numbers ahead, with the open run attached in front of them. -/
theorem runs_foldl_pass (hs : s.Sound) (len : Nat) (hspan : o + len = s.span) (w : Walk)
    (hopen : ∀ run ∈ w.current, run.stop = s.low + o)
    (hfresh : ∀ i < len, w.retries.getD (s.low + (o + i)) 0 = s.counter (s.low + (o + i))) :
    (((List.range' o len).map (s.low + ·)).foldl (fun w n => w.pass s.held n) w).runs =
      w.ended ++ Run.attach w.current (s.age.runsAmong ((List.range' o len).map (s.low + ·))) := by
  have hle := span_le hs.toOrdered
  induction len generalizing o w with
  | zero =>
      change w.runs = w.ended ++ Run.attach w.current []
      rw [Run.attach_nil, Walk.runs]
  | succ len ih =>
      have hahead : ∀ i < len, w.retries.getD (s.low + (o + 1 + i)) 0 =
          s.counter (s.low + (o + 1 + i)) := by
        intro i hi
        rw [Nat.add_assoc, Nat.add_comm 1]
        exact hfresh (i + 1) (by omega)
      rw [List.range'_succ, List.map_cons, List.foldl_cons]
      by_cases hheld : s.low + o ∈ s.held
      · have hapart : ∀ run ∈ s.age.runsAmong ((List.range' (o + 1) len).map (s.low + ·)),
            run.first ≠ s.low + o := fun run hrun heq => first_not_held run hrun (heq ▸ hheld)
        have hrest := ih (o := o + 1) (by omega) { w with ended := w.runs, current := none }
          (by simp) hahead
        rw [Walk.pass_of_held hheld, hrest, runsAmong_cons_held (s := s.age) hheld,
          Run.attach_of_apart hopen hapart, Run.attach, Walk.runs, List.append_assoc]
      · have hlacks : s.Lacks (s.low + o) := (lacks_add_iff hs.toOrdered (by omega)).mpr hheld
        have hlevel : w.retries.getD (s.low + o) 0 + 1 = s.age.counter (s.low + o) := by
          rw [counter_age hs hlacks]
          exact congrArg (· + 1) (hfresh 0 (Nat.succ_pos len))
        have hstop := Run.stop_extend (s.age.counter (s.low + o)) hopen
        rw [SeqNo.next, SeqNo.add_add] at hstop
        have hothers : ∀ i < len,
            (w.retries.insert (s.low + o) (s.age.counter (s.low + o))).getD
                (s.low + (o + 1 + i)) 0 = s.counter (s.low + (o + 1 + i)) := by
          intro i hi
          have hne : s.low + o ≠ s.low + (o + 1 + i) := fun heq => by
            have := SeqNo.add_inj (by omega) (by omega) heq
            omega
          rw [Std.ExtTreeMap.getD_insert, if_neg (mt Std.LawfulEqCmp.compare_eq_iff_eq.mp hne)]
          exact hahead i hi
        rw [runsAmong_cons_missing (s := s.age) hheld, Walk.pass_of_missing hheld, hlevel,
          ih (by omega) _ (by simpa using hstop) hothers, Run.attach_consMissing hopen]

theorem missingRuns_eq (hs : s.Sound) : s.missingRuns = (s.age, s.age.runs) := by
  have hretries := Walk.retries_foldl_pass s.held ⟨s.retries, [], none⟩ s.window
  have hruns := runs_foldl_pass hs s.span (Nat.zero_add _) ⟨s.retries, [], none⟩ (by simp)
    fun _ _ => rfl
  rw [← List.range_eq_range'] at hruns
  rw [missingRuns, walk, hretries]
  exact congrArg (s.age, ·) hruns

/-! ### The partition -/

/-- The numbers from `o` up to `o + count` steps ahead: none of them is held, and within the window
they cannot be extended either way. -/
structure IsMaximalRun (s : Sequencer) (o count : Nat) : Prop where
  count_pos : 0 < count
  le_span : o + count ≤ s.span
  free : ∀ i < count, s.low + (o + i) ∉ s.held
  begins : o = 0 ∨ s.low + (o - 1) ∈ s.held
  ends : o + count = s.span ∨ s.low + (o + count) ∈ s.held

/-- Two maximal runs that share a number are one. -/
theorem IsMaximalRun.unique (h : s.IsMaximalRun o count) (h' : s.IsMaximalRun o' count')
    (hle : o' ≤ o) (hlt : o < o' + count') : o = o' ∧ count = count' := by
  have hstart : o = o' := by
    by_contra hne
    rcases h.begins with hzero | hheld
    · omega
    · have hfree := h'.free (o - 1 - o') (by omega)
      rw [Nat.add_sub_cancel' (by omega)] at hfree
      exact hfree hheld
  subst hstart
  have hstop : ∀ {c c' : Nat}, s.IsMaximalRun o c → s.IsMaximalRun o c' → c' ≤ c := by
    intro c c' h h'
    by_contra hlt
    rcases h.ends with hspan | hheld
    · have hle := h'.le_span
      omega
    · exact h'.free c (Nat.not_le.mp hlt) hheld
  exact ⟨rfl, Nat.le_antisymm (hstop h' h) (hstop h h')⟩

theorem IsGap.isMaximalRun (hs : s.Sound) (h : s.age.IsGap run) :
    s.IsMaximalRun (s.low.stepsTo run.first) run.count := by
  have hadd : ∀ i, run.first + i = s.low + (s.low.stepsTo run.first + i) := fun i => by
    rw [← SeqNo.add_add, SeqNo.add_stepsTo]
  have hlacks : ∀ i < run.count, s.Lacks (run.first + i) := fun i hi =>
    h.lacks _ (Run.mem_seqnos.mpr ⟨i, hi, rfl⟩)
  have hpos := h.count_pos
  refine ⟨hpos, ?_, ?_, ?_, Or.inr ?_⟩
  · have hlast := (lt_span_iff hs.toOrdered).mpr (hlacks (run.count - 1) (by omega)).2
    have hsteps := h.steps_eq (sound_age hs) (run.count - 1) (by omega)
    change s.low.stepsTo (run.first + (run.count - 1)) =
      s.low.stepsTo run.first + (run.count - 1) at hsteps
    omega
  · intro i hi
    rw [← hadd]
    exact (hlacks i hi).not_mem
  · rcases h.begins with hlow | ⟨k, hk, hnext⟩
    · exact Or.inl (by rw [hlow]; exact SeqNo.stepsTo_self s.low)
    · have hnear := hs.stepsTo_le hk
      right
      rw [hnext, SeqNo.stepsTo_next_right (by omega), Nat.add_sub_cancel, SeqNo.add_stepsTo]
      exact hk
  · rw [← hadd]
    exact h.stop_mem

/-- The counters of a run are all the same, so any of them is the least. -/
theorem IsGap.min?_eq (h : s.IsGap run) : (run.seqnos.map s.counter).min? = some run.level := by
  have hpos : 0 < run.seqnos.length := by
    rw [Run.seqnos, List.length_map, List.length_range]
    exact h.count_pos
  rw [List.map_congr_left h.counter_eq, List.map_const', List.min?_replicate_of_pos hpos]

theorem mem_flatMap_runs_age (hs : s.Sound) :
    n ∈ s.age.runs.flatMap Run.seqnos ↔ s.Lacks n := by
  rw [List.mem_flatMap, (tiled_runs (sound_age hs)).mem_iff]
  exact and_iff_left (Nat.zero_le _)

/-- The runs of a tick are the maximal runs of the window and no others. -/
theorem mem_runs_age_iff (hs : s.Sound) (run : Run) :
    run ∈ s.age.runs ↔ ∃ o, run.first = s.low + o ∧ s.IsMaximalRun o run.count ∧
      (run.seqnos.map s.age.counter).min? = some run.level := by
  have hgap := isGap_runs_age hs
  constructor
  · intro hrun
    exact ⟨_, (SeqNo.add_stepsTo _ _).symm, (hgap run hrun).isMaximalRun hs,
      (hgap run hrun).min?_eq⟩
  · rintro ⟨o, hfirst, hmaximal, hlevel⟩
    have hspan := span_le hs.toOrdered
    have hin := hmaximal.le_span
    have hpos := hmaximal.count_pos
    have hlacks := (lacks_add_iff hs.toOrdered (o := o) (by omega)).mpr (hmaximal.free 0 hpos)
    obtain ⟨other, hother, hmem⟩ := List.mem_flatMap.mp ((mem_flatMap_runs_age hs).mpr hlacks)
    have hsteps := (tiled_runs (sound_age hs)).steps_of_mem other hother _ hmem
    change s.low.stepsTo other.first ≤ s.low.stepsTo (s.low + o) ∧
      s.low.stepsTo (s.low + o) < s.low.stepsTo other.first + other.count at hsteps
    rw [SeqNo.stepsTo_add _ (by omega)] at hsteps
    obtain ⟨hstart, hcount⟩ :=
      hmaximal.unique ((hgap other hother).isMaximalRun hs) hsteps.1 hsteps.2
    have hfirst' : run.first = other.first := by rw [hfirst, hstart, SeqNo.add_stepsTo]
    have hlevel' : run.level = other.level := by
      have hleast := (hgap other hother).min?_eq
      rw [Run.seqnos, ← hfirst', ← hcount, ← Run.seqnos, hlevel] at hleast
      exact Option.some.inj hleast
    have hsame : run = other := by
      cases run
      cases other
      exact (Run.mk.injEq ..).mpr ⟨hfirst', hcount, hlevel'⟩
    exact hsame ▸ hother

/-- What is missing and what is held fill the window, each number of it once. -/
theorem covers_window (hs : s.Sound) (hk : n ∈ s.held) :
    (s.age.runs.flatMap Run.seqnos ++ s.held.keys).Perm
      ((List.range (s.span + 1)).map (s.low + ·)) := by
  have hspan := span_le hs.toOrdered
  have hmissing : (s.age.runs.flatMap Run.seqnos).Nodup := by
    refine List.nodup_flatMap.mpr ⟨fun run hrun => ?_, ?_⟩
    · exact nodup_range_map_add run.first (Nat.le_of_lt (isGap_runs_age hs run hrun).count_lt)
    · exact (ascending_runs_age hs).imp fun hab => List.disjoint_left.mpr hab.2
  have hapart : ∀ a ∈ s.age.runs.flatMap Run.seqnos, ∀ b ∈ s.held.keys, a ≠ b := by
    rintro a ha b hb rfl
    exact ((mem_flatMap_runs_age hs).mp ha).not_mem (Std.ExtTreeMap.mem_keys.mp hb)
  refine (List.perm_ext_iff_of_nodup
    (List.nodup_append.mpr ⟨hmissing, Std.ExtTreeMap.nodup_keys, hapart⟩)
    (nodup_range_map_add s.low (by omega))).mpr fun m => ?_
  rw [List.mem_append, mem_flatMap_runs_age hs, Std.ExtTreeMap.mem_keys, List.mem_map]
  constructor
  · intro hm
    refine ⟨s.low.stepsTo m, List.mem_range.mpr ?_, SeqNo.add_stepsTo _ _⟩
    rcases hm with hlacks | hheld
    · have hlt := (lt_span_iff hs.toOrdered).mpr hlacks.2
      omega
    · have hle := le_span hs.toOrdered hheld
      rw [hs.delta_eq hheld] at hle
      omega
  · rintro ⟨o, ho, rfl⟩
    by_cases hheld : s.low + o ∈ s.held
    · exact Or.inr hheld
    · refine Or.inl ((lacks_add_iff hs.toOrdered ?_).mpr hheld)
      -- At the far end of the window lies the newest held packet.
      obtain ⟨far, hfar, hend⟩ := exists_delta_eq_span hs.toOrdered hk
      rw [hs.delta_eq hfar] at hend
      have hne : o ≠ s.span := by
        rintro rfl
        have heq : s.low + s.span = far := by
          rw [← SeqNo.add_stepsTo s.low far]
          exact congrArg (s.low + ·) (by omega)
        exact hheld (heq ▸ hfar)
      have hlt := List.mem_range.mp ho
      omega

/-- What a tick makes of the window before it works off the runs. -/
structure Partitioned (s t : Sequencer) (runs : List Run) : Prop where
  span_eq : (∀ n ∈ s.held, n.delta s.low ≤ s.span) ∧ ∃ far ∈ s.held, far.delta s.low = s.span
  mem_iff : ∀ run, run ∈ runs ↔ ∃ o, run.first = s.low + o ∧ s.IsMaximalRun o run.count ∧
    (run.seqnos.map t.counter).min? = some run.level
  ascending : runs.Pairwise fun a b =>
    a.first.delta s.low + (a.count : Int) < b.first.delta s.low ∧ ∀ n ∈ a.seqnos, n ∉ b.seqnos
  begins : runs.head?.map Run.first = some s.low
  count_pos : ∀ run ∈ runs, 0 < run.count
  stop_held : ∀ run ∈ runs, run.stop ∈ s.held
  covers : (runs.flatMap Run.seqnos ++ s.held.keys).Perm
    ((List.range (s.span + 1)).map (s.low + ·))
  counted : ∀ n, t.retries[n]? =
    if n ∈ runs.flatMap Run.seqnos then some (s.counter n + 1) else s.retries[n]?
  others_eq : t = { s with retries := t.retries }

theorem partitioned_age (hs : s.Sound) (hn : n ∈ s.held) : s.Partitioned s.age s.age.runs where
  span_eq := ⟨fun _ hm => le_span hs.toOrdered hm, exists_delta_eq_span hs.toOrdered hn⟩
  mem_iff := mem_runs_age_iff hs
  ascending := ascending_runs_age hs
  begins := by
    have htiled := tiled_runs (sound_age hs)
    have hlow := (mem_flatMap_runs_age hs).mpr (hs.lacks_low hn)
    generalize s.age.runs = runs at htiled hlow
    cases runs with
    | nil => cases hlow
    | cons run runs => exact congrArg some (htiled.head (sound_age hs)).1
  count_pos run hrun := (isGap_runs_age hs run hrun).count_pos
  stop_held run hrun := (isGap_runs_age hs run hrun).stop_mem
  covers := covers_window hs hn
  counted m := by
    have hsame : m ∈ s.missing ↔ m ∈ s.age.runs.flatMap Run.seqnos :=
      (mem_missing hs.toOrdered).trans (mem_flatMap_runs_age hs).symm
    rw [getElem?_age hs]
    exact if_congr hsame rfl rfl
  others_eq := rfl

/-- After any calls, whatever the settings, one walk along the window of held packets counts up the
missing numbers and gathers them into its maximal runs, as a tick does that then works them off; and
all of it fits the words it is kept in. -/
theorem missing_runs_partition (settings : StreamSettings) (calls : List Call)
    (hheld : (settings.sequencer.run calls).1.held ≠ ∅) :
    let s := (settings.sequencer.run calls).1
    s.missingRuns = (s.age, s.age.runs) ∧ s.tick = s.age.escalateAll s.age.runs ∧
      s.Partitioned s.age s.age.runs ∧ s.FitsWords := by
  intro s
  have hstart : settings.sequencer.Sound := sound_ofLadder settings.ladder
  have hs : s.Sound := sound_run hstart calls
  have hclimbing : s.Climbing := climbing_run hstart (climbing_of_retries_empty rfl) calls
  have hladder : s.ladder.giveUpAt < UInt32.size := by
    rw [show s.ladder = settings.ladder from ladder_run hstart calls]
    exact settings.giveUpTick.toNat_lt
  obtain ⟨n, hn⟩ : ∃ n, n ∈ s.held := by
    by_contra hnone
    exact hheld (Std.ExtTreeMap.eq_empty_iff_forall_not_mem.mpr (not_exists.mp hnone))
  exact ⟨missingRuns_eq hs, tick_eq hs, partitioned_age hs hn, hs.fitsWords hclimbing hladder⟩

/-- Two runs on either side of a packet behind the wrap, of which only the nearer has been through a
tick before. -/
theorem missing_runs_partition_across_wrap :
    let packet := fun n => Packet.ofOctets (SeqNo.ofNat n) [] false
    let calls := [Call.handle (packet 65533), .handle (packet 65535), .tick, .handle (packet 2)]
    let s := (StreamSettings.default.sequencer.run calls).1
    s.held ≠ ∅ ∧
      s.missingRuns.2 =
        [{ first := SeqNo.ofNat 65534, count := 1, level := 2 },
          { first := SeqNo.ofNat 0, count := 2, level := 1 }] ∧
      s.missingRuns = (s.age, s.age.runs) ∧ s.Partitioned s.age s.age.runs := by
  intro packet calls s
  have hheld : s.held ≠ ∅ := by
    intro hempty
    have hsize : s.held.size = 2 := by decide +kernel
    rw [hempty, Std.ExtTreeMap.size_empty] at hsize
    cases hsize
  obtain ⟨hwalk, -, hpartitioned, -⟩ :=
    missing_runs_partition StreamSettings.default calls hheld
  exact ⟨hheld, by decide +kernel, hwalk, hpartitioned⟩

end Sequencer

end AudioIntake
