import AudioIntake.Proofs.Sequencer.Sound

/-!
# Runs tile what is missing

Read from the delivery point on, the window of a tick is a row of held numbers and of runs of
missing ones, each run ended by a held number. `Tiled s o runs` says so of everything from `o` steps
ahead on. The runs that a tick works off tile the whole window, and what gives one of them up leaves
the later ones tiling what remains.
-/

namespace AudioIntake

namespace Run

variable {run : Run} {n : SeqNo}

theorem mem_seqnos : n ∈ run.seqnos ↔ ∃ i < run.count, n = run.first + i := by
  simp only [seqnos, List.mem_map, List.mem_range, eq_comm]

theorem mem_seqnos_iff (hcount : run.count < 65536) :
    n ∈ run.seqnos ↔ run.first.stepsTo n < run.count := by
  rw [mem_seqnos]
  constructor
  · rintro ⟨i, hi, rfl⟩
    rwa [SeqNo.stepsTo_add _ (by omega)]
  · intro h
    exact ⟨_, h, (SeqNo.add_stepsTo _ _).symm⟩

end Run

namespace Sequencer

variable {s t : Sequencer} {o n : Nat} {run : Run} {runs : List Run} {k : SeqNo}

inductive Tiled (s : Sequencer) : Nat → List Run → Prop where
  | done {o : Nat} (hpast : ∀ k ∈ s.held, s.low.stepsTo k < o) : Tiled s o []
  | held {o : Nat} {runs : List Run} (hlt : o < 65536) (hheld : s.low + o ∈ s.held)
      (rest : Tiled s (o + 1) runs) : Tiled s o runs
  | gap {o : Nat} {run : Run} {runs : List Run} (hlt : o + run.count < 65536)
      (hfirst : run.first = s.low + o) (hpos : 0 < run.count)
      (hfree : ∀ i < run.count, s.low + (o + i) ∉ s.held)
      (hstop : s.low + (o + run.count) ∈ s.held)
      (hlevel : ∀ i < run.count, s.counter (s.low + (o + i)) = run.level)
      (rest : Tiled s (o + run.count) runs) : Tiled s o (run :: runs)

/-- A run of missing numbers that goes as far as it can: it begins at the delivery point or just
behind a held packet, ends just before one, and its members share one counter. -/
structure IsGap (s : Sequencer) (run : Run) : Prop where
  count_pos : 0 < run.count
  count_lt : run.count < 65536
  lacks : ∀ n ∈ run.seqnos, s.Lacks n
  begins : run.first = s.low ∨ ∃ k ∈ s.held, run.first = k.next
  stop_mem : run.stop ∈ s.held
  counter_eq : ∀ n ∈ run.seqnos, s.counter n = run.level

theorem IsGap.first_mem (h : s.IsGap run) : run.first ∈ run.seqnos :=
  Run.mem_seqnos.mpr ⟨0, h.count_pos, (SeqNo.add_zero _).symm⟩

namespace Tiled

theorem next (h : Tiled s o runs) (ho : o < 65536) (hheld : s.low + o ∈ s.held) :
    Tiled s (o + 1) runs := by
  cases h with
  | done hpast =>
      have hlt := hpast _ hheld
      rw [SeqNo.stepsTo_add _ ho] at hlt
      omega
  | held _ _ rest => exact rest
  | gap _ _ hpos hfree =>
      exact absurd hheld (hfree 0 hpos)

theorem skip (h : Tiled s o runs) (n : Nat) (hn : o + n ≤ 65536)
    (hheld : ∀ i < n, s.low + (o + i) ∈ s.held) : Tiled s (o + n) runs := by
  induction n with
  | zero => exact h
  | succ n ih =>
      have hlast := ih (by omega) fun i hi => hheld i (by omega)
      exact hlast.next (by omega) (hheld n (by omega))

theorem head_not_held (h : Tiled s o (run :: runs)) :
    ∃ i < 65536, o ≤ i ∧ run.first = s.low + i ∧ s.low + i ∉ s.held := by
  generalize hall : run :: runs = all at h
  induction h with
  | done => cases hall
  | held hlt hheld rest ih =>
      obtain ⟨i, hi, hle, hfirst, hfree⟩ := ih hall
      exact ⟨i, hi, by omega, hfirst, hfree⟩
  | gap hlt hfirst hpos hfree =>
      cases hall
      exact ⟨_, by omega, Nat.le_refl _, hfirst, hfree 0 hpos⟩

/-- A tiling only looks at what is held and counted ahead of it. -/
theorem shift (h : Tiled s (n + o) runs) (hn : n < 65536) (hlow : t.low = s.low + n)
    (hheld : ∀ k, t.held[k]? = if s.low.stepsTo k < n then none else s.held[k]?)
    (hcounter : ∀ {k}, t.Lacks k → t.counter k = s.counter k) : Tiled t o runs := by
  have hmem : ∀ i, n + i < 65536 → (t.low + i ∈ t.held ↔ s.low + (n + i) ∈ s.held) := by
    intro i hi
    rw [mem_held_iff_of_moved hheld, hlow, SeqNo.add_add, SeqNo.stepsTo_add _ hi]
    exact and_iff_left (by omega)
  generalize ho : n + o = at_ at h
  induction h generalizing o with
  | done hpast =>
      subst ho
      refine .done fun k hk => ?_
      obtain ⟨hk, hle⟩ := (mem_held_iff_of_moved hheld).mp hk
      have hlt := hpast k hk
      rw [hlow, SeqNo.stepsTo_add_left hle]
      omega
  | held hlt hk rest ih =>
      subst ho
      exact .held (by omega) ((hmem o hlt).mpr hk) (ih (by omega))
  | @gap _ run _ hlt hfirst hpos hfree hstop hlevel rest ih =>
      subst ho
      have hadd : ∀ i, n + o + i = n + (o + i) := fun i => Nat.add_assoc n o i
      simp only [hadd] at hlt hfree hstop hlevel ih
      have hend := (hmem (o + run.count) hlt).mpr hstop
      refine .gap (by omega) ?_ hpos ?_ hend ?_ (ih rfl)
      · rw [hfirst, hlow, SeqNo.add_add]
      · intro i hi
        exact fun h => hfree i hi ((hmem (o + i) (by omega)).mp h)
      · intro i hi
        have hfreet : t.low + (o + i) ∉ t.held := fun h =>
          hfree i hi ((hmem (o + i) (by omega)).mp h)
        have hlacks : t.Lacks (t.low + (o + i)) := by
          refine ⟨hfreet, _, hend, ?_⟩
          rw [SeqNo.stepsTo_add _ (by omega), SeqNo.stepsTo_add _ (by omega)]
          omega
        rw [hcounter hlacks, hlow, SeqNo.add_add]
        exact hlevel i hi

/-! ### What a tiling says about its runs -/

/-- The numbers in the runs are the ones missing from there on. -/
theorem mem_iff (h : Tiled s o runs) :
    (∃ run ∈ runs, k ∈ run.seqnos) ↔ s.Lacks k ∧ o ≤ s.low.stepsTo k := by
  induction h with
  | done hpast =>
      simp only [List.not_mem_nil, false_and, exists_false, false_iff, not_and, Nat.not_le]
      rintro ⟨-, j, hj, hlt⟩
      exact Nat.lt_trans hlt (hpast j hj)
  | @held o runs hlt hheld rest ih =>
      rw [ih]
      refine and_congr_right fun hk => ?_
      have hne : s.low.stepsTo k ≠ o := by
        rintro rfl
        rw [SeqNo.add_stepsTo] at hheld
        exact hk.not_mem hheld
      omega
  | @gap o run runs hlt hfirst hpos hfree hstop hlevel rest ih =>
      simp only [List.mem_cons, exists_eq_or_imp, ih]
      have hin : k ∈ run.seqnos ↔
          o ≤ s.low.stepsTo k ∧ s.low.stepsTo k < o + run.count := by
        rw [Run.mem_seqnos, hfirst]
        constructor
        · rintro ⟨i, hi, rfl⟩
          rw [SeqNo.add_add, SeqNo.stepsTo_add _ (by omega)]
          omega
        · rintro ⟨hle, hlt⟩
          refine ⟨s.low.stepsTo k - o, by omega, ?_⟩
          rw [SeqNo.add_add, Nat.add_sub_cancel' hle, SeqNo.add_stepsTo]
      rw [hin]
      constructor
      · rintro (⟨hle, hbefore⟩ | ⟨hk, hle⟩)
        · refine ⟨⟨?_, _, hstop, ?_⟩, hle⟩
          · have hnot := hfree (s.low.stepsTo k - o) (by omega)
            rwa [Nat.add_sub_cancel' hle, SeqNo.add_stepsTo] at hnot
          · rwa [SeqNo.stepsTo_add _ hlt]
        · exact ⟨hk, by omega⟩
      · rintro ⟨hk, hle⟩
        by_cases hbefore : s.low.stepsTo k < o + run.count
        · exact Or.inl ⟨hle, hbefore⟩
        · exact Or.inr ⟨hk, by omega⟩

theorem isGap (h : Tiled s o runs) (ho : o = 0 ∨ s.low + (o - 1) ∈ s.held ∨ s.low + o ∈ s.held) :
    ∀ run ∈ runs, s.IsGap run := by
  induction h with
  | done => simp
  | held hlt hheld rest ih => exact ih (Or.inr (Or.inl (by simpa using hheld)))
  | @gap o run runs hlt hfirst hpos hfree hstop hlevel rest ih =>
      intro r hr
      obtain rfl | hr := List.mem_cons.mp hr
      · refine ⟨hpos, by omega, ?_, ?_, ?_, ?_⟩
        · intro n hn
          obtain ⟨i, hi, rfl⟩ := Run.mem_seqnos.mp hn
          rw [hfirst, SeqNo.add_add]
          refine ⟨hfree i hi, _, hstop, ?_⟩
          rw [SeqNo.stepsTo_add _ (by omega), SeqNo.stepsTo_add _ hlt]
          omega
        · rcases ho with rfl | hbefore | hat
          · exact Or.inl (by rw [hfirst, SeqNo.add_zero])
          · by_cases hzero : o = 0
            · exact Or.inl (by rw [hfirst, hzero, SeqNo.add_zero])
            · refine Or.inr ⟨_, hbefore, ?_⟩
              rw [hfirst, SeqNo.next, SeqNo.add_add, Nat.sub_add_cancel (by omega)]
          · exact absurd hat (hfree 0 hpos)
        · rw [Run.stop, hfirst, SeqNo.add_add]
          exact hstop
        · intro n hn
          obtain ⟨i, hi, rfl⟩ := Run.mem_seqnos.mp hn
          rw [hfirst, SeqNo.add_add]
          exact hlevel i hi
      · exact ih (Or.inr (Or.inr hstop)) r hr

theorem le_steps (h : Tiled s o runs) : ∀ run ∈ runs, o ≤ s.low.stepsTo run.first := by
  induction h with
  | done => simp
  | held hlt hheld rest ih =>
      intro run hrun
      have hle := ih run hrun
      omega
  | gap hlt hfirst hpos hfree hstop hlevel rest ih =>
      intro r hr
      obtain rfl | hr := List.mem_cons.mp hr
      · exact Nat.le_of_eq (by rw [hfirst, SeqNo.stepsTo_add _ (by omega)])
      · have hle := ih r hr
        omega

theorem steps_of_mem (h : Tiled s o runs) : ∀ run ∈ runs, ∀ n ∈ run.seqnos,
    s.low.stepsTo run.first ≤ s.low.stepsTo n ∧
      s.low.stepsTo n < s.low.stepsTo run.first + run.count := by
  induction h with
  | done => simp
  | held hlt hheld rest ih => exact ih
  | @gap o run runs hlt hfirst hpos hfree hstop hlevel rest ih =>
      intro r hr n hn
      obtain rfl | hr := List.mem_cons.mp hr
      · obtain ⟨i, hi, rfl⟩ := Run.mem_seqnos.mp hn
        rw [hfirst, SeqNo.add_add, SeqNo.stepsTo_add _ (by omega), SeqNo.stepsTo_add _ (by omega)]
        omega
      · exact ih r hr n hn

/-- The runs come in the order of their distance, and a later one starts behind the end of an
earlier one. -/
theorem pairwise (h : Tiled s o runs) :
    runs.Pairwise fun a b => s.low.stepsTo a.first + a.count < s.low.stepsTo b.first := by
  induction h with
  | done => exact .nil
  | held hlt hheld rest ih => exact ih
  | @gap o run runs hlt hfirst hpos hfree hstop hlevel rest ih =>
      refine .cons ?_ ih
      intro b hb
      have hle := (rest.next hlt hstop).le_steps b hb
      rw [hfirst, SeqNo.stepsTo_add _ (by omega)]
      omega

end Tiled

/-! ### The runs of a tick -/

def runsAmong (s : Sequencer) (ns : List SeqNo) : List Run :=
  ns.foldr
    (fun n runs =>
      if s.held.contains n then runs else Run.consMissing n (s.retries.getD n 0) runs)
    []

theorem runsAmong_cons_held {ns : List SeqNo} (hk : k ∈ s.held) :
    s.runsAmong (k :: ns) = s.runsAmong ns := by
  rw [runsAmong, List.foldr_cons, if_pos (Std.ExtTreeMap.contains_iff_mem.mpr hk), ← runsAmong]

theorem runsAmong_cons_missing {ns : List SeqNo} (hk : k ∉ s.held) :
    s.runsAmong (k :: ns) = Run.consMissing k (s.counter k) (s.runsAmong ns) := by
  rw [runsAmong, List.foldr_cons,
    if_neg (fun h => hk (Std.ExtTreeMap.contains_iff_mem.mp h)), ← runsAmong, counter]

namespace Tiled

/-- A missing number whose neighbour is held makes a run by itself. -/
theorem cons_alone (h : Tiled s (o + 1) runs) (ho : o + 1 < 65536) (hlacks : s.Lacks (s.low + o))
    (hheld : s.low + (o + 1) ∈ s.held) :
    Tiled s o ({ first := s.low + o, count := 1, level := s.counter (s.low + o) } :: runs) := by
  refine .gap ho rfl Nat.one_pos ?_ hheld ?_ h
  · intro i hi
    obtain rfl := Nat.lt_one_iff.mp hi
    exact hlacks.not_mem
  · intro i hi
    obtain rfl := Nat.lt_one_iff.mp hi
    rfl

/-- A missing number joins the run that begins at its neighbour, for they have the same counter. -/
theorem cons_joined (h : Tiled s (o + 1) (run :: runs)) (hs : s.Sound)
    (hlacks : s.Lacks (s.low + o)) (hnext : s.Lacks (s.low + (o + 1))) :
    Tiled s o ({ first := s.low + o, count := run.count + 1
                 level := min (s.counter (s.low + o)) run.level } :: runs) := by
  have hmove : ∀ i, o + (i + 1) = o + 1 + i := fun i => by omega
  cases h with
  | held hlt hheld rest => exact absurd hheld hnext.not_mem
  | gap hlt _ hpos hfree hstop hlevel rest =>
      have hsame : run.level = s.counter (s.low + o) := by
        have hneighbour : s.low + (o + 1) = (s.low + o).next := (SeqNo.add_add _ _ _).symm
        rw [← hlevel 0 hpos, Nat.add_zero, hneighbour]
        exact hs.counter_next hlacks (hneighbour ▸ hnext)
      refine .gap ?_ rfl (Nat.succ_pos _) ?_ ?_ ?_ ?_
      · rw [hmove]
        exact hlt
      · intro i hi
        cases i with
        | zero => exact hlacks.not_mem
        | succ i =>
            rw [hmove]
            exact hfree i (Nat.lt_of_succ_lt_succ hi)
      · rw [hmove]
        exact hstop
      · intro i hi
        simp only [hsame, Nat.min_self]
        cases i with
        | zero => rfl
        | succ i =>
            rw [hmove, ← hsame]
            exact hlevel i (Nat.lt_of_succ_lt_succ hi)
      · rw [hmove]
        exact rest

theorem head_of_lacks (h : Tiled s o runs) (ho : o < 65536) (hlacks : s.Lacks (s.low + o)) :
    ∃ run rest, runs = run :: rest ∧ run.first = s.low + o := by
  cases h with
  | done hpast =>
      obtain ⟨-, k, hk, hlt⟩ := hlacks
      rw [SeqNo.stepsTo_add _ ho] at hlt
      exact absurd (hpast k hk) (Nat.lt_asymm hlt)
  | held hlt hheld rest => exact absurd hheld hlacks.not_mem
  | gap hlt hfirst hpos hfree hstop hlevel rest => exact ⟨_, _, rfl, hfirst⟩

theorem consMissing (h : Tiled s (o + 1) runs) (hs : s.Sound) (ho : o + 1 < 65536)
    (hlacks : s.Lacks (s.low + o)) :
    Tiled s o (Run.consMissing (s.low + o) (s.counter (s.low + o)) runs) := by
  have hneighbour : (s.low + o).next = s.low + (o + 1) := SeqNo.add_add _ _ _
  by_cases hheld : s.low + (o + 1) ∈ s.held
  · have halone := h.cons_alone ho hlacks hheld
    cases runs with
    | nil => exact halone
    | cons run rest =>
        have hne : run.first ≠ (s.low + o).next := by
          obtain ⟨i, -, -, hfirst, hfree⟩ := h.head_not_held
          rw [hfirst, hneighbour]
          exact fun heq => hfree (heq ▸ hheld)
        rw [Run.consMissing, if_neg hne]
        exact halone
  · have hnext : s.Lacks (s.low + (o + 1)) := by
      obtain ⟨-, k, hk, hlt⟩ := hlacks
      have hne : s.low.stepsTo k ≠ o + 1 := fun heq => hheld (heq ▸ by simpa using hk)
      refine ⟨hheld, k, hk, ?_⟩
      rw [SeqNo.stepsTo_add _ (by omega)] at hlt ⊢
      omega
    obtain ⟨run, rest, rfl, hfirst⟩ := h.head_of_lacks ho hnext
    rw [Run.consMissing, if_pos (hfirst.trans hneighbour.symm)]
    exact h.cons_joined hs hlacks hnext

end Tiled

theorem tiled_runsAmong (hs : s.Sound) (len : Nat) (hspan : o + len = s.span) :
    Tiled s o (s.runsAmong ((List.range' o len).map (s.low + ·))) := by
  have hle := span_le hs.toOrdered
  induction len generalizing o with
  | zero =>
      have hpast : ∀ k ∈ s.held, s.low.stepsTo k ≤ o := by
        intro k hk
        by_contra hlt
        have := (lt_span_iff hs.toOrdered).mpr ⟨k, hk, Nat.not_le.mp hlt⟩
        omega
      show Tiled s o []
      cases o with
      | zero =>
          refine .done fun k hk => ?_
          have hpos := hs.stepsTo_pos hk
          have := hpast k hk
          omega
      | succ o =>
          obtain ⟨k, hk, hlt⟩ := (lt_span_iff hs.toOrdered (o := o)).mp (by omega)
          have heq : s.low.stepsTo k = o + 1 := by
            have := hpast k hk
            omega
          refine .held (by omega) (heq ▸ by simpa using hk) ?_
          exact .done fun j hj => Nat.lt_succ_of_le (hpast j hj)
  | succ len ih =>
      have hrest := ih (o := o + 1) (by omega)
      rw [List.range'_succ, List.map_cons]
      by_cases hheld : s.low + o ∈ s.held
      · rw [runsAmong_cons_held hheld]
        exact .held (by omega) hheld hrest
      · rw [runsAmong_cons_missing hheld]
        obtain ⟨k, hk, hlt⟩ := (lt_span_iff hs.toOrdered (o := o)).mp (by omega)
        refine hrest.consMissing hs (by omega) ⟨hheld, k, hk, ?_⟩
        rwa [SeqNo.stepsTo_add _ (by omega)]

theorem tiled_runs (hs : s.Sound) : Tiled s 0 s.runs := by
  have h := tiled_runsAmong hs s.span (Nat.zero_add _)
  rwa [← List.range_eq_range'] at h

end Sequencer

end AudioIntake
