import AudioIntake.Proofs.Sequencer.RetryLadder
import AudioIntake.Settings.Stream
import Mathlib.Data.List.Sort

/-!
# The rungs of a usable ladder

A ladder asks on a level if it has a rung there, however often and wherever the rung is written down.
Climbing level by level therefore meets the rungs in ascending order, each of them once, and none
from the end of the ladder on. So the list of the rungs met is the list as written if and only if the
latter ascends and keeps below the end. The check compares neighbours and looks at the last rung
only; as the rungs ascend, that comes to the same.
-/

namespace AudioIntake

namespace Ladder

variable {ladder : Ladder}

/-- The rungs ascend from level one and keep below the end. -/
structure WellFormed (ladder : Ladder) : Prop where
  giveUpAt_pos : 0 < ladder.giveUpAt
  ascends : ladder.rerequestAt.Pairwise (· < ·)
  pos : ∀ level ∈ ladder.rerequestAt, 0 < level
  lt_giveUpAt : ∀ level ∈ ladder.rerequestAt, level < ladder.giveUpAt

/-- A climb that goes on beyond the end of a ladder meets the rungs as they are written just when
they are well formed. -/
theorem wellFormed_iff_filter_eq (hpos : 0 < ladder.giveUpAt) {n : Nat} (hn : ladder.giveUpAt ≤ n) :
    ladder.WellFormed ↔ (List.range' 1 n).filter ladder.Asks = ladder.rerequestAt := by
  have hascends : ((List.range' 1 n).filter ladder.Asks).Pairwise (· < ·) :=
    (List.pairwise_lt_range' ..).filter _
  have hmem : ∀ level, level ∈ (List.range' 1 n).filter ladder.Asks ↔
      0 < level ∧ level ∈ ladder.rerequestAt ∧ level < ladder.giveUpAt := by
    intro level
    rw [List.mem_filter, List.mem_range'_1, decide_eq_true_eq, Asks]
    exact ⟨fun ⟨hrange, hrung⟩ => ⟨hrange.1, hrung⟩,
      fun ⟨hlevel, hrung⟩ => ⟨⟨hlevel, by omega⟩, hrung⟩⟩
  constructor
  · intro h
    refine hascends.eq_of_mem_iff h.ascends fun level => ?_
    rw [hmem]
    exact ⟨fun hlevel => hlevel.2.1,
      fun hlevel => ⟨h.pos level hlevel, hlevel, h.lt_giveUpAt level hlevel⟩⟩
  · intro h
    rw [h] at hascends hmem
    exact
      { giveUpAt_pos := hpos
        ascends := hascends
        pos := fun level hlevel => ((hmem level).mp hlevel).1
        lt_giveUpAt := fun level hlevel => ((hmem level).mp hlevel).2.2 }

end Ladder

theorem ascending_iff (levels : List UInt32) :
    ascending levels = true ↔ levels.Pairwise (· < ·) := by
  induction levels with
  | nil => simp [ascending]
  | cons a rest ih =>
      cases rest with
      | nil => simp [ascending]
      | cons b rest =>
          rw [ascending, Bool.and_eq_true, decide_eq_true_eq, ih, List.pairwise_cons (a := a),
            List.forall_mem_cons]
          refine ⟨fun ⟨hlt, hrest⟩ => ⟨⟨hlt, fun c hc => ?_⟩, hrest⟩, fun h => ⟨h.1.1, h.2⟩⟩
          exact UInt32.lt_trans hlt ((List.pairwise_cons.mp hrest).1 c hc)

/-- The last of ascending levels is the greatest of them. -/
theorem any_getLast?_eq_false_iff {levels : List UInt32} (h : levels.Pairwise (· < ·))
    (bound : UInt32) :
    levels.getLast?.any (bound ≤ ·) = false ↔ ∀ level ∈ levels, level < bound := by
  rcases List.eq_nil_or_concat levels with rfl | ⟨front, last, rfl⟩
  · simp
  · have hfront := (List.pairwise_append.mp (List.concat_eq_append ▸ h)).2.2
    simp only [List.concat_eq_append, List.getLast?_concat, Option.any_some, decide_eq_false_iff_not,
      UInt32.not_le, List.forall_mem_append, List.forall_mem_singleton]
    refine ⟨fun hlt => ⟨fun level hlevel => ?_, hlt⟩, fun h => h.2⟩
    exact UInt32.lt_trans (hfront level hlevel last List.mem_cons_self) hlt

theorem StreamSettings.check_eq_ok_iff_wellFormed (settings : StreamSettings) :
    settings.check = .ok () ↔
      settings.ladder.WellFormed ∧ settings.tickIntervalMs ≠ 0 ∧ 0 < settings.maxLead ∧
        settings.queueCapacity ≠ 0 ∧ settings.rerequestQueueCapacity ≠ 0 := by
  have hpos : settings.giveUpTick ≠ 0 ↔ 0 < settings.ladder.giveUpAt :=
    UInt32.pos_iff_ne_zero.symm
  have hascends : settings.rerequestTicks.Pairwise (· < ·) ↔
      settings.ladder.rerequestAt.Pairwise (· < ·) := by
    rw [ladder, List.pairwise_map]
    rfl
  have hzero : 0 ∉ settings.rerequestTicks ↔ ∀ level ∈ settings.ladder.rerequestAt, 0 < level := by
    rw [ladder, List.forall_mem_map]
    refine ⟨fun h level hlevel => UInt32.pos_iff_ne_zero.mpr fun heq => h (heq ▸ hlevel),
      fun h hmem => Nat.lt_irrefl 0 (h 0 hmem)⟩
  have hbelow : (∀ level ∈ settings.rerequestTicks, level < settings.giveUpTick) ↔
      ∀ level ∈ settings.ladder.rerequestAt, level < settings.ladder.giveUpAt := by
    rw [ladder, List.forall_mem_map]
    rfl
  rw [check_eq_ok_iff, ascending_iff]
  constructor
  · rintro ⟨hinterval, hgive, hrungs, hnonzero, hlast, hlead, hqueue, hrequests⟩
    rw [any_getLast?_eq_false_iff hrungs] at hlast
    exact ⟨⟨hpos.mp hgive, hascends.mp hrungs, hzero.mp hnonzero, hbelow.mp hlast⟩, hinterval,
      hlead, hqueue, hrequests⟩
  · rintro ⟨h, hinterval, hlead, hqueue, hrequests⟩
    have hrungs := hascends.mpr h.ascends
    refine ⟨hinterval, hpos.mpr h.giveUpAt_pos, hrungs, hzero.mpr h.pos, ?_, hlead, hqueue,
      hrequests⟩
    exact (any_getLast?_eq_false_iff hrungs _).mpr (hbelow.mpr h.lt_giveUpAt)

end AudioIntake
