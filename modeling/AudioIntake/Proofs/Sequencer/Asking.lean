import AudioIntake.Proofs.Sequencer.Custody

/-!
# A turn asks last

A tick gives up the nearest runs and asks for runs behind them, and nothing else asks. So whatever a
turn delivers it delivers before its first rerequest.
-/

namespace AudioIntake

/-- Nothing is delivered once something has been asked for. -/
def AsksLast (es : List Event) : Prop :=
  es.Pairwise fun e e' => e.request? = none ∨ e'.delivery? = none

namespace AsksLast

variable {es es' : List Event}

theorem of_requests_nil (h : es.filterMap Event.request? = []) : AsksLast es := by
  rw [List.filterMap_eq_nil_iff] at h
  exact List.pairwise_of_forall_mem_list fun e he _ _ => Or.inl (h e he)

theorem of_delivered_nil (h : es.filterMap Event.delivery? = []) : AsksLast es := by
  rw [List.filterMap_eq_nil_iff] at h
  exact List.pairwise_of_forall_mem_list fun _ _ e he => Or.inr (h e he)

theorem append_left (h : es.filterMap Event.request? = []) (h' : AsksLast es') :
    AsksLast (es ++ es') := by
  refine List.pairwise_append.mpr ⟨of_requests_nil h, h', fun e he e' _ => ?_⟩
  rw [List.filterMap_eq_nil_iff] at h
  exact Or.inl (h e he)

end AsksLast

namespace Sequencer

variable {s : Sequencer} {runs : List Run}

theorem asksLast_escalateAll (hs : s.Sound) (h : Tiled s 0 runs) :
    AsksLast (s.escalateAll runs).2.events := by
  induction runs generalizing s with
  | nil => exact .nil
  | cons run runs ih =>
      by_cases hgive : s.ladder.giveUpAt ≤ run.level
      · obtain ⟨n, hsweep, hrest, -⟩ := sweeps_evict hs h
        have hrequests : (s.evict run).2.requests = [] := by
          rw [evict]
          dsimp only
          split <;> rfl
        rw [(disposes_evict s run).requests_eq] at hrequests
        rw [escalateAll_cons, escalate_of_le hgive]
        exact .append_left hrequests (ih (hsweep.sound hs) hrest)
      · -- The levels fall with the distance, so no run behind this one is given up.
        obtain ⟨_, _, _, hdelivered⟩ := escalateAll_of_lt (h.level_lt hs (Nat.not_le.mp hgive))
        exact .of_delivered_nil hdelivered

theorem requests_handle (s : Sequencer) (p : Packet) : (s.handle p).2.requests = [] := by
  rw [handle]
  split
  · rfl
  · dsimp only
    split
    · rfl
    · rw [place]
      dsimp only
      split
      · rfl
      · split
        · rfl
        · split <;> rfl

theorem requests_accept (s : Sequencer) (maxLead : Int) (p : Packet) :
    (s.accept maxLead p).2.requests = [] := by
  have hadmitted := s.admitted_accept maxLead p
  generalize (s.accept maxLead p).1 = t at hadmitted
  generalize (s.accept maxLead p).2 = r at hadmitted ⊢
  cases hadmitted with
  | discarded =>
      rw [discard]
      split <;> rfl
  | flushed => exact s.flush.1.requests_handle p
  | handled => exact s.requests_handle p

theorem asksLast_turn (hs : s.Sound) (maxLead : Int) (turn : Turn) :
    AsksLast (s.turn maxLead turn).2.events := by
  cases turn with
  | packet p =>
      obtain ⟨_, _, hdisposes⟩ := s.disposes_turn maxLead (.packet p)
      apply AsksLast.of_requests_nil
      rw [← hdisposes.requests_eq]
      exact s.requests_accept maxLead p
  | flush => exact .of_requests_nil rfl
  | tick =>
      rw [turn, tick_eq hs]
      exact asksLast_escalateAll (sound_age hs) (tiled_runs (sound_age hs))

end Sequencer

end AudioIntake
