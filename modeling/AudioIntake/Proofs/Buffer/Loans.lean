import AudioIntake.Buffer.Pool
import Mathlib.Data.List.Basic

/-!
# Loans of a pool

Packets are buffers on loan. `Lends size pool ps` says that the packets `ps` are what a pool has
out, and that every buffer of the pool, out or idle, has the one size. Taking a packet out, sending
packets back and writing into a packet all keep the books straight, whatever the packets pass
through in between.
-/

namespace AudioIntake.Pool

variable {size : Nat} {pool : Pool} {p q : Packet} {ps qs : List Packet}

structure Lends (size : Nat) (pool : Pool) (ps : List Packet) : Prop where
  bufferSize_eq : pool.bufferSize = size
  outstanding_eq : pool.outstanding = ps.length
  pooled : ∀ p ∈ ps, p.pooled = true
  length_buffer : ∀ p ∈ ps, p.buffer.length = size
  length_idle : ∀ buffer ∈ pool.idle, buffer.length = size

theorem lends_ofSize (size maxIdle : Nat) : Lends size (ofSize size maxIdle) [] where
  bufferSize_eq := rfl
  outstanding_eq := rfl
  pooled := nofun
  length_buffer := nofun
  length_idle := nofun

namespace Lends

theorem acquire (h : Lends size pool ps) :
    Lends size pool.acquire.2 (pool.acquire.1 :: ps) := by
  have hidle := h.length_idle
  rw [Pool.acquire]
  split
  · rename_i buffer rest heq
    rw [heq] at hidle
    obtain ⟨hbuffer, hrest⟩ := List.forall_mem_cons.mp hidle
    exact
      { bufferSize_eq := h.bufferSize_eq
        outstanding_eq := congrArg (· + 1) h.outstanding_eq
        pooled := List.forall_mem_cons.mpr ⟨rfl, h.pooled⟩
        length_buffer := List.forall_mem_cons.mpr ⟨hbuffer, h.length_buffer⟩
        length_idle := hrest }
  · have hfresh : (List.replicate pool.bufferSize (0 : UInt8)).length = size := by
      rw [List.length_replicate, h.bufferSize_eq]
    exact
      { bufferSize_eq := h.bufferSize_eq
        outstanding_eq := congrArg (· + 1) h.outstanding_eq
        pooled := List.forall_mem_cons.mpr ⟨rfl, h.pooled⟩
        length_buffer := List.forall_mem_cons.mpr ⟨hfresh, h.length_buffer⟩
        length_idle := hidle }

theorem perm (h : Lends size pool ps) (hps : ps.Perm qs) : Lends size pool qs where
  bufferSize_eq := h.bufferSize_eq
  outstanding_eq := h.outstanding_eq.trans hps.length_eq
  pooled q hq := h.pooled q (hps.mem_iff.mpr hq)
  length_buffer q hq := h.length_buffer q (hps.mem_iff.mpr hq)
  length_idle := h.length_idle

theorem release (h : Lends size pool (p :: ps)) : Lends size (pool.release p) ps := by
  obtain ⟨hpooled, hrest⟩ := List.forall_mem_cons.mp h.pooled
  obtain ⟨hbuffer, hbuffers⟩ := List.forall_mem_cons.mp h.length_buffer
  have hout : pool.outstanding - 1 = ps.length := by
    rw [h.outstanding_eq, List.length_cons, Nat.add_sub_cancel]
  rw [Pool.release, if_pos hpooled, reclaim]
  split
  · exact ⟨h.bufferSize_eq, hout, hrest, hbuffers,
      List.forall_mem_cons.mpr ⟨hbuffer, h.length_idle⟩⟩
  · exact ⟨h.bufferSize_eq, hout, hrest, hbuffers, h.length_idle⟩

theorem releaseAll (h : Lends size pool (qs ++ ps)) : Lends size (pool.releaseAll qs) ps := by
  induction qs generalizing pool with
  | nil => exact h
  | cons q qs ih => exact ih h.release

/-- Writing into a packet changes neither whose it is nor how much room it has. -/
theorem rewrite (h : Lends size pool (p :: ps)) (hpooled : q.pooled = p.pooled)
    (hbuffer : q.buffer.length = p.buffer.length) : Lends size pool (q :: ps) := by
  obtain ⟨hp, hrest⟩ := List.forall_mem_cons.mp h.pooled
  obtain ⟨hsize, hsizes⟩ := List.forall_mem_cons.mp h.length_buffer
  exact
    { bufferSize_eq := h.bufferSize_eq
      outstanding_eq := h.outstanding_eq
      pooled := List.forall_mem_cons.mpr ⟨hpooled.trans hp, hrest⟩
      length_buffer := List.forall_mem_cons.mpr ⟨hbuffer.trans hsize, hsizes⟩
      length_idle := h.length_idle }

end Lends

end AudioIntake.Pool
