import AudioIntake.Buffer.Shelf
import AudioIntake.Proofs.Buffer.Books
import AudioIntake.Proofs.Tables

/-!
# Shelves over a pool

Whoever keeps packets in slots asks the pool for one at a time, sends back the one that loses its
slot, and leaves the pool alone otherwise. So nothing is sent back that is not out, and the books of
the pool balance at every moment, with the packets of the pool that stand in slots as those alive.
-/

namespace AudioIntake

namespace Shelf

/-- What the pool is told when the packet in a slot is no longer needed. -/
def vacated (shelf : Shelf) (slot : Nat) : List Pool.Call := (shelf.packet? slot).toList.map .release

/-- What the pool is asked for in the course of an action, in this order. -/
def calls (shelf : Shelf) : Action → List Pool.Call
  | .acquire slot => .acquire :: shelf.vacated slot
  | .adopt slot _ _ _ => shelf.vacated slot
  | .release slot => shelf.vacated slot
  | .releaseAll => shelf.slots.values.map .release
  | .overwrite _ _ => []
  | .setLength _ _ => []
  | .dropFront _ _ => []
  | .setSeqno _ _ => []
  | .setRetransmitted _ _ => []

def history : Shelf → List Action → List Pool.Call
  | _, [] => []
  | shelf, a :: actions => shelf.calls a ++ history (shelf.act a) actions

/-- The packets of the pool that stand in slots. -/
def loans (shelf : Shelf) : Nat := shelf.slots.values.countP (·.pooled)

variable {size maxIdle : Nat} {shelf next : Shelf} {past more : List Pool.Call}

theorem pool_put (shelf : Shelf) (slot : Nat) (p : Packet) :
    (shelf.put slot p).pool = shelf.pool.run (shelf.vacated slot) := by
  simp only [put, vacated, packet?]
  cases shelf.slots[slot]? <;> rfl

theorem pool_release (shelf : Shelf) (slot : Nat) :
    (shelf.release slot).pool = shelf.pool.run (shelf.vacated slot) := by
  simp only [release, vacated, packet?]
  cases shelf.slots[slot]? <;> rfl

theorem pool_releaseAll (shelf : Shelf) :
    shelf.releaseAll.pool = shelf.pool.run (shelf.slots.values.map .release) := by
  rw [Pool.run, List.foldl_map]
  rfl

theorem pool_act (shelf : Shelf) (a : Action) :
    (shelf.act a).pool = shelf.pool.run (shelf.calls a) := by
  cases a with
  | acquire slot => exact pool_put _ slot _
  | adopt slot seqno data retransmitted => exact pool_put shelf slot _
  | release slot => exact pool_release shelf slot
  | releaseAll => exact pool_releaseAll shelf
  | overwrite slot data => rfl
  | setLength slot n => rfl
  | dropFront slot n => rfl
  | setSeqno slot seqno => rfl
  | setRetransmitted slot retransmitted => rfl

theorem values_put (shelf : Shelf) (slot : Nat) (p : Packet) :
    (shelf.put slot p).slots.values.Perm (p :: (shelf.slots.erase slot).values) := by
  have hsame : shelf.slots.insert slot p = (shelf.slots.erase slot).insert slot p := by
    apply Std.ExtTreeMap.ext_getElem?
    intro other
    grind
  have hfree : slot ∉ shelf.slots.erase slot := by simp
  rw [put, hsame]
  exact Tables.values_insert_perm hfree p

theorem values_release (shelf : Shelf) (slot : Nat) :
    (shelf.release slot).slots.values.Perm (shelf.slots.erase slot).values := by
  rw [release]
  split
  · exact List.Perm.rfl
  · rename_i hempty
    have hperm := Tables.values_perm shelf.slots slot
    rwa [hempty] at hperm

theorem values_modify (shelf : Shelf) (slot : Nat) (f : Packet → Packet) :
    (shelf.modify slot f).slots.values.Perm
      (((shelf.packet? slot).map f).toList ++ (shelf.slots.erase slot).values) := by
  have hperm := Tables.values_perm (shelf.slots.modify slot f) slot
  have hrest : (shelf.slots.modify slot f).erase slot = shelf.slots.erase slot := by
    apply Std.ExtTreeMap.ext_getElem?
    intro other
    grind
  rw [hrest, Std.ExtTreeMap.getElem?_modify, if_pos (Std.ReflCmp.compare_self)] at hperm
  exact hperm

/-! ### The books of the pool under a shelf -/

/-- A shelf whose pool has been through these calls since it was empty. -/
structure Booked (size maxIdle : Nat) (past : List Pool.Call) (shelf : Shelf) : Prop where
  lawful : Pool.Lawful size past
  pool_eq : shelf.pool = (Pool.ofSize size maxIdle).run past
  loans_add : shelf.loans + Pool.returned past = Pool.taken past
  length_buffer : ∀ p ∈ shelf.slots.values, p.pooled = true → p.buffer.length = size

theorem booked_ofPool (size maxIdle : Nat) : Booked size maxIdle [] (ofPool (.ofSize size maxIdle)) where
  lawful := ⟨fun moment hmoment => by rw [List.prefix_nil.mp hmoment]; exact Nat.le_refl _, nofun⟩
  pool_eq := rfl
  loans_add := rfl
  length_buffer := by simp [ofPool]

namespace Booked

theorem accounted (h : Booked size maxIdle past shelf) :
    Pool.Accounted size maxIdle past shelf.pool := by
  rw [h.pool_eq]
  exact Pool.accounted_run h.lawful maxIdle

theorem loans_eq (h : Booked size maxIdle past shelf) : shelf.loans = Pool.alive past := by
  have := h.loans_add
  rw [Pool.alive]
  omega

/-- The pool is told of packets in slots only, of each at most once. -/
theorem step (h : Booked size maxIdle past shelf) (hpool : next.pool = shelf.pool.run more)
    (hcount : next.loans + Pool.returned more = shelf.loans + Pool.taken more)
    (hreturned : Pool.returned more ≤ shelf.loans)
    (hmem : ∀ p, .release p ∈ more → p ∈ shelf.slots.values)
    (hlength : ∀ p ∈ next.slots.values, p.pooled = true → p.buffer.length = size) :
    Booked size maxIdle (past ++ more) next where
  lawful := h.lawful.append (h.loans_eq ▸ hreturned)
    fun p hp hpooled => h.length_buffer p (hmem p hp) hpooled
  pool_eq := by rw [hpool, h.pool_eq, Pool.run_append]
  loans_add := by
    have := h.loans_add
    rw [Pool.returned_append, Pool.taken_append]
    omega
  length_buffer := hlength

end Booked

theorem loans_eq_add (shelf : Shelf) (slot : Nat) :
    shelf.loans =
      (shelf.packet? slot).toList.countP (·.pooled) +
        (shelf.slots.erase slot).values.countP (·.pooled) := by
  rw [loans, (Tables.values_perm shelf.slots slot).countP_eq, List.countP_append]
  rfl

theorem returned_vacated (shelf : Shelf) (slot : Nat) :
    Pool.returned (shelf.vacated slot) = (shelf.packet? slot).toList.countP (·.pooled) :=
  Pool.returned_map_release _

theorem mem_values_of_vacated {slot : Nat} {p : Packet} (h : .release p ∈ shelf.vacated slot) :
    p ∈ shelf.slots.values := by
  obtain ⟨q, hq, hpq⟩ := List.mem_map.mp h
  cases hpq
  exact Tables.mem_values (Option.mem_toList.mp hq)

namespace Booked

variable {slot : Nat}

/-- One slot changes, and the pool is told of the packet that was there. -/
theorem replace (h : Booked size maxIdle past shelf) (new : Option Packet)
    (hpool : next.pool = shelf.pool.run more)
    (hvalues : next.slots.values.Perm (new.toList ++ (shelf.slots.erase slot).values))
    (hcount : new.toList.countP (·.pooled) + Pool.returned more =
      (shelf.packet? slot).toList.countP (·.pooled) + Pool.taken more)
    (hreturned : Pool.returned more ≤ (shelf.packet? slot).toList.countP (·.pooled))
    (hmem : ∀ p, .release p ∈ more → .release p ∈ shelf.vacated slot)
    (hnew : ∀ p ∈ new, p.pooled = true → p.buffer.length = size) :
    Booked size maxIdle (past ++ more) next := by
  have hloans : next.loans =
      new.toList.countP (·.pooled) + (shelf.slots.erase slot).values.countP (·.pooled) := by
    rw [loans, hvalues.countP_eq, List.countP_append]
  have hold := shelf.loans_eq_add slot
  refine h.step hpool (by omega) (by omega) (fun p hp => mem_values_of_vacated (hmem p hp)) ?_
  intro p hp
  obtain hp | hp := List.mem_append.mp (hvalues.mem_iff.mp hp)
  · exact hnew p (Option.mem_toList.mp hp)
  · apply h.length_buffer p
    exact (Tables.values_perm shelf.slots slot).mem_iff.mpr (List.mem_append_right _ hp)

theorem acquire (h : Booked size maxIdle past shelf) (slot : Nat) :
    Booked size maxIdle (past ++ shelf.calls (.acquire slot)) (shelf.act (.acquire slot)) := by
  have hpooled : shelf.pool.acquire.1.pooled = true := by
    rw [Pool.acquire]
    split <;> rfl
  have htaken : Pool.taken (shelf.calls (.acquire slot)) = 1 := by
    rw [calls, ← List.singleton_append, Pool.taken_append, vacated, Pool.taken_map_release]
    rfl
  have hreturned : Pool.returned (shelf.calls (.acquire slot)) =
      (shelf.packet? slot).toList.countP (·.pooled) := by
    rw [calls, ← List.singleton_append, Pool.returned_append, returned_vacated]
    exact Nat.zero_add _
  refine h.replace (some shelf.pool.acquire.1) (pool_act shelf _)
    (values_put { shelf with pool := shelf.pool.acquire.2 } slot _) ?_ (by omega) ?_ ?_
  · rw [htaken, hreturned, Option.toList_some, List.countP_singleton, if_pos hpooled, Nat.add_comm]
  · intro p hp
    simpa [calls] using hp
  · rintro p ⟨⟩ -
    exact h.accounted.length_acquire

theorem adopt (h : Booked size maxIdle past shelf) (slot : Nat) (seqno : SeqNo) (data : Octets)
    (retransmitted : Bool) :
    Booked size maxIdle (past ++ shelf.vacated slot)
      (shelf.act (.adopt slot seqno data retransmitted)) := by
  refine h.replace (some (.ofOctets seqno data retransmitted)) (pool_put shelf slot _)
    (values_put shelf slot _) ?_ (returned_vacated shelf slot).le (fun _ hp => hp) ?_
  · rw [returned_vacated, vacated, Pool.taken_map_release]
    exact Nat.zero_add _
  · rintro p ⟨⟩ hpooled
    cases hpooled

theorem release (h : Booked size maxIdle past shelf) (slot : Nat) :
    Booked size maxIdle (past ++ shelf.vacated slot) (shelf.release slot) := by
  refine h.replace none (pool_release shelf slot) (values_release shelf slot) ?_
    (returned_vacated shelf slot).le (fun _ hp => hp) nofun
  rw [returned_vacated, vacated, Pool.taken_map_release]
  exact Nat.zero_add _

theorem releaseAll (h : Booked size maxIdle past shelf) :
    Booked size maxIdle (past ++ shelf.slots.values.map .release) shelf.releaseAll := by
  have hvalues : shelf.releaseAll.slots.values = [] := Tables.values_empty
  refine h.step (pool_releaseAll shelf) ?_ ?_ ?_ ?_
  · rw [loans, hvalues, Pool.returned_map_release, Pool.taken_map_release]
    exact Nat.zero_add _
  · exact (Pool.returned_map_release _).le
  · intro p hp
    obtain ⟨q, hq, hpq⟩ := List.mem_map.mp hp
    cases hpq
    exact hq
  · rw [hvalues]
    nofun

/-- Work on a packet changes neither whose it is nor how much room it has. -/
theorem modify (h : Booked size maxIdle past shelf) (slot : Nat) {f : Packet → Packet}
    (hpooled : ∀ p, (f p).pooled = p.pooled)
    (hlength : ∀ p, (f p).buffer.length = p.buffer.length) :
    Booked size maxIdle (past ++ []) (shelf.modify slot f) := by
  refine h.replace ((shelf.packet? slot).map f) rfl (values_modify shelf slot f) ?_
    (Nat.zero_le _) nofun ?_
  · cases shelf.packet? slot with
    | none => rfl
    | some p => simp [hpooled, Pool.returned, Pool.taken]
  · intro p hp hp'
    obtain ⟨q, hq, rfl⟩ := Option.map_eq_some_iff.mp hp
    rw [hlength]
    exact h.length_buffer q (Tables.mem_values hq) (hpooled q ▸ hp')

theorem act (h : Booked size maxIdle past shelf) (a : Action) :
    Booked size maxIdle (past ++ shelf.calls a) (shelf.act a) := by
  cases a with
  | acquire slot => exact h.acquire slot
  | adopt slot seqno data retransmitted => exact h.adopt slot seqno data retransmitted
  | release slot => exact h.release slot
  | releaseAll => exact h.releaseAll
  | overwrite slot data =>
      exact h.modify slot (fun _ => rfl) fun p => p.length_buffer_overwrite data
  | setLength slot n => exact h.modify slot (fun _ => rfl) fun _ => rfl
  | dropFront slot n => exact h.modify slot (fun _ => rfl) fun _ => rfl
  | setSeqno slot seqno => exact h.modify slot (fun _ => rfl) fun _ => rfl
  | setRetransmitted slot retransmitted => exact h.modify slot (fun _ => rfl) fun _ => rfl

theorem run (h : Booked size maxIdle past shelf) (actions : List Action) :
    Booked size maxIdle (past ++ shelf.history actions) (shelf.run actions) := by
  induction actions generalizing past shelf with
  | nil => simpa [history, Shelf.run] using h
  | cons a actions ih =>
      have hrest := ih (h.act a)
      rwa [List.append_assoc] at hrest

end Booked

/-- Whatever is done with packets in slots, at every moment as many packets of the pool are out as
are alive, the pool keeps no more idle buffers than it may, each buffer it ever allocated is idle, is
out or was sent back to a full pool, and it allocated one only when none was idle. The packets alive
after an action are those that stand in slots, and all buffers of the pool have the one size.
Packets with a buffer of their own leave the pool alone. If there are never more packets alive at
once than the pool keeps idle, it has allocated as many buffers as there were packets alive at the
most. -/
theorem books_balance (size maxIdle : Nat) (actions : List Action) :
    let pool := Pool.ofSize size maxIdle
    let history := (ofPool pool).history actions
    let shelf := (ofPool pool).run actions
    (∀ moment, moment <+: history → Pool.Accounted size maxIdle moment (pool.run moment)) ∧
      shelf.pool = pool.run history ∧
      shelf.loans = Pool.alive history ∧
      (∀ p ∈ shelf.slots.values, p.pooled = true → p.buffer.length = size) ∧
      (∀ slot seqno data retransmitted,
        (shelf.act (.adopt slot seqno data retransmitted)).pool = (shelf.act (.release slot)).pool) ∧
      (∀ slot p, shelf.packet? slot = some p → p.pooled = false →
        (shelf.act (.release slot)).pool = shelf.pool) ∧
      ((∀ moment, moment <+: history → Pool.alive moment ≤ maxIdle) →
        IsGreatest {n | ∃ moment, moment <+: history ∧ Pool.alive moment = n}
          shelf.pool.allocated) := by
  intro pool history shelf
  have h : Booked size maxIdle history shelf := (booked_ofPool size maxIdle).run actions
  refine ⟨?_, h.pool_eq, h.loans_eq, h.length_buffer, ?_, ?_, ?_⟩
  · intro moment hmoment
    exact Pool.accounted_run (h.lawful.of_isPrefix hmoment) maxIdle
  · intro slot seqno data retransmitted
    rw [pool_act, pool_act]
    rfl
  · intro slot p hp hown
    rw [pool_act, calls, vacated, hp]
    exact if_neg (Bool.eq_false_iff.mp hown)
  · intro hroom
    rw [h.pool_eq]
    exact (Pool.isGreatest_allocated h.lawful hroom).1

/-- Two packets at a time, one of them in the slot of a packet that has a buffer of its own. -/
theorem books_balance_of_reuse :
    let actions := [.acquire 0, .acquire 1, .overwrite 1 [1, 2, 3, 4, 5], .release 0,
      .adopt 0 (SeqNo.ofNat 7) [9, 9] true, .acquire 0, .releaseAll]
    let history := (ofPool (.ofSize 4 2)).history actions
    (∀ moment, moment <+: history → Pool.alive moment ≤ 2) ∧
      ((ofPool (.ofSize 4 2)).run actions).pool.stats =
        { allocated := 2, pooled := 2, outstanding := 0 } ∧
      IsGreatest {n | ∃ moment, moment <+: history ∧ Pool.alive moment = n} 2 := by
  intro actions history
  have hstats : ((ofPool (.ofSize 4 2)).run actions).pool.stats =
      { allocated := 2, pooled := 2, outstanding := 0 } := by
    decide +kernel
  have hroom : ∀ moment, moment <+: history → Pool.alive moment ≤ 2 := by
    intro moment hmoment
    have hall : ∀ moment ∈ history.inits, Pool.alive moment ≤ 2 := by decide +kernel
    exact hall moment ((List.mem_inits moment history).mpr hmoment)
  obtain ⟨-, -, -, -, -, -, hgreatest⟩ := books_balance 4 2 actions
  have hallocated : ((ofPool (.ofSize 4 2)).run actions).pool.allocated = 2 :=
    congrArg PoolStats.allocated hstats
  exact ⟨hroom, hstats, hallocated ▸ hgreatest hroom⟩

end Shelf

end AudioIntake
