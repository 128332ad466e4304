import AudioIntake.Buffer.Pool
import Mathlib.Data.List.Infix
import Mathlib.Order.Bounds.Basic

/-!
# The books of a pool

Seen from a pool, packets are taken out and sent back in whatever order their owners like. The books
are kept by the calls made so far: how many packets are alive, how often no idle buffer was found,
and how many buffers were let go because the pool was full. They balance after every call, so long
as nobody sends back what he has not got. If the packets alive at once are never more than the pool
keeps idle, no buffer is ever let go, and then the buffers allocated are as many as the most packets
that were alive at once.
-/

namespace AudioIntake

namespace Pool

/-- What a pool is asked for. -/
inductive Call where
  | acquire
  /-- The packet is no longer needed, be it the pool's or not. -/
  | release (p : Packet)

namespace Call

def takes : Call → Bool
  | acquire => true
  | release _ => false

def returns : Call → Bool
  | acquire => false
  | release p => p.pooled

end Call

def call (pool : Pool) : Call → Pool
  | .acquire => pool.acquire.2
  | .release p => pool.release p

def run (pool : Pool) (calls : List Call) : Pool := calls.foldl call pool

/-- The packet asked for gets a new buffer. -/
def isMiss (pool : Pool) (c : Call) : Bool := c.takes && pool.idle.isEmpty

/-- The buffer sent back is let go, for the pool is full. -/
def isSpill (pool : Pool) (c : Call) : Bool :=
  c.returns && decide (pool.maxIdle ≤ pool.idle.length)

/-- How many of the calls meet the pool in a certain state. -/
def tally (meets : Pool → Call → Bool) : Pool → List Call → Nat
  | _, [] => 0
  | pool, c :: calls => (meets pool c).toNat + tally meets (pool.call c) calls

def misses : Pool → List Call → Nat := tally isMiss

def spills : Pool → List Call → Nat := tally isSpill

def taken (calls : List Call) : Nat := calls.countP Call.takes

def returned (calls : List Call) : Nat := calls.countP Call.returns

/-- The packets of the pool that are alive after these calls. -/
def alive (calls : List Call) : Nat := taken calls - returned calls

variable {size maxIdle : Nat} {pool next : Pool} {calls : List Call} {c : Call}

theorem run_concat (pool : Pool) (calls : List Call) (c : Call) :
    pool.run (calls ++ [c]) = (pool.run calls).call c := by
  simp [run]

theorem run_append (pool : Pool) (before after : List Call) :
    pool.run (before ++ after) = (pool.run before).run after := List.foldl_append

theorem tally_concat (meets : Pool → Call → Bool) (pool : Pool) (calls : List Call) (c : Call) :
    tally meets pool (calls ++ [c]) = tally meets pool calls + (meets (pool.run calls) c).toNat := by
  induction calls generalizing pool with
  | nil => simp [tally, run]
  | cons first calls ih =>
      rw [List.cons_append, tally, ih, tally, Nat.add_assoc]
      rfl

theorem taken_concat (calls : List Call) (c : Call) :
    taken (calls ++ [c]) = taken calls + c.takes.toNat := by
  rw [taken, List.countP_append, List.countP_singleton, ← taken]
  cases c.takes <;> rfl

theorem returned_concat (calls : List Call) (c : Call) :
    returned (calls ++ [c]) = returned calls + c.returns.toNat := by
  rw [returned, List.countP_append, List.countP_singleton, ← returned]
  cases c.returns <;> rfl

/-! ### One call -/

/-- What becomes of a pool by a call. -/
inductive Called (pool : Pool) : Call → Pool → Prop where
  | reuse {buffer : Octets} {rest : List Octets} (hidle : pool.idle = buffer :: rest) :
      Called pool .acquire { pool with idle := rest, outstanding := pool.outstanding + 1 }
  | allocate (hidle : pool.idle = []) : Called pool .acquire
      { pool with allocated := pool.allocated + 1, outstanding := pool.outstanding + 1 }
  | keep {p : Packet} (hpooled : p.pooled = true) (hroom : pool.idle.length < pool.maxIdle) :
      Called pool (.release p)
        { pool with idle := p.buffer :: pool.idle, outstanding := pool.outstanding - 1 }
  | letGo {p : Packet} (hpooled : p.pooled = true) (hfull : pool.maxIdle ≤ pool.idle.length) :
      Called pool (.release p) { pool with outstanding := pool.outstanding - 1 }
  | pass {p : Packet} (hown : p.pooled = false) : Called pool (.release p) pool

theorem called_call (pool : Pool) (c : Call) : Called pool c (pool.call c) := by
  cases c with
  | acquire =>
      rw [call, Pool.acquire]
      split
      · exact .reuse ‹_›
      · exact .allocate ‹_›
  | release p =>
      rw [call, Pool.release]
      split
      · rename_i hpooled
        rw [reclaim]
        split
        · exact .keep hpooled ‹_›
        · exact .letGo hpooled (Nat.le_of_not_lt ‹_›)
      · exact .pass (Bool.eq_false_of_not_eq_true ‹_›)

namespace Called

theorem maxIdle_eq (h : Called pool c next) : next.maxIdle = pool.maxIdle := by
  cases h <;> rfl

theorem bufferSize_eq (h : Called pool c next) : next.bufferSize = pool.bufferSize := by
  cases h <;> rfl

/-- Only a packet asked for when nothing is idle gets a new buffer. -/
theorem allocated_eq (h : Called pool c next) :
    next.allocated = pool.allocated + (pool.isMiss c).toNat := by
  cases h <;> simp_all [isMiss, Call.takes]

theorem idle_of_miss (h : Called pool c next) (hmiss : pool.isMiss c = true) : next.idle = [] := by
  cases h <;> simp_all [isMiss, Call.takes]

theorem outstanding_add (h : Called pool c next)
    (hout : c.returns = true → 0 < pool.outstanding) :
    next.outstanding + c.returns.toNat = pool.outstanding + c.takes.toNat := by
  cases h with
  | reuse _ => rfl
  | allocate _ => rfl
  | keep hpooled _ =>
      have hpos := hout hpooled
      simp only [Call.takes, Call.returns, hpooled, Bool.toNat_true, Bool.toNat_false]
      omega
  | letGo hpooled _ =>
      have hpos := hout hpooled
      simp only [Call.takes, Call.returns, hpooled, Bool.toNat_true, Bool.toNat_false]
      omega
  | pass hown => simp only [Call.takes, Call.returns, hown]

theorem length_idle_le (h : Called pool c next) (hroom : pool.idle.length ≤ pool.maxIdle) :
    next.idle.length ≤ pool.maxIdle := by
  cases h with
  | reuse hidle =>
      rw [hidle, List.length_cons] at hroom
      exact Nat.le_of_succ_le hroom
  | keep _ hspace => exact hspace
  | allocate _ => exact hroom
  | letGo _ _ => exact hroom
  | pass _ => exact hroom

/-- A buffer is idle or out, unless it has been let go. -/
theorem stock_add (h : Called pool c next) (hout : c.returns = true → 0 < pool.outstanding) :
    next.idle.length + next.outstanding + (pool.isSpill c).toNat =
      pool.idle.length + pool.outstanding + (pool.isMiss c).toNat := by
  rw [isMiss, isSpill]
  cases h with
  | reuse hidle =>
      simp only [Call.takes, Call.returns, hidle, List.length_cons, List.isEmpty_cons,
        Bool.and_false, Bool.false_and, Bool.toNat_false]
      omega
  | allocate hidle =>
      simp only [Call.takes, Call.returns, hidle, List.isEmpty_nil, Bool.and_true,
        Bool.false_and, Bool.toNat_true, Bool.toNat_false]
      omega
  | keep hpooled hroom =>
      have hpos := hout hpooled
      simp only [Call.takes, Call.returns, List.length_cons, Nat.not_le.mpr hroom, decide_false,
        Bool.and_false, Bool.false_and, Bool.toNat_false]
      omega
  | letGo hpooled hfull =>
      have hpos := hout hpooled
      simp only [Call.takes, Call.returns, hpooled, hfull, decide_true, Bool.and_self,
        Bool.false_and, Bool.toNat_true, Bool.toNat_false]
      omega
  | pass hown =>
      simp only [Call.takes, Call.returns, hown, Bool.false_and, Bool.toNat_false]

theorem mem_idle (h : Called pool c next) {buffer : Octets} (hbuffer : buffer ∈ next.idle) :
    buffer ∈ pool.idle ∨ ∃ p, c = .release p ∧ p.pooled = true ∧ buffer = p.buffer := by
  cases h with
  | keep hpooled _ =>
      obtain rfl | hmem := List.mem_cons.mp hbuffer
      · exact .inr ⟨_, rfl, hpooled, rfl⟩
      · exact .inl hmem
  | reuse hidle => exact .inl (hidle ▸ List.mem_cons_of_mem _ hbuffer)
  | allocate _ => exact .inl hbuffer
  | letGo _ _ => exact .inl hbuffer
  | pass _ => exact .inl hbuffer

end Called

/-! ### Any number of calls -/

/-- At no time has more been sent back than was taken out, and what is sent back has the size of the
pool's buffers. -/
structure Lawful (size : Nat) (calls : List Call) : Prop where
  returned_le : ∀ moment, moment <+: calls → returned moment ≤ taken moment
  length_buffer : ∀ p, .release p ∈ calls → p.pooled = true → p.buffer.length = size

theorem Lawful.of_isPrefix {moment : List Call} (h : Lawful size calls) (hmoment : moment <+: calls) :
    Lawful size moment where
  returned_le earlier hearlier := h.returned_le earlier (hearlier.trans hmoment)
  length_buffer p hp := h.length_buffer p (hmoment.subset hp)

theorem taken_append (before after : List Call) :
    taken (before ++ after) = taken before + taken after := List.countP_append

theorem returned_append (before after : List Call) :
    returned (before ++ after) = returned before + returned after := List.countP_append

theorem taken_map_release (ps : List Packet) : taken (ps.map .release) = 0 := by
  simp [taken, Call.takes]

theorem returned_map_release (ps : List Packet) :
    returned (ps.map .release) = ps.countP (·.pooled) := List.countP_map

/-- Whoever sends back no more than is out keeps to the law. -/
theorem Lawful.append {more : List Call} (h : Lawful size calls) (hmore : returned more ≤ alive calls)
    (hlength : ∀ p, .release p ∈ more → p.pooled = true → p.buffer.length = size) :
    Lawful size (calls ++ more) where
  returned_le := by
    intro moment hmoment
    obtain hearlier | ⟨part, rfl⟩ :=
      List.prefix_or_prefix_of_prefix hmoment (List.prefix_append calls more)
    · exact h.returned_le moment hearlier
    · have hpart := (List.prefix_append_right_inj calls).mp hmoment
      have hreturned : returned part ≤ returned more := hpart.sublist.countP_le
      have hle := h.returned_le calls List.prefix_rfl
      rw [alive] at hmore
      rw [returned_append, taken_append]
      omega
  length_buffer p hp hpooled := by
    obtain hp | hp := List.mem_append.mp hp
    · exact h.length_buffer p hp hpooled
    · exact hlength p hp hpooled

/-- What is sent back is out at the time. -/
theorem Lawful.alive_pos (h : Lawful size (calls ++ [c])) (hreturns : c.returns = true) :
    0 < alive calls := by
  have hle := h.returned_le (calls ++ [c]) List.prefix_rfl
  have hnot : c.takes = false := by
    cases c with
    | acquire => cases hreturns
    | release p => rfl
  rw [taken_concat, returned_concat, hreturns, hnot] at hle
  exact Nat.sub_pos_of_lt hle

/-- What the books of a pool say after the calls made to it since it was empty. -/
structure Accounted (size maxIdle : Nat) (calls : List Call) (pool : Pool) : Prop where
  bufferSize_eq : pool.bufferSize = size
  maxIdle_eq : pool.maxIdle = maxIdle
  returned_le : returned calls ≤ taken calls
  outstanding_eq : pool.outstanding = alive calls
  length_idle_le : pool.idle.length ≤ maxIdle
  length_buffer : ∀ buffer ∈ pool.idle, buffer.length = size
  allocated_eq : pool.allocated =
    pool.idle.length + pool.outstanding + spills (ofSize size maxIdle) calls
  allocated_eq_misses : pool.allocated = misses (ofSize size maxIdle) calls

/-- A buffer that is lent out again has the size of a new one. -/
theorem Accounted.length_acquire (h : Accounted size maxIdle calls pool) :
    pool.acquire.1.buffer.length = size := by
  rw [Pool.acquire]
  split
  · rename_i hidle
    exact h.length_buffer _ (hidle ▸ List.mem_cons_self)
  · exact List.length_replicate.trans h.bufferSize_eq

theorem accounted_nil (size maxIdle : Nat) : Accounted size maxIdle [] (ofSize size maxIdle) where
  bufferSize_eq := rfl
  maxIdle_eq := rfl
  returned_le := Nat.le_refl _
  outstanding_eq := rfl
  length_idle_le := Nat.zero_le _
  length_buffer := nofun
  allocated_eq := rfl
  allocated_eq_misses := rfl

/-- One more call leaves the books balanced. -/
theorem Accounted.call (books : Accounted size maxIdle calls pool)
    (hpool : (ofSize size maxIdle).run calls = pool) (h : Lawful size (calls ++ [c])) :
    Accounted size maxIdle (calls ++ [c]) (pool.call c) := by
  have hcalled := called_call pool c
  have hmisses := tally_concat isMiss (ofSize size maxIdle) calls c
  have hspills := tally_concat isSpill (ofSize size maxIdle) calls c
  rw [hpool] at hmisses hspills
  have hle := h.returned_le (calls ++ [c]) List.prefix_rfl
  have hbefore := books.returned_le
  have hstock := books.allocated_eq
  have hout : c.returns = true → 0 < pool.outstanding :=
    fun hreturns => books.outstanding_eq ▸ h.alive_pos hreturns
  exact
    { bufferSize_eq := hcalled.bufferSize_eq.trans books.bufferSize_eq
      maxIdle_eq := hcalled.maxIdle_eq.trans books.maxIdle_eq
      returned_le := hle
      outstanding_eq := by
        have houtstanding := hcalled.outstanding_add hout
        rw [books.outstanding_eq, alive] at houtstanding
        rw [taken_concat, returned_concat] at hle
        rw [alive, taken_concat, returned_concat]
        omega
      length_idle_le := by
        have hroom := hcalled.length_idle_le (books.maxIdle_eq ▸ books.length_idle_le)
        rwa [books.maxIdle_eq] at hroom
      length_buffer := by
        intro buffer hbuffer
        obtain hidle | ⟨p, rfl, hpooled, rfl⟩ := hcalled.mem_idle hbuffer
        · exact books.length_buffer buffer hidle
        · exact h.length_buffer p (by simp) hpooled
      allocated_eq := by
        have hmoved := hcalled.stock_add hout
        rw [hcalled.allocated_eq, spills, hspills, ← spills, hstock]
        omega
      allocated_eq_misses := by
        rw [hcalled.allocated_eq, misses, hmisses, ← misses, books.allocated_eq_misses] }

theorem accounted_run (h : Lawful size calls) (maxIdle : Nat) :
    Accounted size maxIdle calls ((ofSize size maxIdle).run calls) := by
  induction calls using List.reverseRecOn with
  | nil => exact accounted_nil size maxIdle
  | append_singleton calls c ih =>
      rw [run_concat]
      exact (ih (h.of_isPrefix (List.prefix_append calls [c]))).call rfl h

theorem tally_le_length (meets : Pool → Call → Bool) (pool : Pool) (calls : List Call) :
    tally meets pool calls ≤ calls.length := by
  induction calls generalizing pool with
  | nil => exact Nat.le_refl _
  | cons c calls ih =>
      have hone := Bool.toNat_le (meets pool c)
      have hrest := ih (pool.call c)
      rw [tally, List.length_cons]
      omega

/-- A pool counts no further than it is called, so its counts stay within their words for all the
calls that a word can count. -/
theorem stats_le_length (h : Lawful size calls) (maxIdle : Nat) :
    let stats := ((ofSize size maxIdle).run calls).stats
    stats.allocated ≤ calls.length ∧ stats.pooled ≤ calls.length ∧
      stats.outstanding ≤ calls.length := by
  intro stats
  have books := accounted_run h maxIdle
  have hmisses := tally_le_length isMiss (ofSize size maxIdle) calls
  have hallocated : stats.allocated ≤ calls.length :=
    Nat.le_trans (Nat.le_of_eq books.allocated_eq_misses) hmisses
  have hstock : stats.allocated =
      stats.pooled + stats.outstanding + spills (ofSize size maxIdle) calls := books.allocated_eq
  omega

/-! ### Packets alive at once -/

/-- There is room for what is sent back if there is room for every buffer there is. -/
theorem Accounted.isSpill_eq_false (h : Accounted size maxIdle calls pool)
    (hstock : pool.allocated ≤ maxIdle) (hout : c.returns = true → 0 < alive calls) :
    pool.isSpill c = false := by
  have hallocated := h.allocated_eq
  rw [isSpill, Bool.and_eq_false_imp, decide_eq_false_iff_not, h.maxIdle_eq]
  intro hreturns
  have hpos := h.outstanding_eq ▸ hout hreturns
  omega

/-- If there is always room for what is sent back, nothing is let go, and a buffer is allocated only
when more packets are alive than ever before. -/
theorem isGreatest_allocated (h : Lawful size calls)
    (hroom : ∀ moment, moment <+: calls → alive moment ≤ maxIdle) :
    IsGreatest {n | ∃ moment, moment <+: calls ∧ alive moment = n}
      ((ofSize size maxIdle).run calls).allocated ∧ spills (ofSize size maxIdle) calls = 0 := by
  induction calls using List.reverseRecOn with
  | nil =>
      refine ⟨⟨⟨[], List.prefix_rfl, rfl⟩, ?_⟩, rfl⟩
      rintro n ⟨moment, hmoment, rfl⟩
      rw [List.prefix_nil.mp hmoment]
      exact Nat.le_refl _
  | append_singleton calls c ih =>
      have hprefix := List.prefix_append calls [c]
      have hearlier := h.of_isPrefix hprefix
      obtain ⟨⟨hattained, hgreatest⟩, hspills⟩ :=
        ih hearlier fun moment hmoment => hroom moment (hmoment.trans hprefix)
      have books := accounted_run hearlier maxIdle
      have hnow := accounted_run h maxIdle
      have hcalled := called_call ((ofSize size maxIdle).run calls) c
      have hspill := tally_concat isSpill (ofSize size maxIdle) calls c
      rw [run_concat] at hnow ⊢
      generalize (ofSize size maxIdle).run calls = pool at *
      -- Until now nothing was let go, so there is room for every buffer there is.
      have hstock : pool.allocated ≤ maxIdle := by
        obtain ⟨moment, hmoment, hattained⟩ := hattained
        exact hattained ▸ hroom moment (hmoment.trans hprefix)
      have hkept : pool.isSpill c = false := books.isSpill_eq_false hstock h.alive_pos
      have hnone : spills (ofSize size maxIdle) (calls ++ [c]) = 0 := by
        rw [spills, hspill, ← spills, hspills, hkept, Bool.toNat_false]
      have hfull := hnow.allocated_eq
      rw [hnone, Nat.add_zero, hnow.outstanding_eq] at hfull
      refine ⟨⟨?_, ?_⟩, hnone⟩
      · cases hmiss : pool.isMiss c with
        | false =>
            obtain ⟨moment, hmoment, hattained⟩ := hattained
            refine ⟨moment, hmoment.trans hprefix, ?_⟩
            rw [hattained, hcalled.allocated_eq, hmiss, Bool.toNat_false, Nat.add_zero]
        | true =>
            refine ⟨calls ++ [c], List.prefix_rfl, ?_⟩
            rw [hfull, hcalled.idle_of_miss hmiss, List.length_nil, Nat.zero_add]
      · rintro n ⟨moment, hmoment, rfl⟩
        obtain rfl | hmoment := List.prefix_concat_iff.mp hmoment
        · omega
        · have hle := hgreatest ⟨moment, hmoment, rfl⟩
          rw [hcalled.allocated_eq]
          omega

end Pool

end AudioIntake
