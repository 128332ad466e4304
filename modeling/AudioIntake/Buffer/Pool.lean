import AudioIntake.Buffer.Packet

/-!
# Buffer pools

A pool lends out datagram buffers and takes them back, so that steady streaming allocates nothing.
The buffer returned last is lent first. Only so many idle buffers are kept.
-/

namespace AudioIntake

structure PoolStats where
  allocated : Nat
  pooled : Nat
  outstanding : Nat
deriving DecidableEq

structure Pool where
  bufferSize : Nat
  maxIdle : Nat
  /-- Idle buffers, the last returned first. -/
  idle : List Octets
  allocated : Nat
  outstanding : Nat
deriving DecidableEq

namespace Pool

/-- The largest datagram a pool makes room for unless told otherwise. -/
def defaultBufferSize : Nat := 1800

def defaultMaxIdle : Nat := 512

def ofSize (bufferSize maxIdle : Nat) : Pool :=
  { bufferSize, maxIdle, idle := [], allocated := 0, outstanding := 0 }

def stats (pool : Pool) : PoolStats :=
  { allocated := pool.allocated, pooled := pool.idle.length, outstanding := pool.outstanding }

def acquire (pool : Pool) : Packet × Pool :=
  match pool.idle with
  | buffer :: rest =>
    (.lend buffer, { pool with idle := rest, outstanding := pool.outstanding + 1 })
  | [] =>
    (.lend (List.replicate pool.bufferSize 0),
      { pool with allocated := pool.allocated + 1, outstanding := pool.outstanding + 1 })

def reclaim (pool : Pool) (buffer : Octets) : Pool :=
  if pool.idle.length < pool.maxIdle then
    { pool with idle := buffer :: pool.idle, outstanding := pool.outstanding - 1 }
  else { pool with outstanding := pool.outstanding - 1 }

/-- The packet is no longer needed. A packet with a buffer of its own leaves the pool as it is. -/
def release (pool : Pool) (p : Packet) : Pool := if p.pooled then pool.reclaim p.buffer else pool

def releaseAll (pool : Pool) (ps : List Packet) : Pool := ps.foldl release pool

def describe (pool : Pool) : String :=
  s!"PacketArena \x7b buffer_size: {pool.bufferSize}, stats: ArenaStats \x7b "
    ++ s!"allocated: {pool.allocated}, pooled: {pool.idle.length}, "
    ++ s!"outstanding: {pool.outstanding} \x7d \x7d"

end Pool

end AudioIntake
