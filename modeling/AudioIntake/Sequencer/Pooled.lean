import AudioIntake.Buffer.Pool
import AudioIntake.Sequencer.Basic

/-!
# A sequencer and its pool

Packets that a sequencer takes in come from a pool and go back to it as soon as they are delivered
or released.
-/

namespace AudioIntake

structure PooledSequencer where
  pool : Pool
  sequencer : Sequencer

namespace PooledSequencer

inductive Step where
  | handle (seqno : SeqNo) (retransmitted : Bool) (content : Octets)
  | discard (seqno : SeqNo) (retransmitted : Bool) (content : Octets)
  | tick
  | flush
  | close

def ofLadder (pool : Pool) (ladder : Ladder) : PooledSequencer :=
  { pool, sequencer := .ofLadder ladder }

def lend (pool : Pool) (seqno : SeqNo) (retransmitted : Bool) (content : Octets) : Packet × Pool :=
  let (p, pool) := pool.acquire
  (((p.receive content).setSeqno seqno).setRetransmitted retransmitted, pool)

/-- Whatever leaves the sequencer goes back to the pool. -/
def collect (pool : Pool) (r : Report) : Pool :=
  (pool.releaseAll r.delivered).releaseAll r.released

def call (s : PooledSequencer) (c : Sequencer.Call) : PooledSequencer × Report :=
  let (sequencer, r) := s.sequencer.call c
  ({ pool := collect s.pool r, sequencer }, r)

def step (s : PooledSequencer) : Step → PooledSequencer × Report
  | .handle seqno retransmitted content =>
    let (p, pool) := lend s.pool seqno retransmitted content
    { s with pool }.call (.handle p)
  | .discard seqno retransmitted content =>
    let (p, pool) := lend s.pool seqno retransmitted content
    { s with pool }.call (.discard p)
  | .tick => s.call .tick
  | .flush => s.call .flush
  | .close => s.call .close

def replay (s : PooledSequencer) (steps : List Step) : PooledSequencer × List Report :=
  let (s, reports) := steps.foldl
    (fun (s, reports) step =>
      let (s, r) := s.step step
      (s, r :: reports))
    (s, [])
  (s, reports.reverse)

def dismantle (s : PooledSequencer) : Pool := s.pool.releaseAll s.sequencer.held.values

end PooledSequencer

end AudioIntake
