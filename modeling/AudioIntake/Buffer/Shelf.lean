import AudioIntake.Buffer.Pool

/-!
# Packets in numbered slots

A shelf keeps live packets in slots beside the pool they come from. Putting a packet into a slot
releases the one that was there, after the new one has been acquired.
-/

namespace AudioIntake

structure Shelf where
  pool : Pool
  slots : Std.ExtTreeMap Nat Packet

namespace Shelf

inductive Action where
  | acquire (slot : Nat)
  /-- A packet with a buffer of its own. -/
  | adopt (slot : Nat) (seqno : SeqNo) (data : Octets) (retransmitted : Bool)
  | overwrite (slot : Nat) (data : Octets)
  | setLength (slot n : Nat)
  | dropFront (slot n : Nat)
  | setSeqno (slot : Nat) (seqno : SeqNo)
  | setRetransmitted (slot : Nat) (retransmitted : Bool)
  | release (slot : Nat)
  | releaseAll

def ofPool (pool : Pool) : Shelf := { pool, slots := ∅ }

def packet? (shelf : Shelf) (slot : Nat) : Option Packet := shelf.slots[slot]?

def put (shelf : Shelf) (slot : Nat) (p : Packet) : Shelf :=
  { pool := match shelf.slots[slot]? with
      | some old => shelf.pool.release old
      | none => shelf.pool
    slots := shelf.slots.insert slot p }

def modify (shelf : Shelf) (slot : Nat) (f : Packet → Packet) : Shelf :=
  { shelf with slots := shelf.slots.modify slot f }

def release (shelf : Shelf) (slot : Nat) : Shelf :=
  match shelf.slots[slot]? with
  | some p => { pool := shelf.pool.release p, slots := shelf.slots.erase slot }
  | none => shelf

def releaseAll (shelf : Shelf) : Shelf :=
  { pool := shelf.pool.releaseAll shelf.slots.values, slots := ∅ }

def act (shelf : Shelf) : Action → Shelf
  | .acquire slot =>
    let (p, pool) := shelf.pool.acquire
    { shelf with pool }.put slot p
  | .adopt slot seqno data retransmitted => shelf.put slot (.ofOctets seqno data retransmitted)
  | .overwrite slot data => shelf.modify slot (·.overwrite data)
  | .setLength slot n => shelf.modify slot (·.setLength n)
  | .dropFront slot n => shelf.modify slot (·.dropFront n)
  | .setSeqno slot seqno => shelf.modify slot (·.setSeqno seqno)
  | .setRetransmitted slot retransmitted => shelf.modify slot (·.setRetransmitted retransmitted)
  | .release slot => shelf.release slot
  | .releaseAll => shelf.releaseAll

def run (shelf : Shelf) (actions : List Action) : Shelf := actions.foldl act shelf

end Shelf

end AudioIntake
