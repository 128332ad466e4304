import AudioIntake.Wire.Header

/-!
# Packets

A packet is a datagram buffer on loan together with the part of it that counts as content. Buffers
are used again and again with their old octets still in them; what a packet shows is the window
from `start` to `stop`, and every operation keeps that window inside the buffer.
-/

namespace AudioIntake

structure Packet where
  seqno : SeqNo
  retransmitted : Bool
  buffer : Octets
  start : Nat
  stop : Nat
  /-- Whether the buffer goes back to a pool when the packet is released. -/
  pooled : Bool
deriving DecidableEq

namespace Packet

/-- A packet with a buffer of its own. -/
def ofOctets (seqno : SeqNo) (data : Octets) (retransmitted : Bool) : Packet :=
  { seqno, retransmitted, buffer := data, start := 0, stop := data.length, pooled := false }

/-- A packet over a buffer of a pool, with nothing in it yet. -/
def lend (buffer : Octets) : Packet :=
  { seqno := SeqNo.ofNat 0, retransmitted := false, buffer, start := 0, stop := 0, pooled := true }

def content (p : Packet) : Octets := (p.buffer.take p.stop).drop p.start

def payload (p : Packet) : Octets := p.content.drop Header.size

def length (p : Packet) : Nat := p.stop - p.start

def payloadCode? (p : Packet) : Option UInt8 := p.content.payloadCode?

def setSeqno (p : Packet) (seqno : SeqNo) : Packet := { p with seqno }

def setRetransmitted (p : Packet) (retransmitted : Bool) : Packet := { p with retransmitted }

/-- Writes over the front of the buffer, as much as fits. The content is empty until its length is
set. -/
def overwrite (p : Packet) (data : Octets) : Packet :=
  { p with
    buffer := data.take p.buffer.length ++ p.buffer.drop data.length
    start := 0
    stop := 0 }

def setLength (p : Packet) (n : Nat) : Packet :=
  { p with start := 0, stop := min n p.buffer.length }

def dropFront (p : Packet) (n : Nat) : Packet := { p with start := min (p.start + n) p.stop }

/-- A datagram has arrived: as much of it as fits becomes the content. -/
def receive (p : Packet) (data : Octets) : Packet :=
  (p.overwrite data).setLength (min data.length p.buffer.length)

def describe (p : Packet) : String :=
  s!"Packet \x7b seqno: SeqNo({p.seqno.val}), retransmitted: {p.retransmitted}, "
    ++ s!"len: {p.length}, .. \x7d"

/-- The window lies inside the buffer. -/
structure Framed (p : Packet) : Prop where
  start_le_stop : p.start ≤ p.stop
  stop_le_length : p.stop ≤ p.buffer.length

@[simp] theorem length_buffer_overwrite (p : Packet) (data : Octets) :
    (p.overwrite data).buffer.length = p.buffer.length := by
  simp only [overwrite, List.length_append, List.length_take, List.length_drop]
  omega

theorem length_content {p : Packet} (h : p.Framed) : p.content.length = p.length := by
  have := h.stop_le_length
  simp only [content, length, List.length_drop, List.length_take]
  omega

end Packet

end AudioIntake
