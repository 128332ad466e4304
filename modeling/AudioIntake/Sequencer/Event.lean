import AudioIntake.Buffer.Packet
import AudioIntake.Wire.Rerequest

/-!
# What a sequencer does

Every decision of a sequencer is an event. The events of a step, in order, are all there is to see
of it from outside; packets that leave it without being delivered are released.
-/

namespace AudioIntake

/-- What becomes of a packet that is handed in. -/
inductive Disposition where
  | delivered
  /-- It is early and is kept until the gap in front of it closes. -/
  | held
  | stale
  | duplicate
  /-- A late reply to a rerequest, before the stream has begun. -/
  | notStarted
  | closed
deriving DecidableEq

namespace Disposition

def name : Disposition → String
  | delivered => "Delivered"
  | held => "Held"
  | stale => "Stale"
  | duplicate => "Duplicate"
  | notStarted => "NotStarted"
  | closed => "Closed"

end Disposition

inductive Event where
  | input (seqno : SeqNo) (retransmitted : Bool) (disposition : Disposition)
  | output (packet : Packet)
  /-- A run of missing packets is asked for, for the `level`-th tick it is missing. -/
  | rerequest (request : Rerequest) (level : Nat)
  | evict (first : SeqNo) (count : Nat)
  | flush
deriving DecidableEq

namespace Event

def line : Event → String
  | input seqno retransmitted disposition =>
    s!"TRACE sequencer input seqno={seqno.val} retransmitted={retransmitted} "
      ++ s!"disposition={disposition.name}"
  | output packet => s!"TRACE sequencer output seqno={packet.seqno.val}"
  | rerequest request level =>
    s!"DEBUG Rerequest {request.first.val}..{request.last.val} "
      ++ s!"({request.count.toNat} packets), retry level {level}"
  | evict first count =>
    s!"DEBUG Giving up on {first.val}..{(first.lastOf count).val} ({count} packets)"
  | flush => "DEBUG Sequencer flushed"

def delivery? : Event → Option Packet
  | output packet => some packet
  | _ => none

end Event

@[ext] structure Report where
  events : List Event
  requests : List Rerequest
  released : List Packet

namespace Report

def empty : Report := { events := [], requests := [], released := [] }

def append (a b : Report) : Report :=
  { events := a.events ++ b.events
    requests := a.requests ++ b.requests
    released := a.released ++ b.released }

instance : Append Report := ⟨append⟩

def join (rs : List Report) : Report :=
  { events := rs.flatMap events
    requests := rs.flatMap requests
    released := rs.flatMap released }

def delivered (r : Report) : List Packet := r.events.filterMap Event.delivery?

@[simp] theorem append_events (a b : Report) : (a ++ b).events = a.events ++ b.events := rfl

@[simp] theorem append_requests (a b : Report) : (a ++ b).requests = a.requests ++ b.requests := rfl

@[simp] theorem append_released (a b : Report) : (a ++ b).released = a.released ++ b.released := rfl

@[simp] theorem delivered_append (a b : Report) :
    (a ++ b).delivered = a.delivered ++ b.delivered := by
  simp [delivered]

@[simp] theorem empty_append (a : Report) : empty ++ a = a := rfl

@[simp] theorem append_empty (a : Report) : a ++ empty = a :=
  Report.ext (List.append_nil _) (List.append_nil _) (List.append_nil _)

theorem join_cons (r : Report) (rs : List Report) : join (r :: rs) = r ++ join rs := rfl

theorem append_assoc (a b c : Report) : a ++ b ++ c = a ++ (b ++ c) :=
  Report.ext (List.append_assoc _ _ _) (List.append_assoc _ _ _) (List.append_assoc _ _ _)

end Report

end AudioIntake
