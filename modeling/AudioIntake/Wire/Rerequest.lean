import AudioIntake.Wire.Header

/-!
# Rerequests

A rerequest asks the sender to send a run of lost packets again. It travels in eight octets, whose
own sequence field counts the rerequests sent so far.
-/

namespace AudioIntake

structure Rerequest where
  first : SeqNo
  count : UInt16
deriving DecidableEq

namespace Rerequest

def size : Nat := 8

def last (r : Rerequest) : SeqNo := r.first.lastOf r.count.toNat

/-- The datagram for a rerequest, stamped with the transmitter's counter. -/
def encode (r : Rerequest) (stamp : UInt16) : Octets :=
  [0x80, 0x80 + PayloadType.retransmitRequest.code] ++ Octets.ofValue 2 stamp.toNat
    ++ r.first.octets ++ Octets.ofValue 2 r.count.toNat

def decode (bs : Octets) : Except DecodeError (UInt16 × Rerequest) :=
  if h : bs.length < 8 then .error (.bufferTooSmall 8 bs.length)
  else
    let code := bs[1] % 128
    if code ≠ PayloadType.retransmitRequest.code then .error (.unknownPayloadType code)
    else
      .ok (UInt16.ofNat (bs.field 2 2 (by omega)),
        { first := SeqNo.field bs 4 (by omega)
          count := UInt16.ofNat (bs.field 6 2 (by omega)) })

def describe (r : Rerequest) : String :=
  s!"RetransmitRequest \x7b first: SeqNo({r.first.val}), count: {r.count.toNat} \x7d"

@[simp] theorem length_encode (r : Rerequest) (stamp : UInt16) : (r.encode stamp).length = 8 := by
  simp [encode]

end Rerequest

end AudioIntake
