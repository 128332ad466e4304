import AudioIntake.Wire.Rerequest

/-!
# Control messages

What arrives on the control channel. A reply to a rerequest either carries the lost audio datagram
behind four octets of its own, or declines with status 1; the status stands where other datagrams
keep their sequence number.
-/

namespace AudioIntake

inductive ControlMessage where
  /-- Clock information from the sender. -/
  | sync (rtpTimestamp : UInt32) (ntpTimestamp : UInt64) (nextTimestamp : UInt32)
  /-- A rerequest, which a sender has no reason to send. -/
  | rerequest (request : Rerequest)
  /-- A reply that carries a lost audio datagram. -/
  | recovered (status : UInt16) (seqno : SeqNo)
  /-- A reply that says the packet will not be sent again. -/
  | declined (seqno : SeqNo)
deriving DecidableEq

namespace ControlMessage

/-- Octets in front of the audio datagram in a reply. -/
def recoveryOffset : Nat := 4

def statusDeclined : Nat := 1

def decodeSync (bs : Octets) : Except DecodeError ControlMessage :=
  if h : bs.length < 20 then .error (.bufferTooSmall 20 bs.length)
  else
    .ok (.sync (UInt32.ofNat (bs.field 4 4 (by omega))) (UInt64.ofNat (bs.field 8 8 (by omega)))
      (UInt32.ofNat (bs.field 16 4 (by omega))))

/-- A reply with status 1 declines; any other carries an audio datagram. -/
def decodeReply (bs : Octets) (inside : 4 ≤ bs.length) : Except DecodeError ControlMessage :=
  let status := bs.field 2 2 inside
  if status = statusDeclined then
    if h : bs.length < 6 then .error (.bufferTooSmall 6 bs.length)
    else .ok (.declined (SeqNo.field bs 4 (by omega)))
  else if h : bs.length < 16 then .error (.bufferTooSmall 16 bs.length)
  else .ok (.recovered (UInt16.ofNat status) (SeqNo.field bs 6 (by omega)))

def decode (bs : Octets) : Except DecodeError ControlMessage :=
  if h : bs.length < 4 then .error (.bufferTooSmall 4 bs.length)
  else
    match PayloadType.ofOctet? bs[1] with
    | some .sync => decodeSync bs
    | some .retransmitRequest =>
      match Rerequest.decode bs with
      | .error e => .error e
      | .ok (_, request) => .ok (.rerequest request)
    | some .retransmitResponse => decodeReply bs (Nat.le_of_not_lt h)
    | _ => .error (.unknownPayloadType (bs[1] % 128))

end ControlMessage

end AudioIntake
