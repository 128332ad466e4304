import AudioIntake.Buffer.Packet
import AudioIntake.Wire.ControlMessage

/-!
# Sample datagrams

What a sender would send, generated from the sequence number alone, so that what is delivered can
be checked against what was sent.
-/

namespace AudioIntake

namespace Sample

def ssrc : UInt32 := 0x5EEDCAFE

def framesPerPacket : Nat := 352

def rotateLeft (b : UInt8) (k : Nat) : UInt8 :=
  let shifted := b.toNat <<< k
  UInt8.ofNat (shifted + shifted / 256)

/-- Thirty-two octets that differ from number to number. -/
def payload (seqno : SeqNo) : Octets :=
  let high := UInt8.ofNat (seqno.val / 256)
  let low := UInt8.ofNat seqno.val
  (List.range 32).map fun i => UInt8.ofNat i ^^^ high ^^^ rotateLeft low (i % 8)

def audio (seqno : SeqNo) (payload : Octets) : Octets :=
  (Header.ofAudio seqno (UInt32.ofNat (seqno.val * framesPerPacket)) ssrc).encode ++ payload

def recovery (seqno : SeqNo) (payload : Octets) : Octets :=
  [0x80, 0x80 + PayloadType.retransmitResponse.code, 0x00, 0x00] ++ audio seqno payload

def declined (seqno : SeqNo) : Octets :=
  [0x80, 0x80 + PayloadType.retransmitResponse.code] ++ Octets.ofValue 2 ControlMessage.statusDeclined
    ++ seqno.octets ++ [0x00, 0x00]

def sync (rtpTimestamp : UInt32) (ntpTimestamp : UInt64) (nextTimestamp : UInt32) : Octets :=
  [0x90, 0x80 + PayloadType.sync.code, 0x00, 0x07] ++ Octets.ofValue 4 rtpTimestamp.toNat
    ++ Octets.ofValue 8 ntpTimestamp.toNat ++ Octets.ofValue 4 nextTimestamp.toNat

def packet (seqno : SeqNo) (retransmitted : Bool) : Packet :=
  .ofOctets seqno (audio seqno (payload seqno)) retransmitted

end Sample

end AudioIntake
