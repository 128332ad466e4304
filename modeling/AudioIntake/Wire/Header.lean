import AudioIntake.SeqNo
import AudioIntake.Wire.DecodeError
import AudioIntake.Wire.PayloadType

/-!
# RTP headers

Twelve octets in front of every audio packet: version 2 without padding, extension or contributing
sources, then marker and payload type, sequence number, timestamp and source. Reading ignores the
low six bits of the first octet, so writing what was read gives the same octets except that one.
-/

namespace AudioIntake

namespace SeqNo

def octets (s : SeqNo) : Octets := Octets.ofValue 2 s.val

def field (bs : Octets) (offset : Nat) (inside : offset + 2 ≤ bs.length) : SeqNo :=
  ofNat (bs.field offset 2 inside)

def store? (s : SeqNo) (buffer : Octets) : Option Octets :=
  if 2 ≤ buffer.length then some (s.octets ++ buffer.drop 2) else none

def load? (buffer : Octets) : Option SeqNo :=
  if h : 2 ≤ buffer.length then some (field buffer 0 (by omega)) else none

@[simp] theorem length_octets (s : SeqNo) : s.octets.length = 2 := Octets.length_ofValue 2 s.val

end SeqNo

structure Header where
  marker : Bool
  payloadType : PayloadType
  sequence : SeqNo
  timestamp : UInt32
  ssrc : UInt32
deriving DecidableEq

namespace Header

def size : Nat := 12

def ofAudio (sequence : SeqNo) (timestamp ssrc : UInt32) : Header :=
  { marker := false, payloadType := .audio, sequence, timestamp, ssrc }

def encode (h : Header) : Octets :=
  [0x80, (if h.marker then 0x80 else 0) + h.payloadType.code] ++ h.sequence.octets
    ++ Octets.ofValue 4 h.timestamp.toNat ++ Octets.ofValue 4 h.ssrc.toNat

def decode (bs : Octets) : Except DecodeError Header :=
  if h : bs.length < 12 then .error (.bufferTooSmall 12 bs.length)
  else
    let version := bs[0] / 64
    if version ≠ 2 then .error (.invalidVersion version)
    else
      match PayloadType.ofOctet? bs[1] with
      | none => .error (.unknownPayloadType (bs[1] % 128))
      | some payloadType =>
        .ok { marker := bs[1] / 128 ≠ 0
              payloadType
              sequence := SeqNo.field bs 2 (by omega)
              timestamp := UInt32.ofNat (bs.field 4 4 (by omega))
              ssrc := UInt32.ofNat (bs.field 8 4 (by omega)) }

@[simp] theorem length_encode (h : Header) : h.encode.length = 12 := by
  simp [encode]

end Header

end AudioIntake
