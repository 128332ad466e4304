import AudioIntake.Octets

/-!
# Payload types

The second octet of a datagram holds the marker in its top bit and the payload type in the seven
bits below it. Six types are in use on the data, control and timing channels.
-/

namespace AudioIntake

inductive PayloadType where
  | timingRequest
  | timingResponse
  | sync
  | retransmitRequest
  | retransmitResponse
  | audio
deriving DecidableEq

namespace PayloadType

/-- The seven-bit code on the wire. -/
def code : PayloadType → UInt8
  | timingRequest => 0x52
  | timingResponse => 0x53
  | sync => 0x54
  | retransmitRequest => 0x55
  | retransmitResponse => 0x56
  | audio => 0x60

/-- The type an octet names, whatever its marker bit. -/
def ofOctet? (b : UInt8) : Option PayloadType :=
  match (b % 128).toNat with
  | 0x52 => some timingRequest
  | 0x53 => some timingResponse
  | 0x54 => some sync
  | 0x55 => some retransmitRequest
  | 0x56 => some retransmitResponse
  | 0x60 => some audio
  | _ => none

@[simp] theorem ofOctet?_code (t : PayloadType) : ofOctet? t.code = some t := by
  cases t <;> rfl

end PayloadType

/-- The raw payload type code of a datagram: the low seven bits of its second octet. -/
def Octets.payloadCode? (bs : Octets) : Option UInt8 := bs[1]?.map (· % 128)

end AudioIntake
