import AudioIntake.Octets

/-!
# Why a datagram is refused
-/

namespace AudioIntake

inductive DecodeError where
  | bufferTooSmall (needed available : Nat)
  | invalidVersion (version : UInt8)
  | unknownPayloadType (code : UInt8)
deriving DecidableEq

namespace DecodeError

def message : DecodeError → String
  | bufferTooSmall needed available => s!"buffer too small: need {needed} bytes, have {available}"
  | invalidVersion version => s!"invalid RTP version: {version.toNat}"
  | unknownPayloadType code => s!"unknown payload type: 0x{Octets.toHex [code]}"

end DecodeError

end AudioIntake
