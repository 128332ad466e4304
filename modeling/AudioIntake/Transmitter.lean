import AudioIntake.Wire.Rerequest

/-!
# Sending rerequests

A transmitter stamps every rerequest with a counter that starts at 1 and wraps from 65535 to 0. The
counter advances whether or not the datagram can be sent.
-/

namespace AudioIntake

structure Transmitter where
  stamp : UInt16
deriving DecidableEq

namespace Transmitter

def start : Transmitter := { stamp := 1 }

def encode (t : Transmitter) (r : Rerequest) : Octets × Transmitter :=
  (r.encode t.stamp, { stamp := t.stamp + 1 })

def encodeAll (t : Transmitter) (rs : List Rerequest) : List Octets × Transmitter :=
  let (sent, t) := rs.foldl (fun (sent, t) r => let (d, t) := encode t r; (d :: sent, t)) ([], t)
  (sent.reverse, t)

end Transmitter

end AudioIntake
