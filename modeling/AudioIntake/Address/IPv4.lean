import AudioIntake.Address.Number

/-!
# IPv4 addresses

Four decimal numbers below 256, without leading zeros and with dots between them.
-/

namespace AudioIntake

structure IPv4 where
  a : UInt8
  b : UInt8
  c : UInt8
  d : UInt8
deriving DecidableEq

namespace IPv4

open Address

def unspecified : IPv4 := ⟨0, 0, 0, 0⟩

def octetFormat : NumberFormat :=
  { base := 10, maxDigits := some 3, leadingZeros := false, bound := 256 }

def read (cs : List Char) : Option (IPv4 × List Char) := do
  let (a, cs) ← readNumber octetFormat cs
  let cs ← readChar '.' cs
  let (b, cs) ← readNumber octetFormat cs
  let cs ← readChar '.' cs
  let (c, cs) ← readNumber octetFormat cs
  let cs ← readChar '.' cs
  let (d, cs) ← readNumber octetFormat cs
  return (⟨UInt8.ofNat a, UInt8.ofNat b, UInt8.ofNat c, UInt8.ofNat d⟩, cs)

def chars (ip : IPv4) : List Char :=
  Nat.toDigits 10 ip.a.toNat ++ '.' :: Nat.toDigits 10 ip.b.toNat
    ++ '.' :: Nat.toDigits 10 ip.c.toNat ++ '.' :: Nat.toDigits 10 ip.d.toNat

def groups (ip : IPv4) : List UInt16 :=
  [ip.a.toUInt16 * 256 + ip.b.toUInt16, ip.c.toUInt16 * 256 + ip.d.toUInt16]

end IPv4

end AudioIntake
