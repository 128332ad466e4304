import AudioIntake.Address.IPv6

/-!
# Addresses of either family, and endpoints

An endpoint is an address with a port. An IPv6 endpoint is written in brackets and may name the
scope of its address.
-/

namespace AudioIntake

inductive IPAddress where
  | v4 (address : IPv4)
  | v6 (address : IPv6)
deriving DecidableEq

namespace IPAddress

def read (cs : List Char) : Option (IPAddress × List Char) :=
  match IPv4.read cs with
  | some (ip, rest) => some (.v4 ip, rest)
  | none => (IPv6.read cs).map fun (ip, rest) => (.v6 ip, rest)

def chars : IPAddress → List Char
  | .v4 ip => ip.chars
  | .v6 ip => ip.chars

end IPAddress

inductive Endpoint where
  | v4 (address : IPv4) (port : UInt16)
  | v6 (address : IPv6) (scope : UInt32) (port : UInt16)
deriving DecidableEq

namespace Endpoint

open Address

def portFormat : NumberFormat :=
  { base := 10, maxDigits := none, leadingZeros := true, bound := 65536 }

def scopeFormat : NumberFormat :=
  { base := 10, maxDigits := none, leadingZeros := true, bound := 4294967296 }

def readPort (cs : List Char) : Option (UInt16 × List Char) := do
  let cs ← readChar ':' cs
  let (port, cs) ← readNumber portFormat cs
  return (UInt16.ofNat port, cs)

def readV4 (cs : List Char) : Option (Endpoint × List Char) := do
  let (ip, cs) ← IPv4.read cs
  let (port, cs) ← readPort cs
  return (.v4 ip port, cs)

/-- The scope behind an address. A text without one has scope 0. -/
def readScope (cs : List Char) : Nat × List Char :=
  match readChar '%' cs >>= readNumber scopeFormat with
  | some (scope, rest) => (scope, rest)
  | none => (0, cs)

def readV6 (cs : List Char) : Option (Endpoint × List Char) := do
  let cs ← readChar '[' cs
  let (ip, cs) ← IPv6.read cs
  let (scope, cs) := readScope cs
  let cs ← readChar ']' cs
  let (port, cs) ← readPort cs
  return (.v6 ip (UInt32.ofNat scope) port, cs)

def read (cs : List Char) : Option (Endpoint × List Char) :=
  match readV4 cs with
  | some r => some r
  | none => readV6 cs

def chars : Endpoint → List Char
  | .v4 ip port => ip.chars ++ ':' :: Nat.toDigits 10 port.toNat
  | .v6 ip scope port =>
    '[' :: ip.chars ++ (if scope = 0 then [] else '%' :: Nat.toDigits 10 scope.toNat)
      ++ [']', ':'] ++ Nat.toDigits 10 port.toNat

end Endpoint

/-- What a reader makes of a whole text. -/
def Address.ofText? {α : Type} (read : List Char → Option (α × List Char)) (text : String) :
    Option α :=
  match read text.toList with
  | some (a, []) => some a
  | _ => none

namespace IPAddress

def ofText? (text : String) : Option IPAddress := Address.ofText? read text

def text (ip : IPAddress) : String := String.ofList ip.chars

end IPAddress

namespace Endpoint

def ofText? (text : String) : Option Endpoint := Address.ofText? read text

def text (e : Endpoint) : String := String.ofList e.chars

end Endpoint

end AudioIntake
