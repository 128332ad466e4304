/-!
# Octets

Datagrams are lists of octets. Numbers on the wire are big-endian: `Octets.value` reads one and
`Octets.ofValue` writes one, and `Octets.field` reads the octets of a datagram that lie inside it.
-/

namespace AudioIntake

abbrev Octets := List UInt8

namespace Octets

/-- The number whose base-256 digits are the octets, highest first. -/
def value (bs : Octets) : Nat := bs.foldl (fun n b => 256 * n + b.toNat) 0

/-- The lowest `width` base-256 digits of a number, highest first. -/
def ofValue : Nat → Nat → Octets
  | 0, _ => []
  | width + 1, n => ofValue width (n / 256) ++ [UInt8.ofNat n]

/-- The number in the `width` octets from `offset` on. Only octets inside the datagram are read. -/
def field (bs : Octets) (offset width : Nat) (_inside : offset + width ≤ bs.length) : Nat :=
  value ((bs.drop offset).take width)

@[simp] theorem length_ofValue (width n : Nat) : (ofValue width n).length = width := by
  induction width generalizing n with
  | zero => rfl
  | succ width ih => simp [ofValue, ih]

theorem value_append_singleton (bs : Octets) (b : UInt8) :
    value (bs ++ [b]) = 256 * value bs + b.toNat := by
  simp [value]

/-! ### Hexadecimal text -/

def hexDigit (n : Nat) : Char :=
  if n < 10 then Char.ofNat (48 + n) else Char.ofNat (87 + n)

def ofHexDigit? (c : Char) : Option Nat :=
  if '0' ≤ c ∧ c ≤ '9' then some (c.toNat - 48)
  else if 'a' ≤ c ∧ c ≤ 'f' then some (c.toNat - 87)
  else if 'A' ≤ c ∧ c ≤ 'F' then some (c.toNat - 55)
  else none

def hexPair (b : UInt8) : List Char := [hexDigit (b.toNat / 16), hexDigit (b.toNat % 16)]

def toHex (bs : Octets) : String := String.ofList (bs.flatMap hexPair)

/-- The octets that pairs of hexadecimal digits stand for, if the text consists of such pairs. -/
def ofHexChars? : List Char → Option Octets
  | [] => some []
  | [_] => none
  | a :: b :: rest =>
    match ofHexDigit? a, ofHexDigit? b, ofHexChars? rest with
    | some high, some low, some bs => some (UInt8.ofNat (16 * high + low) :: bs)
    | _, _, _ => none

def ofHex? (text : String) : Option Octets := ofHexChars? text.toList

end Octets

end AudioIntake
