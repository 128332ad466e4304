/-!
# Numbers inside addresses

The groups of an address are short runs of digits. A reader takes all digits it finds and fails when
there are none or too many, when the number is too large, or when a zero stands in front of it where
that is not allowed.
-/

namespace AudioIntake

namespace Address

def digit? (base : Nat) (c : Char) : Option Nat :=
  let n :=
    if '0' ≤ c ∧ c ≤ '9' then c.toNat - 48
    else if 'a' ≤ c ∧ c ≤ 'f' then c.toNat - 87
    else if 'A' ≤ c ∧ c ≤ 'F' then c.toNat - 55
    else 16
  if n < base then some n else none

def isDigit (base : Nat) (c : Char) : Bool := (digit? base c).isSome

def ofDigits (base : Nat) (digits : List Char) : Nat :=
  digits.foldl (fun n c => base * n + (digit? base c).getD 0) 0

structure NumberFormat where
  base : Nat
  maxDigits : Option Nat
  leadingZeros : Bool
  /-- The first number that is too large. -/
  bound : Nat

def NumberFormat.allows (f : NumberFormat) (digits : List Char) : Bool :=
  !digits.isEmpty
    && (match f.maxDigits with
        | none => true
        | some n => digits.length ≤ n)
    && (f.leadingZeros || digits.length ≤ 1 || digits.head? != some '0')
    && ofDigits f.base digits < f.bound

def readNumber (f : NumberFormat) (cs : List Char) : Option (Nat × List Char) :=
  let digits := cs.takeWhile (isDigit f.base)
  if f.allows digits then some (ofDigits f.base digits, cs.dropWhile (isDigit f.base)) else none

def readChar (wanted : Char) (cs : List Char) : Option (List Char) :=
  match cs with
  | c :: rest => if c = wanted then some rest else none
  | [] => none

end Address

end AudioIntake
