import AudioIntake.Double
import AudioIntake.Json.Basic

/-!
# Numbers too large for a double

A number that is no integer in range is still well-formed JSON if a double can hold it. Its digits
count up to the first 64 bits of them; the number is too large when that significand, rounded to 53
bits and scaled by its power of ten, likewise rounded, is beyond the largest double.
-/

namespace AudioIntake

namespace Numeral

/-- Takes digits for as long as the number fits 64 bits, and counts the digits left over. -/
def absorb (significand : Nat) : List Char → Nat × Nat
  | [] => (significand, 0)
  | c :: cs =>
    let next := 10 * significand + (c.toNat - 48)
    if next < 18446744073709551616 then absorb next cs else (significand, cs.length + 1)

def scaled (n : Numeral) : Nat × Int :=
  let (significand, dropped) := absorb 0 n.whole
  let fraction := n.fraction.getD []
  let (significand, ignored) := absorb significand fraction
  let shift : Int := dropped - (fraction.length - ignored : Nat)
  let exponent : Int :=
    match n.exponent with
    | none => 0
    | some (true, ds) => -(ofDigits ds : Int)
    | some (false, ds) => ofDigits ds
  (significand, shift + exponent)

/-- The products from here on round to no double. -/
def doubleBound : Nat := (1 <<< 1024) - (1 <<< 970)

def overflows (n : Numeral) : Bool :=
  let (significand, exponent) := n.scaled
  if significand = 0 ∨ exponent < 0 then false
  else if 308 < exponent then true
  else doubleBound ≤ Double.round significand * Double.round (Nat.pow 10 exponent.toNat)

end Numeral

end AudioIntake
