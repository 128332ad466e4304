/-!
# Double precision

Natural numbers, and quotients of them, rounded to the 53 significant bits of a double. Ties go to
the even neighbour. All is exact arithmetic on natural numbers.
-/

namespace AudioIntake

namespace Double

/-- Rounds to 53 significant bits, ties to even. -/
def round (n : Nat) : Nat :=
  let extra := n.log2 + 1 - 53
  let unit := 1 <<< extra
  let quotient := n / unit
  let twice := 2 * (n % unit)
  let up := unit < twice ∨ (twice = unit ∧ quotient % 2 = 1)
  (if up then quotient + 1 else quotient) * unit

/-- The places behind the binary point in which quotients are counted. -/
def places : Nat := 65

/-- The quotient `n / d`, rounded, in units of its last place. The last bit stands for the whole
remainder, so that only a true tie is a tie. That takes a quotient of 2^-11 or more. -/
def quotient (n d : Nat) : Nat :=
  let scaled := n <<< (places - 1)
  round (2 * (scaled / d) + (if scaled % d = 0 then 0 else 1))

/-- The nearest whole number to a number of units. A half goes up. -/
def toNearest (units : Nat) : Nat := (units + (1 <<< (places - 1))) >>> places

end Double

end AudioIntake
