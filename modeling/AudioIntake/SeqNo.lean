import Std.Data.ExtTreeMap

/-!
# Sequence numbers

Packets carry a 16-bit number that wraps from 65535 to 0. Which of two numbers is ahead is decided
by `SeqNo.delta`: two numbers on either side of the wrap are close when both lie within the guard
band around it, and all other pairs are compared as plain numbers.
-/

namespace AudioIntake

/-- A position in the stream, counted modulo 65536. -/
structure SeqNo where
  val : Nat
  val_lt : val < 65536
deriving DecidableEq

namespace SeqNo

def ofNat (n : Nat) : SeqNo := ⟨n % 65536, Nat.mod_lt _ (by decide)⟩

instance : Inhabited SeqNo := ⟨ofNat 0⟩

instance : HAdd SeqNo Nat SeqNo := ⟨fun s n => ofNat (s.val + n)⟩

def next (s : SeqNo) : SeqNo := s + 1

/-- Width of the band on either side of the wrap in which numbers count as neighbours. -/
def guard : Nat := 8192

/-- Signed distance from `b` to `a`: positive when `a` is ahead. Inside the guard band around the
wrap the small number has wrapped past the large one; elsewhere the distance is the difference. -/
def delta (a b : SeqNo) : Int :=
  if a.val < guard ∧ 65536 - guard < b.val then (a.val : Int) - b.val + 65536
  else if b.val < guard ∧ 65536 - guard < a.val then (a.val : Int) - b.val - 65536
  else (a.val : Int) - b.val

/-- The last of `count` consecutive numbers; a run of none ends where it begins. -/
def lastOf (first : SeqNo) (count : Nat) : SeqNo := first + (count - 1)

theorem ext {a b : SeqNo} (h : a.val = b.val) : a = b := by
  cases a
  cases b
  simp_all

@[simp] theorem val_ofNat (n : Nat) : (ofNat n).val = n % 65536 := rfl

@[simp] theorem val_add (s : SeqNo) (n : Nat) : (s + n).val = (s.val + n) % 65536 := rfl

@[simp] theorem val_next (s : SeqNo) : s.next.val = (s.val + 1) % 65536 := rfl

@[simp] theorem ofNat_val (s : SeqNo) : ofNat s.val = s := ext (Nat.mod_eq_of_lt s.val_lt)

@[simp] theorem add_zero (s : SeqNo) : s + 0 = s := ofNat_val s

theorem add_add (s : SeqNo) (m n : Nat) : s + m + n = s + (m + n) := by
  apply ext
  simp only [val_add]
  omega

@[simp] theorem delta_self (a : SeqNo) : delta a a = 0 := by
  have := a.val_lt
  unfold delta guard
  split <;> try split
  all_goals omega

/-! ### Order of the keys

Maps keyed by sequence numbers list their keys by value. -/

instance : Ord SeqNo := ⟨fun a b => compare a.val b.val⟩

theorem compare_def (a b : SeqNo) : compare a b = compare a.val b.val := rfl

instance : Std.LawfulEqOrd SeqNo where
  eq_of_compare h := ext (Nat.compare_eq_eq.mp h)
  compare_self := Nat.compare_eq_eq.mpr rfl

instance : Std.TransOrd SeqNo where
  eq_swap {a b} := Nat.compare_swap b.val a.val ▸ rfl
  isLE_trans h h' := Nat.isLE_compare.mpr
    (Nat.le_trans (Nat.isLE_compare.mp h) (Nat.isLE_compare.mp h'))

end SeqNo

end AudioIntake
