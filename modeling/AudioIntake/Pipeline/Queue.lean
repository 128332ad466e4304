/-!
# Bounded queues

First in, first out, with room for a fixed number of items. A closed queue takes no more.
-/

namespace AudioIntake

structure Queue (α : Type) where
  capacity : Nat
  items : List α
  isOpen : Bool

namespace Queue

/-- Queues count to 2^61 - 1. -/
def maxCapacity : Nat := 2305843009213693951

def ofCapacity? {α : Type} (capacity : Nat) : Option (Queue α) :=
  if 1 ≤ capacity ∧ capacity ≤ maxCapacity then some { capacity, items := [], isOpen := true }
  else none

def hasRoom {α : Type} (q : Queue α) : Bool := q.items.length < q.capacity

def push {α : Type} (q : Queue α) (a : α) : Queue α := { q with items := q.items ++ [a] }

def close {α : Type} (q : Queue α) : Queue α := { q with items := [], isOpen := false }

end Queue

end AudioIntake
