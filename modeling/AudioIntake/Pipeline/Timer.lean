import AudioIntake.Pipeline.Alarm

/-!
# Recovery timers

A timer falls due again and again, one period after it last went off or was reset. The clock tells
its owner by an alarm, which is put off where it lies when the timer is reset.
-/

namespace AudioIntake

structure Timer where
  period : Nat
  due : Nat
  /-- Where its alarm lies while it is set. -/
  slot : Option Slot
deriving DecidableEq

namespace Timer

/-- A new timer is due at once. -/
def ofPeriod? (period now : Nat) : Option Timer :=
  if period = 0 then none else some { period, due := now, slot := none }

def isMarked (t : Timer) : Bool := Alarm.latest < t.due && t.due ≤ Alarm.gone

/-- Falls due one full period from now. An alarm at a mark cannot be put off. -/
def reset (t : Timer) (now : Nat) : Timer :=
  { t with due := now + t.period, slot := if t.isMarked then none else t.slot }

def alarm? (t : Timer) : Option Alarm :=
  t.slot.map fun slot => { due := min t.due Alarm.latest, slot }

/-- Sets the alarm unless it is set. One that has been put off to the mark of those that have gone
off counts as one of them, and the timer as due. -/
def arm? (t : Timer) (now : Nat) : Option Timer :=
  if t.slot.isNone then
    (Alarm.set? now t.due).map fun alarm => { t with slot := some alarm.slot }
  else if t.due = Alarm.gone then some { t with due := now, slot := none }
  else some t

end Timer

end AudioIntake
