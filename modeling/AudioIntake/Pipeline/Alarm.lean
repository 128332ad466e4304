/-!
# Alarms on a clock

The clock keeps its alarms in the slots of six wheels. A wheel has 64 slots, and one turn of it is
one slot of the next. An alarm lies on the finest wheel that tells its time from now; when its slot
comes up it goes off, or moves to a finer wheel.

Nothing follows the last wheel, so an alarm nearly a full turn of it away may lie in the slot that
is up just now. The clock still goes to that slot before all others, and the alarms it passes over
wait for the next time that theirs come up. No alarm goes off early, and one can be late only when
another lies that far ahead.

The two largest numbers that the clock can count up to are no times but marks in its books, and it
refuses to set an alarm for them.
-/

namespace AudioIntake

structure Slot where
  wheel : Nat
  index : Nat
deriving DecidableEq

namespace Slot

/-- The milliseconds for which the slot is up. -/
def width (s : Slot) : Nat := 1 <<< (6 * s.wheel)

/-- The milliseconds from one time that the slot comes up to the next. -/
def turn (s : Slot) : Nat := 64 * s.width

theorem turn_pos (s : Slot) : 0 < s.turn := by
  unfold turn width
  rw [Nat.one_shiftLeft]
  exact Nat.mul_pos (by decide) (Nat.pow_pos (by decide))

def ofTime (now time : Nat) : Slot :=
  let wheel := min ((now ^^^ time).log2 / 6) 5
  { wheel, index := time / (1 <<< (6 * wheel)) % 64 }

def comesUp (s : Slot) (now : Nat) : Nat :=
  let time := now - now % s.turn + s.index * s.width
  if now < time then time else time + s.turn

theorem lt_comesUp (s : Slot) (now : Nat) : now < s.comesUp now := by
  have below := Nat.mod_lt now s.turn_pos
  unfold comesUp
  dsimp only
  split <;> omega

theorem div_width_lt {now time : Nat} (h : now < time) :
    now / (ofTime now time).width < time / (ofTime now time).width := by
  have differs : now ^^^ time ≠ 0 := by
    intro same
    have back : now ^^^ (now ^^^ time) = now := by rw [same, Nat.xor_zero]
    rw [← Nat.xor_assoc, Nat.xor_self, Nat.zero_xor] at back
    omega
  refine Nat.lt_of_le_of_ne (Nat.div_le_div_right (Nat.le_of_lt h)) fun same => ?_
  unfold width at same
  rw [Nat.one_shiftLeft] at same
  have below := (Nat.log2_lt differs).2 <| Nat.lt_of_div_eq_zero (Nat.two_pow_pos _) <| by
    rw [Nat.xor_div_two_pow, same, Nat.xor_self]
  simp only [ofTime] at below
  omega

theorem comesUp_ofTime_le {now time : Nat} (h : now < time) :
    (ofTime now time).comesUp now ≤ time := by
  have further := div_width_lt h
  have index : (ofTime now time).index = time / (ofTime now time).width % 64 := rfl
  unfold comesUp turn
  rw [index, Nat.mul_comm 64, Nat.mod_mul]
  generalize (ofTime now time).width = w at further ⊢
  have splitNow := Nat.div_add_mod now w
  have below : w * (time / w) ≤ time := Nat.mul_div_le time w
  have turns : now / w / 64 ≤ time / w / 64 := Nat.div_le_div_right (Nat.le_of_lt further)
  have start : now - (now % w + w * (now / w % 64)) = w * (64 * (now / w / 64)) := by
    have := congrArg (w * ·) (Nat.div_add_mod (now / w) 64)
    simp only [Nat.mul_add] at this
    omega
  rw [start]
  have whole := congrArg (w * ·) (Nat.div_add_mod (time / w) 64)
  simp only [Nat.mul_add] at whole
  rw [Nat.mul_comm (time / w % 64)]
  dsimp only
  rcases Nat.lt_or_eq_of_le turns with apart | same
  · have := Nat.mul_le_mul_left w (Nat.mul_le_mul_left 64 apart)
    rw [Nat.mul_succ, Nat.mul_add] at this
    split <;> omega
  · rw [same]
    have := Nat.mul_le_mul_left w further
    rw [Nat.mul_succ] at this
    have := Nat.mod_lt now (Nat.pos_of_ne_zero fun zero : w = 0 => by simp [zero] at further)
    split <;> omega

/-- The clock goes to finer wheels first, and on one wheel from the slot that is up onwards. -/
def rank (s : Slot) (now : Nat) : Nat :=
  64 * s.wheel + (s.index + 64 - now / s.width % 64) % 64

end Slot

structure Alarm where
  due : Nat
  slot : Slot
deriving DecidableEq

namespace Alarm

def latest : Nat := 18446744073709551613

/-- The mark that the clock puts in place of the time of an alarm that has gone off. -/
def gone : Nat := 18446744073709551615

def place (now due : Nat) : Alarm := { due, slot := .ofTime now due }

/-- The clock counts in 64 bits. What does not fit counts as the latest time, and the two numbers
after the latest time are marks, for which no alarm can be set. -/
def set? (now due : Nat) : Option Alarm :=
  if due ≤ latest then some (place now due)
  else if due ≤ gone then none
  else some (place now latest)

def onSlot (a : Alarm) (slot : Slot) (now : Nat) : Option Alarm :=
  if a.slot = slot then if a.due ≤ now then none else some (place now a.due) else some a

theorem due_of_onSlot {a b : Alarm} {slot : Slot} {now : Nat}
    (h : a.onSlot slot now = some b) : b.due = a.due := by
  unfold onSlot at h
  split at h
  · split at h
    · contradiction
    · exact Option.some.inj h ▸ rfl
  · exact congrArg due (Option.some.inj h).symm

theorem lt_due_of_onSlot {a b : Alarm} {now : Nat} (h : a.onSlot a.slot now = some b) :
    now < a.due := by
  unfold onSlot at h
  split at h
  · split at h
    · contradiction
    · omega
  · contradiction

def nextSlot (a b : Alarm) (now : Nat) : Slot :=
  if b.slot.rank now < a.slot.rank now then b.slot else a.slot

/-- How long a lone alarm takes: once its slot has come up, nothing makes it late any more. -/
def goesOff (a : Alarm) (now : Nat) : Nat := max a.due (a.slot.comesUp now)

theorem goesOff_place {now due : Nat} (ahead : now < due) : (place now due).goesOff now = due :=
  Nat.max_eq_left (Slot.comesUp_ofTime_le ahead)

theorem time_left_lt {a a' b b' : Alarm} {now : Nat}
    (ha : a.onSlot (nextSlot a b now) ((nextSlot a b now).comesUp now) = some a')
    (hb : b.onSlot (nextSlot a b now) ((nextSlot a b now).comesUp now) = some b') :
    (a'.due - (nextSlot a b now).comesUp now) + (b'.due - (nextSlot a b now).comesUp now) <
      (a.due - now) + (b.due - now) := by
  have later := (nextSlot a b now).lt_comesUp now
  have sameA := due_of_onSlot ha
  have sameB := due_of_onSlot hb
  by_cases first : b.slot.rank now < a.slot.rank now
  · have next : nextSlot a b now = b.slot := if_pos first
    rw [next] at hb later ⊢
    have notDue := lt_due_of_onSlot hb
    omega
  · have next : nextSlot a b now = a.slot := if_neg first
    rw [next] at ha later ⊢
    have notDue := lt_due_of_onSlot ha
    omega

/-- The clock runs until one of two alarms goes off. Says when that is, and which are left. -/
def waitEither (a b : Alarm) (now : Nat) : Nat × Option Alarm × Option Alarm :=
  let slot := nextSlot a b now
  let time := slot.comesUp now
  match _ha : a.onSlot slot time, _hb : b.onSlot slot time with
  | some a, some b => waitEither a b time
  | a, b => (time, a, b)
termination_by (a.due - now) + (b.due - now)
decreasing_by exact time_left_lt _ha _hb

end Alarm

end AudioIntake
