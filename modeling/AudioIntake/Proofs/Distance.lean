import AudioIntake.SeqNo

/-!
# Walking distances on the circle

`a.stepsTo b` counts the steps that lead from `a` forward to `b`, however often the numbers wrap on
the way. `delta` is that count wherever it judges `b` to be ahead, and it shrinks by one with every
step taken from `a` until `b` is reached. This is what makes a number that was ahead of the delivery
point stay ahead while the delivery point moves up to it.
-/

namespace AudioIntake.SeqNo

def stepsTo (a b : SeqNo) : Nat := (b.val + 65536 - a.val) % 65536

theorem stepsTo_lt (a b : SeqNo) : a.stepsTo b < 65536 := Nat.mod_lt _ (by decide)

@[simp] theorem stepsTo_self (a : SeqNo) : a.stepsTo a = 0 := by
  simp [stepsTo]

@[simp] theorem add_stepsTo (a b : SeqNo) : a + a.stepsTo b = b := by
  apply ext
  have ha := a.val_lt
  have hb := b.val_lt
  simp only [val_add, stepsTo]
  omega

theorem stepsTo_add (a : SeqNo) {n : Nat} (hn : n < 65536) : a.stepsTo (a + n) = n := by
  have ha := a.val_lt
  simp only [stepsTo, val_add]
  omega

theorem stepsTo_eq_zero {a b : SeqNo} : a.stepsTo b = 0 ↔ b = a := by
  constructor
  · intro h
    rw [← add_stepsTo a b, h, add_zero]
  · rintro rfl
    exact stepsTo_self b

theorem stepsTo_inj {a b c : SeqNo} (h : a.stepsTo b = a.stepsTo c) : b = c := by
  rw [← add_stepsTo a b, h, add_stepsTo]

theorem add_inj {a : SeqNo} {m n : Nat} (hm : m < 65536) (hn : n < 65536) (h : a + m = a + n) :
    m = n := by
  rw [← stepsTo_add a hm, h, stepsTo_add a hn]

/-- A start that moves up to the target shortens the way. -/
theorem stepsTo_add_left {a b : SeqNo} {n : Nat} (h : n ≤ a.stepsTo b) :
    (a + n).stepsTo b = a.stepsTo b - n := by
  have ha := a.val_lt
  have hb := b.val_lt
  simp only [stepsTo, val_add] at h ⊢
  omega

/-- A start that moves past the target has to go around the whole circle. -/
theorem stepsTo_add_left_of_lt {a b : SeqNo} {n : Nat} (h : a.stepsTo b < n) (hn : n < 65536) :
    (a + n).stepsTo b = 65536 + a.stepsTo b - n := by
  have ha := a.val_lt
  have hb := b.val_lt
  simp only [stepsTo, val_add] at h ⊢
  omega

theorem stepsTo_add_right (a b : SeqNo) (n : Nat) :
    a.stepsTo (b + n) = (a.stepsTo b + n) % 65536 := by
  have ha := a.val_lt
  have hb := b.val_lt
  simp only [stepsTo, val_add]
  omega

theorem stepsTo_next_right {a b : SeqNo} (h : a.stepsTo b < 65535) :
    a.stepsTo b.next = a.stepsTo b + 1 := by
  have ha := a.val_lt
  have hb := b.val_lt
  simp only [stepsTo, val_next] at h ⊢
  omega

/-! ### The judgement of `delta` -/

/-- The three regions of `delta`: inside the guard band on either side of the wrap, and elsewhere. -/
theorem delta_regions (a b : SeqNo) :
    (a.val < 8192 ∧ 57344 < b.val ∧ delta a b = a.val - b.val + 65536) ∨
    (b.val < 8192 ∧ 57344 < a.val ∧ delta a b = a.val - b.val - 65536) ∨
    (¬(a.val < 8192 ∧ 57344 < b.val) ∧ ¬(b.val < 8192 ∧ 57344 < a.val) ∧
      delta a b = a.val - b.val) := by
  unfold delta guard
  split
  · omega
  · split <;> omega

theorem delta_neg (a b : SeqNo) : delta b a = -delta a b := by
  have hab := delta_regions a b
  have hba := delta_regions b a
  omega

theorem delta_eq_zero {a b : SeqNo} : delta a b = 0 ↔ a = b := by
  constructor
  · intro h
    have ha := a.val_lt
    have hb := b.val_lt
    have hab := delta_regions a b
    apply ext
    omega
  · rintro rfl
    exact delta_self a

/-- A number judged ahead is as far ahead as the way to it is long. -/
theorem delta_eq_stepsTo {a b : SeqNo} (h : 0 ≤ delta a b) : delta a b = b.stepsTo a := by
  have ha := a.val_lt
  have hb := b.val_lt
  have hab := delta_regions a b
  unfold stepsTo
  omega

theorem stepsTo_pos {a b : SeqNo} (h : 0 < delta a b) : 0 < b.stepsTo a := by
  have hsteps := delta_eq_stepsTo (Int.le_of_lt h)
  omega

/-- No number counts as ahead by more than this, so the way to it never closes the circle. -/
theorem stepsTo_le {a b : SeqNo} (h : 0 ≤ delta a b) : b.stepsTo a ≤ 57344 := by
  have ha := a.val_lt
  have hb := b.val_lt
  have hab := delta_regions a b
  have hsteps := delta_eq_stepsTo h
  omega

/-- The steps on the way to a number judged ahead leave it ahead, and nearer by their count. -/
theorem delta_add_left {a b : SeqNo} {n : Nat} (h : 0 ≤ delta a b) (hn : n ≤ b.stepsTo a) :
    delta a (b + n) = b.stepsTo a - n := by
  have ha := a.val_lt
  have hb := b.val_lt
  have hab := delta_regions a b
  have hstep := delta_regions a (b + n)
  simp only [stepsTo, val_add] at *
  omega

/-- Every number on the way to one judged ahead is judged ahead too. -/
theorem delta_add_self {a b : SeqNo} {n : Nat} (h : 0 ≤ delta a b) (hn : n ≤ b.stepsTo a) :
    delta (b + n) b = n := by
  have ha := a.val_lt
  have hb := b.val_lt
  have hab := delta_regions a b
  have hstep := delta_regions (b + n) b
  simp only [stepsTo, val_add] at *
  omega

/-- Numbers within the guard band of each other are as far apart as the steps that lead to them. -/
theorem delta_add_add (a : SeqNo) {m n : Nat} (hnm : n ≤ m + 8191) (hmn : m ≤ n + 8191) :
    delta (a + n) (a + m) = n - m := by
  have ha := a.val_lt
  have hdelta := delta_regions (a + n) (a + m)
  simp only [val_add] at hdelta
  omega

/-! ### Walking up to a number -/

theorem repeat_next (b : SeqNo) (n : Nat) : Nat.repeat next n b = b + n := by
  induction n with
  | zero => exact (add_zero b).symm
  | succ n ih => rw [Nat.repeat, ih, next, add_add]

theorem delta_emod (a b : SeqNo) : delta a b % 65536 = ((a.val : Int) - b.val) % 65536 := by
  have hab := delta_regions a b
  omega

/-- Between numbers in the guard band the way leads over the wrap, so no distance is longer than what
the band leaves of the circle. -/
theorem natAbs_delta_le (a b : SeqNo) : (delta a b).natAbs ≤ 57344 := by
  have ha := a.val_lt
  have hb := b.val_lt
  have hab := delta_regions a b
  omega

/-- How `delta` measures the way from `b` to `a`. -/
structure MeasuresWay (a b : SeqNo) : Prop where
  emod_eq : delta a b % 65536 = ((a.val : Int) - b.val) % 65536
  eq_neg : delta a b = -delta b a
  eq_zero_iff : delta a b = 0 ↔ a = b
  natAbs_le : (delta a b).natAbs ≤ 57344
  near_eq : ∀ n : Nat, n ≤ 8191 → delta (b + n) b = n ∧ delta b (b + n) = -n
  walk_eq : 0 < delta a b → ∀ j : Nat, j ≤ delta a b →
    Nat.repeat next j b = b + j ∧ delta a (b + j) = delta a b - j
  reached : 0 < delta a b → b + (delta a b).toNat = a

/-- Whatever the two numbers are, and wherever the wrap lies between them: a number judged ahead
stays ahead while one walks up to it, nearer by one with every step, until it is reached. -/
theorem delta_measures_way (a b : SeqNo) : MeasuresWay a b where
  emod_eq := delta_emod a b
  eq_neg := delta_neg b a
  eq_zero_iff := delta_eq_zero
  natAbs_le := natAbs_delta_le a b
  near_eq n hn := by
    have hahead := delta_add_add b (m := 0) (n := n) (by omega) (by omega)
    have hbehind := delta_add_add b (m := n) (n := 0) (by omega) (by omega)
    rw [add_zero] at hahead hbehind
    omega
  walk_eq hahead j hj := by
    have hsteps := delta_eq_stepsTo (Int.le_of_lt hahead)
    have hleft := delta_add_left (n := j) (Int.le_of_lt hahead) (by omega)
    exact ⟨repeat_next b j, by omega⟩
  reached hahead := by
    rw [delta_eq_stepsTo (Int.le_of_lt hahead), Int.toNat_natCast, add_stepsTo]

/-- The longest way over the wrap, and the longest way that does not lead over it. -/
example : delta (ofNat 8191) (ofNat 57345) = 16382 ∧ delta (ofNat 57344) (ofNat 0) = 57344 := by
  decide

end AudioIntake.SeqNo
