import AudioIntake.Octets
import Mathlib.Data.List.Induction
import Mathlib.Data.Nat.ModEq

/-!
# Numbers in octets

What is written in a given number of octets is read again up to what does not fit into them. Where
a number stands in a datagram is said once for every width, and so is what reading finds there.
-/

namespace AudioIntake.Octets

theorem value_lt (bs : Octets) : value bs < 256 ^ bs.length := by
  induction bs using List.reverseRecOn with
  | nil => simp [value]
  | append_singleton bs b ih =>
      have hb := b.toNat_lt
      rw [value_append_singleton, List.length_append, List.length_singleton, Nat.pow_succ]
      omega

theorem value_ofValue (width n : Nat) : value (ofValue width n) = n % 256 ^ width := by
  induction width generalizing n with
  | zero => simp [ofValue, value, Nat.mod_one]
  | succ width ih =>
      have hlow : (UInt8.ofNat n).toNat = n % 256 := rfl
      rw [ofValue, value_append_singleton, ih, hlow, Nat.pow_succ, Nat.mul_comm (256 ^ width) 256,
        Nat.mod_mul]
      omega

theorem ofValue_value (bs : Octets) : ofValue bs.length (value bs) = bs := by
  induction bs using List.reverseRecOn with
  | nil => rfl
  | append_singleton bs b ih =>
      have hb := b.toNat_lt
      have hhigh : (256 * value bs + b.toNat) / 256 = value bs := by omega
      have hlow : UInt8.ofNat (256 * value bs + b.toNat) = b := by
        apply UInt8.toNat_inj.mp
        rw [UInt8.toNat_ofNat']
        omega
      rw [List.length_append, List.length_singleton, value_append_singleton, ofValue, hhigh, hlow,
        ih]

/-! ### Numbers at their places -/

/-- The `width` octets from `offset` on lie inside the datagram and are those of the number. -/
structure Carries (bs : Octets) (offset width n : Nat) : Prop where
  inside : offset + width ≤ bs.length
  lt : n < 256 ^ width
  octets_eq : (bs.drop offset).take width = ofValue width n

variable {bs before after : Octets} {offset width n : Nat}

theorem length_take_drop (inside : offset + width ≤ bs.length) :
    ((bs.drop offset).take width).length = width := by
  rw [List.length_take, List.length_drop]
  omega

theorem field_lt (inside : offset + width ≤ bs.length) :
    bs.field offset width inside < 256 ^ width := by
  have hlt := value_lt ((bs.drop offset).take width)
  rwa [length_take_drop inside] at hlt

theorem carries_field (inside : offset + width ≤ bs.length) :
    bs.Carries offset width (bs.field offset width inside) where
  inside := inside
  lt := field_lt inside
  octets_eq := by
    have hread := ofValue_value ((bs.drop offset).take width)
    rw [length_take_drop inside] at hread
    exact hread.symm

theorem Carries.field_eq (h : bs.Carries offset width n) :
    bs.field offset width h.inside = n := by
  rw [field, h.octets_eq, value_ofValue, Nat.mod_eq_of_lt h.lt]

theorem carries_iff (inside : offset + width ≤ bs.length) :
    bs.Carries offset width n ↔ bs.field offset width inside = n := by
  constructor
  · intro h
    exact h.field_eq
  · rintro rfl
    exact carries_field inside

/-- What is written between two parts of a datagram stands there. -/
theorem carries_of_eq (hbs : bs = before ++ ofValue width n ++ after)
    (hoffset : before.length = offset) (hlt : n < 256 ^ width) : bs.Carries offset width n := by
  subst hbs hoffset
  refine ⟨?_, hlt, ?_⟩
  · simp only [List.length_append, length_ofValue]
    omega
  · rw [List.append_assoc, List.drop_left, List.take_left' (length_ofValue width n)]

theorem Carries.drop_eq (h : bs.Carries offset width n) :
    bs.drop offset = ofValue width n ++ bs.drop (offset + width) := by
  rw [← h.octets_eq, ← List.drop_drop, List.take_append_drop]

/-- Octets that follow change nothing in front of them. -/
theorem Carries.append (h : bs.Carries offset width n) (more : Octets) :
    (bs ++ more).Carries offset width n := by
  have inside := h.inside
  refine ⟨?_, h.lt, ?_⟩
  · rw [List.length_append]
    omega
  · rw [List.drop_append_of_le_length (by omega), List.take_append_of_le_length, h.octets_eq]
    rw [List.length_drop]
    omega

/-- Behind other octets everything stands as much later as there are of them. -/
theorem carries_append_iff (front : Octets) :
    (front ++ bs).Carries (front.length + offset) width n ↔ bs.Carries offset width n := by
  have hinside : front.length + offset + width ≤ (front ++ bs).length ↔
      offset + width ≤ bs.length := by
    rw [List.length_append]
    omega
  constructor
  · rintro ⟨inside, hlt, hoctets⟩
    rw [List.drop_length_add_append] at hoctets
    exact ⟨hinside.mp inside, hlt, hoctets⟩
  · rintro ⟨inside, hlt, hoctets⟩
    refine ⟨hinside.mpr inside, hlt, ?_⟩
    rwa [List.drop_length_add_append]

/-- A number read into a word that holds as many octets. -/
theorem word_eq_iff {α : Type} {ofNat : Nat → α} {toNat : α → Nat}
    (hofNat : ∀ a, ofNat (toNat a) = a) (htoNat : ∀ n, n < 256 ^ width → toNat (ofNat n) = n)
    (inside : offset + width ≤ bs.length) (a : α) :
    ofNat (bs.field offset width inside) = a ↔ bs.Carries offset width (toNat a) := by
  rw [carries_iff inside]
  constructor
  · rintro rfl
    exact (htoNat _ (field_lt inside)).symm
  · intro h
    rw [h, hofNat]

theorem uint16_eq_iff (inside : offset + 2 ≤ bs.length) (n : UInt16) :
    UInt16.ofNat (bs.field offset 2 inside) = n ↔ bs.Carries offset 2 n.toNat :=
  word_eq_iff (fun _ => UInt16.ofNat_toNat) (fun _ => UInt16.toNat_ofNat_of_lt') inside n

theorem uint32_eq_iff (inside : offset + 4 ≤ bs.length) (n : UInt32) :
    UInt32.ofNat (bs.field offset 4 inside) = n ↔ bs.Carries offset 4 n.toNat :=
  word_eq_iff (fun _ => UInt32.ofNat_toNat) (fun _ => UInt32.toNat_ofNat_of_lt') inside n

theorem uint64_eq_iff (inside : offset + 8 ≤ bs.length) (n : UInt64) :
    UInt64.ofNat (bs.field offset 8 inside) = n ↔ bs.Carries offset 8 n.toNat :=
  word_eq_iff (fun _ => UInt64.ofNat_toNat) (fun _ => UInt64.toNat_ofNat_of_lt') inside n

end AudioIntake.Octets
