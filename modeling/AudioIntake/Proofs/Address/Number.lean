import AudioIntake.Address.IPv4
import Mathlib.Data.Nat.Digits.Defs
import Mathlib.Tactic.IntervalCases

/-!
# Numbers read back

A number written in some base is read back from any text that it stands in front of, so long as no
further digit follows it and the format has room for it. Four such numbers make an IPv4 address.
-/

namespace AudioIntake

namespace Address

/-- The text does not go on with a character of this kind. -/
def Stops (kind : Char → Bool) (rest : List Char) : Prop := ∀ c ∈ rest.head?, kind c = false

variable {base n : Nat} {c : Char} {cs rest : List Char} {kind : Char → Bool} {f : NumberFormat}

theorem stops_nil : Stops kind [] := nofun

theorem stops_cons (h : kind c = false) : Stops kind (c :: rest) := by
  rintro _ ⟨⟩
  exact h

theorem Stops.takeWhile_append (h : Stops kind rest) (hcs : ∀ c ∈ cs, kind c = true) :
    (cs ++ rest).takeWhile kind = cs := by
  have hrest : rest.takeWhile kind = [] := by
    cases rest with
    | nil => rfl
    | cons c rest => rw [List.takeWhile_cons, h c rfl, if_neg Bool.false_ne_true]
  rw [List.takeWhile_append_of_pos hcs, hrest, List.append_nil]

theorem Stops.dropWhile_append (h : Stops kind rest) (hcs : ∀ c ∈ cs, kind c = true) :
    (cs ++ rest).dropWhile kind = rest := by
  have hrest : rest.dropWhile kind = rest := by
    cases rest with
    | nil => rfl
    | cons c rest => rw [List.dropWhile_cons, h c rfl, if_neg Bool.false_ne_true]
  rw [List.dropWhile_append_of_pos hcs, hrest]

/-! ### Digits -/

theorem digit?_digitChar (hbase : base ≤ 16) (hn : n < base) :
    digit? base (Nat.digitChar n) = some n := by
  have hbound : n < 16 := by omega
  interval_cases n <;> exact if_pos hn

theorem isDigit_digitChar (hbase : base ≤ 16) (hn : n < base) :
    isDigit base (Nat.digitChar n) = true := by
  rw [isDigit, digit?_digitChar hbase hn, Option.isSome_some]

theorem isDigit_of_le {larger : Nat} (hle : base ≤ larger) (h : isDigit base c = true) :
    isDigit larger c = true := by
  simp only [isDigit, digit?, Option.isSome_ite] at h ⊢
  exact Nat.lt_of_lt_of_le h hle

theorem Stops.of_le {larger : Nat} (h : Stops (isDigit larger) rest) (hle : base ≤ larger) :
    Stops (isDigit base) rest := by
  intro c hc
  rw [Bool.eq_false_iff]
  intro hdigit
  exact absurd (isDigit_of_le hle hdigit) (Bool.eq_false_iff.mp (h c hc))

theorem ofDigits_concat (base : Nat) (cs : List Char) (c : Char) :
    ofDigits base (cs ++ [c]) = base * ofDigits base cs + (digit? base c).getD 0 := by
  simp [ofDigits]

theorem ofDigits_toDigits (hbase : 1 < base) (hbase' : base ≤ 16) (n : Nat) :
    ofDigits base (Nat.toDigits base n) = n := by
  induction n using Nat.strong_induction_on with
  | _ n ih =>
      by_cases hn : n < base
      · rw [Nat.toDigits_of_lt_base hn, ← List.nil_append [n.digitChar], ofDigits_concat,
          digit?_digitChar hbase' hn]
        exact Nat.zero_add n
      · have hn := Nat.le_of_not_lt hn
        have hmod : n % base < base := Nat.mod_lt n (by omega)
        rw [Nat.toDigits_of_base_le hbase hn, ofDigits_concat,
          ih (n / base) (Nat.div_lt_self (by omega) hbase), digit?_digitChar hbase' hmod]
        exact Nat.div_add_mod n base

theorem isDigit_of_mem_toDigits (hbase : 1 < base) (hbase' : base ≤ 16)
    (hc : c ∈ Nat.toDigits base n) : isDigit base c = true := by
  induction n using Nat.strong_induction_on with
  | _ n ih =>
      by_cases hn : n < base
      · rw [Nat.toDigits_of_lt_base hn, List.mem_singleton] at hc
        exact hc ▸ isDigit_digitChar hbase' hn
      · have hn := Nat.le_of_not_lt hn
        rw [Nat.toDigits_of_base_le hbase hn, List.mem_append, List.mem_singleton] at hc
        obtain hc | rfl := hc
        · exact ih (n / base) (Nat.div_lt_self (by omega) hbase) hc
        · exact isDigit_digitChar hbase' (Nat.mod_lt n (by omega))

/-- Only zero is written with a zero in front. -/
theorem eq_zero_of_head?_toDigits (hbase : 1 < base) (hbase' : base ≤ 16)
    (h : (Nat.toDigits base n).head? = some '0') : n = 0 := by
  induction n using Nat.strong_induction_on with
  | _ n ih =>
      by_cases hn : n < base
      · rw [Nat.toDigits_of_lt_base hn, List.head?_cons, Option.some.injEq] at h
        have hdigit := digit?_digitChar hbase' hn
        have hzero : digit? base '0' = some 0 := digit?_digitChar hbase' (Nat.lt_of_succ_lt hbase)
        rw [h, hzero] at hdigit
        exact (Option.some.inj hdigit).symm
      · have hn := Nat.le_of_not_lt hn
        obtain ⟨c, cs, hcons⟩ : ∃ c cs, Nat.toDigits base (n / base) = c :: cs :=
          List.exists_cons_of_ne_nil Nat.toDigits_ne_nil
        rw [Nat.toDigits_of_base_le hbase hn, hcons] at h
        have hdiv := ih (n / base) (Nat.div_lt_self (by omega) hbase) (hcons ▸ h)
        have hpos : 0 < n / base := Nat.div_pos hn (by omega)
        omega

/-! ### Formats -/

/-- A format that every number below its bound fits into. -/
structure NumberFormat.Roomy (f : NumberFormat) : Prop where
  one_lt_base : 1 < f.base
  base_le : f.base ≤ 16
  bound_le : ∀ digits ∈ f.maxDigits, 0 < digits ∧ f.bound ≤ f.base ^ digits

theorem NumberFormat.Roomy.allows (h : f.Roomy) (hn : n < f.bound) :
    f.allows (Nat.toDigits f.base n) = true := by
  simp only [NumberFormat.allows, Bool.and_eq_true, Bool.or_eq_true, Bool.not_eq_true',
    decide_eq_true_eq, bne_iff_ne]
  refine ⟨⟨⟨List.isEmpty_eq_false_iff.mpr Nat.toDigits_ne_nil, ?_⟩, ?_⟩, ?_⟩
  · split
    · rfl
    · rename_i digits hmax
      obtain ⟨hpos, hbound⟩ := h.bound_le digits hmax
      exact decide_eq_true
        ((Nat.length_toDigits_le_iff h.one_lt_base hpos).mpr (Nat.lt_of_lt_of_le hn hbound))
  · by_cases hhead : (Nat.toDigits f.base n).head? = some '0'
    · rw [eq_zero_of_head?_toDigits h.one_lt_base h.base_le hhead, Nat.toDigits_zero]
      exact .inl (.inr (Nat.le_refl 1))
    · exact .inr hhead
  · rwa [ofDigits_toDigits h.one_lt_base h.base_le]

theorem readNumber_toDigits (hf : f.Roomy) (hn : n < f.bound) (hrest : Stops (isDigit f.base) rest) :
    readNumber f (Nat.toDigits f.base n ++ rest) = some (n, rest) := by
  have hdigits : ∀ c ∈ Nat.toDigits f.base n, isDigit f.base c = true :=
    fun c => isDigit_of_mem_toDigits hf.one_lt_base hf.base_le
  rw [readNumber, hrest.takeWhile_append hdigits, hrest.dropWhile_append hdigits,
    ofDigits_toDigits hf.one_lt_base hf.base_le]
  exact if_pos (hf.allows hn)

theorem readNumber_eq_none (h : Stops (isDigit f.base) cs) : readNumber f cs = none := by
  have hnone : ([] ++ cs).takeWhile (isDigit f.base) = [] := h.takeWhile_append nofun
  rw [List.nil_append] at hnone
  rw [readNumber, hnone]
  rfl

theorem rest_of_readNumber {r : Nat × List Char} (h : readNumber f cs = some r) :
    r.2 = cs.dropWhile (isDigit f.base) := by
  rw [readNumber] at h
  split at h
  · cases h
    rfl
  · cases h

theorem readChar_cons (c : Char) (rest : List Char) : readChar c (c :: rest) = some rest :=
  if_pos rfl

theorem eq_cons_of_readChar (h : readChar c cs = some rest) : cs = c :: rest := by
  cases cs with
  | nil => cases h
  | cons d cs =>
      rw [readChar] at h
      split at h
      · cases h
        subst_vars
        rfl
      · cases h

theorem readChar_eq_none (h : Stops (· == c) cs) : readChar c cs = none := by
  cases cs with
  | nil => rfl
  | cons d cs => exact if_neg (ne_of_beq_false (h d rfl))

end Address

namespace IPv4

open Address

variable {cs rest : List Char}

theorem roomy_octetFormat : octetFormat.Roomy where
  one_lt_base := by decide
  base_le := by decide
  bound_le := by
    rintro _ ⟨⟩
    decide

theorem readNumber_octet (n : UInt8) (hrest : Stops (isDigit 10) rest) :
    readNumber octetFormat (Nat.toDigits 10 n.toNat ++ rest) = some (n.toNat, rest) :=
  readNumber_toDigits roomy_octetFormat n.toNat_lt hrest

theorem read_chars_append (ip : IPv4) (hrest : Stops (isDigit 10) rest) :
    read (ip.chars ++ rest) = some (ip, rest) := by
  have hdot (cs : List Char) : Stops (isDigit 10) ('.' :: cs) := stops_cons rfl
  simp only [read, chars, List.append_assoc, List.cons_append, bind, Option.bind, pure,
    readNumber_octet _ (hdot _), readNumber_octet ip.d hrest, readChar_cons, UInt8.ofNat_toNat]

/-- No address begins where something other than a dot follows the first digits. -/
theorem read_eq_none (h : Stops (· == '.') (cs.dropWhile (isDigit 10))) : read cs = none := by
  cases hnumber : readNumber octetFormat cs with
  | none => rw [read, hnumber, Option.bind_eq_bind, Option.bind_none]
  | some r =>
      obtain ⟨n, rest⟩ := r
      have hrest : rest = cs.dropWhile (isDigit 10) := rest_of_readNumber hnumber
      rw [read, hnumber, Option.bind_eq_bind, Option.bind_some]
      dsimp only
      rw [hrest, readChar_eq_none h]
      rfl

end IPv4

end AudioIntake
