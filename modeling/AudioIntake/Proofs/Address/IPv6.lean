import AudioIntake.Address.IPv6
import AudioIntake.Proofs.Address.Number
import Mathlib.Data.List.TakeWhile

/-!
# IPv6 addresses read back

The written form of an address leaves out one run of zero groups, if there is a long one, or ends
with an IPv4 address. Reading takes all the groups it can get, so that what it finds in front of two
colons and behind them is what was written there, and the groups that are missing are the zeros left
out.
-/

namespace AudioIntake.IPv6

open Address

variable {limit : Nat} {first : Bool} {g : UInt16} {gs : List UInt16} {cs rest : List Char}

/-! ### Groups one after another -/

/-- Groups with a colon in front of each, but for the first of all. -/
def joined : Bool → List UInt16 → List Char
  | _, [] => []
  | true, g :: gs => groupChars g ++ joined false gs
  | false, g :: gs => ':' :: groupChars g ++ joined false gs

theorem groupsChars_eq (gs : List UInt16) : groupsChars gs = joined true gs := by
  induction gs with
  | nil => rfl
  | cons g gs ih =>
      rw [groupsChars] at ih ⊢
      cases gs with
      | nil => simp [joined, List.intercalate]
      | cons g' gs =>
          simp only [List.map_cons, List.intercalate, List.intersperse_cons_cons] at ih ⊢
          rw [List.flatten_cons, List.flatten_cons, ih]
          simp [joined]

/-- No further group can be read here, nor does the last one turn out to be part of an IPv4 address. -/
structure Closed (rest : List Char) : Prop where
  digit : Stops (isDigit 16) rest
  dot : Stops (· == '.') rest
  colon : ∀ cs, rest = ':' :: cs → Stops (isDigit 16) cs

theorem roomy_groupFormat : groupFormat.Roomy where
  one_lt_base := by decide
  base_le := by decide
  bound_le := by
    rintro _ ⟨⟩
    decide

theorem readNumber_groupChars (g : UInt16) (hrest : Stops (isDigit 16) rest) :
    readNumber groupFormat (groupChars g ++ rest) = some (g.toNat, rest) :=
  readNumber_toDigits roomy_groupFormat g.toNat_lt hrest

/-- What follows digits that are not all decimal is no dot. -/
theorem stops_dot_dropWhile (hcs : ∀ c ∈ cs, (c == '.') = false) (hdigit : Stops (isDigit 16) rest)
    (hdot : Stops (· == '.') rest) : Stops (· == '.') ((cs ++ rest).dropWhile (isDigit 10)) := by
  induction cs with
  | nil =>
      have hkept : ([] ++ rest).dropWhile (isDigit 10) = rest :=
        (hdigit.of_le (by decide)).dropWhile_append nofun
      rwa [hkept]
  | cons c cs ih =>
      obtain ⟨hc, hcs⟩ := List.forall_mem_cons.mp hcs
      rw [List.cons_append, List.dropWhile_cons]
      split
      · exact ih hcs
      · exact stops_cons hc

theorem readIPv4_eq_none (h : Stops (isDigit 16) rest) : IPv4.read rest = none := by
  have hdigit : Stops (isDigit 10) rest := h.of_le (by decide)
  rw [IPv4.read, readNumber_eq_none hdigit, Option.bind_eq_bind, Option.bind_none]

theorem ne_dot_of_mem_groupChars {c : Char} (h : c ∈ groupChars g) : (c == '.') = false := by
  have hdigit : isDigit 16 c = true := isDigit_of_mem_toDigits (by decide) (by decide) h
  rw [beq_eq_false_iff_ne]
  rintro rfl
  exact absurd hdigit (by decide)

theorem readIPv4_groupChars (g : UInt16) (hdigit : Stops (isDigit 16) rest)
    (hdot : Stops (· == '.') rest) : IPv4.read (groupChars g ++ rest) = none :=
  IPv4.read_eq_none (stops_dot_dropWhile (fun _ => ne_dot_of_mem_groupChars) hdigit hdot)

/-- A group is read that is not the first number of an IPv4 address. -/
theorem readGroups_of_group (limit : Nat) (h : readSeparator first cs = some (groupChars g ++ rest))
    (hdigit : Stops (isDigit 16) rest) (hdot : Stops (· == '.') rest) :
    readGroups (limit + 1) first cs =
      (g :: (readGroups limit false rest).1, (readGroups limit false rest).2) := by
  rw [readGroups, h, Option.bind_eq_bind, Option.bind_some, readIPv4_groupChars g hdigit hdot,
    ite_self, Option.bind_eq_bind, Option.bind_some, readNumber_groupChars g hdigit]
  dsimp only
  rw [UInt16.ofNat_toNat]

/-- No group is read where no digit follows. -/
theorem readGroups_of_stops (limit : Nat) (first : Bool)
    (h : ∀ cs, readSeparator first rest = some cs → Stops (isDigit 16) cs) :
    readGroups limit first rest = ([], false, rest) := by
  cases limit with
  | zero => rfl
  | succ limit =>
      cases hsep : readSeparator first rest with
      | none =>
          rw [readGroups, hsep, Option.bind_eq_bind, Option.bind_none, ite_self]
          rfl
      | some cs =>
          have hdigit := h cs hsep
          rw [readGroups, hsep, Option.bind_eq_bind, Option.bind_some, readIPv4_eq_none hdigit,
            ite_self, Option.bind_eq_bind, Option.bind_some, readNumber_eq_none hdigit]

theorem Closed.readGroups (h : Closed rest) (limit : Nat) (first : Bool) :
    readGroups limit first rest = ([], false, rest) := by
  apply readGroups_of_stops
  intro cs hsep
  cases first with
  | true =>
      cases hsep
      exact h.digit
  | false => exact h.colon cs (eq_cons_of_readChar hsep)

theorem stops_joined (hdigit : Stops (isDigit 16) rest) (hdot : Stops (· == '.') rest)
    (gs : List UInt16) :
    Stops (isDigit 16) (joined false gs ++ rest) ∧ Stops (· == '.') (joined false gs ++ rest) := by
  cases gs with
  | nil => exact ⟨hdigit, hdot⟩
  | cons g gs => exact ⟨stops_cons rfl, stops_cons rfl⟩

theorem readSeparator_joined (first : Bool) (g : UInt16) (gs : List UInt16) (rest : List Char) :
    readSeparator first (joined first (g :: gs) ++ rest) =
      some (groupChars g ++ (joined false gs ++ rest)) := by
  rw [← List.append_assoc]
  cases first with
  | true => rfl
  | false => exact readChar_cons ':' (groupChars g ++ joined false gs ++ rest)

theorem readGroups_joined (first : Bool) (h : gs.length ≤ limit) (hrest : Closed rest) :
    readGroups limit first (joined first gs ++ rest) = (gs, false, rest) := by
  induction gs generalizing limit first with
  | nil => exact hrest.readGroups limit first
  | cons g gs ih =>
      obtain ⟨limit, rfl⟩ := Nat.exists_eq_add_one_of_ne_zero (Nat.ne_zero_of_lt h)
      obtain ⟨hdigit, hdot⟩ := stops_joined hrest.digit hrest.dot gs
      rw [readGroups_of_group limit (readSeparator_joined first g gs rest) hdigit hdot,
        ih false (Nat.le_of_succ_le_succ h)]

/-! ### The zeros left out -/

/-- From the first place on, there are as many zeros as the second number says. -/
def IsZeros (groups : List UInt16) (place : Nat × Nat) : Prop :=
  (groups.drop place.1).take place.2 = List.replicate place.2 0

theorem isZeros_zerosAhead (groups : List UInt16) (start : Nat) :
    IsZeros groups (start, zerosAhead (groups.drop start)) := by
  have htake : (groups.drop start).take (zerosAhead (groups.drop start)) =
      (groups.drop start).takeWhile (· = 0) :=
    List.prefix_iff_eq_take.mp (List.takeWhile_prefix _) |>.symm
  rw [IsZeros, htake]
  apply List.eq_replicate_iff.mpr
  refine ⟨rfl, fun g hg => ?_⟩
  simpa using List.mem_takeWhile_imp (p := fun x => decide (x = 0)) hg

theorem isZeros_longestZeros (groups : List UInt16) : IsZeros groups (longestZeros groups) := by
  rw [longestZeros]
  generalize List.range groups.length = starts
  have hnone : IsZeros groups (0, 0) := rfl
  generalize ((0, 0) : Nat × Nat) = best at hnone ⊢
  induction starts generalizing best with
  | nil => exact hnone
  | cons start starts ih =>
      apply ih
      dsimp only
      split
      · exact isZeros_zerosAhead groups start
      · exact hnone

theorem IsZeros.append_eq {groups : List UInt16} {place : Nat × Nat} (h : IsZeros groups place) :
    groups.take place.1 ++ List.replicate place.2 0 ++ groups.drop (place.1 + place.2) = groups := by
  rw [← h, List.append_assoc, ← List.drop_drop, List.take_append_drop, List.take_append_drop]

/-- There is room for all the zeros. -/
theorem IsZeros.add_le {groups : List UInt16} {place : Nat × Nat} (h : IsZeros groups place)
    (hpos : 0 < place.2) : place.1 + place.2 ≤ groups.length := by
  have hlength := congrArg List.length h
  rw [List.length_take, List.length_drop, List.length_replicate] at hlength
  omega

/-! ### Whole addresses -/

theorem ofGroups?_groups (ip : IPv6) : ofGroups? ip.groups = some ip := dif_pos ip.length_groups

theorem read_of_full (ip : IPv6) (hrest : Closed rest) :
    read (joined true ip.groups ++ rest) = some (ip, rest) := by
  have hgroups := readGroups_joined true ip.length_groups.le hrest
  rw [read, hgroups]
  dsimp only
  rw [if_pos ip.length_groups, ofGroups?_groups]
  rfl

/-- The groups in front of two colons and behind them are read, and the missing ones are zeros. -/
theorem read_of_shortened (ip : IPv6) {head tail : List UInt16} {embedded : Bool}
    (hshort : head.length < 8)
    (htail : readGroups (7 - head.length) true cs = (tail, embedded, rest))
    (hgroups : head ++ List.replicate (8 - head.length - tail.length) 0 ++ tail = ip.groups) :
    read (joined true head ++ ':' :: ':' :: cs) = some (ip, rest) := by
  have hclosed : Closed (':' :: ':' :: cs) :=
    { digit := stops_cons rfl
      dot := stops_cons rfl
      colon := by
        rintro _ ⟨⟩
        exact stops_cons rfl }
  rw [read, readGroups_joined true hshort.le hclosed]
  dsimp only
  rw [if_neg hshort.ne, if_neg Bool.false_ne_true, readChar_cons, Option.bind_eq_bind,
    Option.bind_some, readChar_cons, Option.bind_eq_bind, Option.bind_some, htail]
  dsimp only
  rw [hgroups, ofGroups?_groups]
  rfl

theorem read_of_zeros (ip : IPv6) {place : Nat × Nat} (hzeros : IsZeros ip.groups place)
    (hlong : 1 < place.2) (hrest : Closed rest) :
    read (joined true (ip.groups.take place.1) ++ ':' :: ':' ::
      (joined true (ip.groups.drop (place.1 + place.2)) ++ rest)) = some (ip, rest) := by
  have hroom := hzeros.add_le (Nat.lt_of_succ_lt hlong)
  rw [ip.length_groups] at hroom
  have hhead : (ip.groups.take place.1).length = place.1 := by
    rw [List.length_take, ip.length_groups]
    omega
  have htail : (ip.groups.drop (place.1 + place.2)).length = 8 - place.1 - place.2 := by
    rw [List.length_drop, ip.length_groups]
    omega
  refine read_of_shortened ip (by omega) (readGroups_joined true (by omega) hrest) ?_
  have hcount : 8 - (ip.groups.take place.1).length -
      (ip.groups.drop (place.1 + place.2)).length = place.2 := by omega
  rw [hcount, hzeros.append_eq]

/-- Two octets of an IPv4 address, side by side, are the group that they were taken from. -/
theorem octets_add (g : UInt16) :
    (g / 256).toUInt8.toUInt16 * 256 + (g % 256).toUInt8.toUInt16 = g := by
  have hg := g.toNat_lt
  apply UInt16.toNat_inj.mp
  simp only [UInt16.toNat_add, UInt16.toNat_mul, UInt8.toNat_toUInt16, UInt16.toNat_toUInt8,
    UInt16.toNat_div, UInt16.toNat_mod, UInt16.toNat_ofNat, Nat.reducePow, Nat.reduceMod]
  omega

theorem mapped?_eq_some {ip : IPv6} {v4 : IPv4} (h : ip.mapped? = some v4) :
    [0, 0, 0, 0, 0, 0xffff] ++ v4.groups = ip.groups := by
  rw [mapped?] at h
  split at h
  · rename_i heq
    cases h
    rw [heq, IPv4.groups, octets_add, octets_add]
    rfl
  · cases h

theorem read_of_mapped {ip : IPv6} {v4 : IPv4} (h : ip.mapped? = some v4)
    (hrest : Stops (isDigit 10) rest) :
    read (':' :: ':' :: 'f' :: 'f' :: 'f' :: 'f' :: ':' :: (v4.chars ++ rest)) =
      some (ip, rest) := by
  have hpart : readGroups 6 false (':' :: (v4.chars ++ rest)) = (v4.groups, true, rest) := by
    rw [readGroups, readSeparator, if_neg Bool.false_ne_true, readChar_cons, Option.bind_eq_bind,
      Option.bind_some, v4.read_chars_append hrest]
    rfl
  have htail : readGroups 7 true ('f' :: 'f' :: 'f' :: 'f' :: ':' :: (v4.chars ++ rest)) =
      (0xffff :: v4.groups, true, rest) := by
    have hchars : 'f' :: 'f' :: 'f' :: 'f' :: ':' :: (v4.chars ++ rest) =
        groupChars 0xffff ++ ':' :: (v4.chars ++ rest) := rfl
    rw [hchars, readGroups_of_group 6 rfl (stops_cons rfl) (stops_cons rfl), hpart]
  have hshort : ([] : List UInt16).length < 8 := by decide
  exact read_of_shortened ip hshort htail (mapped?_eq_some h)

theorem read_chars_append (ip : IPv6) (hrest : Closed rest) :
    read (ip.chars ++ rest) = some (ip, rest) := by
  rw [chars]
  split
  · rename_i v4 hmapped
    exact read_of_mapped hmapped (hrest.digit.of_le (by decide))
  · have hzeros := isZeros_longestZeros ip.groups
    dsimp only
    split
    · rename_i hlong
      have hread := read_of_zeros ip hzeros hlong hrest
      rw [groupsChars_eq, groupsChars_eq, List.append_assoc, List.append_assoc]
      exact hread
    · rw [groupsChars_eq]
      exact read_of_full ip hrest

end AudioIntake.IPv6
