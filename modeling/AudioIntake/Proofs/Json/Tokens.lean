import AudioIntake.Json.Scan
import AudioIntake.Proofs.Address.Number
import AudioIntake.Proofs.Json.Grammar

/-!
# Tokens are read whole

Each token that the grammar allows is read up to its end, whatever stands behind it that may follow
it. A string that is read for its text gives the text that it means, and an integer is read as its
value. The printer's strings and integers are among those of the grammar.
-/

namespace AudioIntake

open Address Grammar

namespace Scan

variable {atEnd : Fault} {strict : Bool} {c : Char} {n u : Nat}
  {b cs ds es sign whole text body read rest tail tail' : List Char}

/-! ### Blanks and single characters -/

theorem isBlank_iff : isBlank c = true ↔ c ∈ [' ', '\n', '\t', '\r'] := by
  simp [isBlank, or_assoc]

theorem skipBlanks_append (hb : Blanks b) (rest : List Char) :
    skipBlanks (b ++ rest) = skipBlanks rest :=
  List.dropWhile_append_of_pos fun c hc => isBlank_iff.mpr (hb c hc)

theorem nextChar_append (hb : Blanks b) (hc : isBlank c = false) (rest : List Char) :
    nextChar (b ++ c :: rest) = .ok (c, rest) := by
  rw [nextChar, skipBlanks_append hb, skipBlanks, List.dropWhile_cons, hc]
  rfl

theorem expect_append (hb : Blanks b) (hc : isBlank c = false) (rest : List Char) :
    expect c (b ++ c :: rest) = .ok rest := by
  rw [expect, nextChar_append hb hc]
  exact if_pos rfl

theorem word_append (ws rest : List Char) : word ws (ws ++ rest) = .ok rest := by
  induction ws with
  | nil => rfl
  | cons w ws ih => rw [List.cons_append, word, if_pos rfl, ih]

theorem stops_of_ends {kind : Char → Bool} (hrest : Ends rest)
    (h : [' ', '\n', '\t', '\r', ',', ']', '\x7d'].any kind = false) : Stops kind rest :=
  fun c hc => Bool.eq_false_iff.mpr (List.any_eq_false.mp h c (hrest c hc))

/-! ### Numbers -/

theorem digits_append (atEnd : Fault) (hds : Digits ds) (hrest : Stops Char.isDigit rest) :
    digits atEnd (ds ++ rest) = .ok (ds, rest) := by
  obtain ⟨hne, hdigits⟩ := hds
  obtain ⟨d, ds, rfl⟩ := List.exists_cons_of_ne_nil hne
  have htake := hrest.takeWhile_append hdigits
  have hdrop := hrest.dropWhile_append hdigits
  unfold digits
  rw [List.cons_append] at htake hdrop ⊢
  dsimp only
  rw [if_pos (hdigits d (List.mem_cons_self ..)), htake, hdrop]

theorem wholePart_append (h : Whole whole) (hrest : Stops Char.isDigit rest) :
    wholePart atEnd (whole ++ rest) = .ok (whole, rest) := by
  obtain ⟨hdigits, hzero⟩ := h
  have hread := digits_append atEnd hdigits hrest
  unfold wholePart
  split
  · rename_i c tail heq
    -- A zero that stands in front is all there is, so what follows is the rest and no digit.
    obtain ⟨d, ds, rfl⟩ := List.exists_cons_of_ne_nil hdigits.1
    obtain ⟨rfl, -⟩ := List.cons.inj heq
    obtain rfl : ds = [] := (List.cons.inj (hzero rfl)).2
    obtain rfl : rest = c :: tail := (List.cons.inj heq).2
    rw [hrest c rfl]
    rfl
  · exact hread

theorem fractionPart_eq_none (hrest : Stops (· == '.') rest) :
    fractionPart atEnd rest = .ok (none, rest) := by
  unfold fractionPart
  split
  · exact absurd (hrest '.' rfl) (by decide)
  · rfl

theorem fractionPart_append (atEnd : Fault) (h : Fraction ds) (hrest : Stops Char.isDigit rest)
    (hdot : Stops (· == '.') rest) : ∃ f, fractionPart atEnd (ds ++ rest) = .ok (f, rest) := by
  cases h with
  | none => exact ⟨none, fractionPart_eq_none hdot⟩
  | some hds =>
      rename_i ds
      refine ⟨some ds, ?_⟩
      rw [List.cons_append, fractionPart, digits_append atEnd hds hrest]
      rfl

theorem exponentPart_eq_none (hrest : Stops (fun c => c = 'e' ∨ c = 'E') rest) :
    exponentPart atEnd rest = .ok (none, rest) := by
  cases rest with
  | nil => rfl
  | cons c rest => exact if_neg (of_decide_eq_false (hrest c rfl))

/-- The digits of an exponent are read alike with a plus sign and without a sign. -/
theorem exponentPart_mark {mark : Char} (hmark : mark = 'e' ∨ mark = 'E')
    (hsign : sign ∈ [[], ['+'], ['-']]) (hds : Digits ds) (hrest : Stops Char.isDigit rest) :
    exponentPart atEnd (mark :: (sign ++ (ds ++ rest))) =
      .ok (some (decide (sign = ['-']), ds), rest) := by
  have hread := digits_append atEnd hds hrest
  unfold exponentPart
  dsimp only
  rw [if_pos hmark]
  simp only [List.mem_cons, List.not_mem_nil, or_false] at hsign
  obtain rfl | rfl | rfl := hsign
  · -- Without a sign the first digit is taken for none.
    obtain ⟨d, ds, rfl⟩ := List.exists_cons_of_ne_nil hds.1
    have hd := hds.2 d (List.mem_cons_self ..)
    split
    · rename_i heq
      obtain ⟨rfl, -⟩ := List.cons.inj heq
      exact absurd hd (by decide)
    · rename_i heq
      obtain ⟨rfl, -⟩ := List.cons.inj heq
      exact absurd hd (by decide)
    · rw [List.nil_append, hread]
      rfl
  · simp only [List.cons_append, List.nil_append, hread]
    rfl
  · simp only [List.cons_append, List.nil_append, hread]
    rfl

theorem exponentPart_append (atEnd : Fault) (h : Exponent ds) (hrest : Stops Char.isDigit rest)
    (hmark : Stops (fun c => c = 'e' ∨ c = 'E') rest) :
    ∃ x, exponentPart atEnd (ds ++ rest) = .ok (x, rest) := by
  cases h with
  | none => exact ⟨none, exponentPart_eq_none hmark⟩
  | some hmark hsign hds =>
      rw [List.cons_append, List.append_assoc]
      exact ⟨_, exponentPart_mark (by simpa using hmark) hsign hds hrest⟩

theorem sign_append (hsign : sign ∈ [[], ['-']]) (h : Whole whole) (rest : List Char) :
    Scan.sign (sign ++ (whole ++ rest)) = (decide (sign = ['-']), whole ++ rest) := by
  simp only [List.mem_cons, List.not_mem_nil, or_false] at hsign
  obtain rfl | rfl := hsign
  · obtain ⟨d, ds, rfl⟩ := List.exists_cons_of_ne_nil h.1.1
    unfold Scan.sign
    split
    · rename_i heq
      obtain ⟨rfl, -⟩ := List.cons.inj heq
      exact absurd (h.1.2 '-' (List.mem_cons_self ..)) (by decide)
    · rfl
  · rfl

theorem numeral_of_parts {f : Option (List Char)} {x : Option (Bool × List Char)}
    (hsign : sign ∈ [[], ['-']]) (hwhole : Whole whole) (htail : Stops Char.isDigit tail)
    (hfraction : fractionPart atEnd tail = .ok (f, tail'))
    (hexponent : exponentPart atEnd tail' = .ok (x, rest)) :
    numeral atEnd (sign ++ (whole ++ tail)) =
      .ok ({ negative := decide (sign = ['-']), whole, fraction := f, exponent := x }, rest) := by
  rw [numeral, sign_append hsign hwhole]
  dsimp only
  rw [wholePart_append hwhole htail]
  dsimp only [bind, Except.bind]
  rw [hfraction]
  dsimp only
  rw [hexponent]
  rfl

theorem stops_fraction {kind : Char → Bool} (h : Fraction ds) (hdot : kind '.' = false)
    (hrest : Stops kind rest) : Stops kind (ds ++ rest) := by
  cases h with
  | none => exact hrest
  | some => exact stops_cons hdot

theorem stops_exponent {kind : Char → Bool} (h : Exponent ds) (hsmall : kind 'e' = false)
    (hlarge : kind 'E' = false) (hrest : Stops kind rest) : Stops kind (ds ++ rest) := by
  cases h with
  | none => exact hrest
  | @some mark _ _ hmark =>
      have hmark : mark = 'e' ∨ mark = 'E' := by simpa using hmark
      obtain rfl | rfl := hmark
      · exact stops_cons hsmall
      · exact stops_cons hlarge

theorem numeral_append (atEnd : Fault) (h : Number cs) (hrest : Ends rest) :
    ∃ n, numeral atEnd (cs ++ rest) = .ok (n, rest) := by
  obtain ⟨hsign, hwhole, hfraction, hexponent⟩ := h
  have hdigit : Stops Char.isDigit rest := stops_of_ends hrest rfl
  have hdot : Stops (· == '.') rest := stops_of_ends hrest rfl
  have hmark : Stops (fun c => c = 'e' ∨ c = 'E') rest := stops_of_ends hrest rfl
  have hdigit' := stops_exponent hexponent rfl rfl hdigit
  have hdot' := stops_exponent hexponent rfl rfl hdot
  obtain ⟨f, hf⟩ := fractionPart_append atEnd hfraction hdigit' hdot'
  obtain ⟨x, hx⟩ := exponentPart_append atEnd hexponent hdigit hmark
  simp only [List.append_assoc]
  exact ⟨_, numeral_of_parts hsign hwhole (stops_fraction hfraction rfl hdigit') hf hx⟩

/-! A number starts like nothing else does. -/

theorem exists_cons_of_number (h : Number cs) :
    ∃ c tail, cs = c :: tail ∧ (c = '-' ∨ c.isDigit = true) := by
  obtain ⟨hsign, hwhole, -, -⟩ := h
  obtain ⟨d, ds, rfl⟩ := List.exists_cons_of_ne_nil hwhole.1.1
  simp only [List.mem_cons, List.not_mem_nil, or_false] at hsign
  obtain rfl | rfl := hsign
  · exact ⟨d, _, rfl, .inr (hwhole.1.2 d (List.mem_cons_self ..))⟩
  · exact ⟨'-', _, rfl, .inl rfl⟩

theorem ne_of_opens_number {d : Char} (hc : c = '-' ∨ c.isDigit = true)
    (hd : ¬(d = '-' ∨ d.isDigit = true)) : c ≠ d := by
  rintro rfl
  exact hd hc

theorem isBlank_of_opens_number (hc : c = '-' ∨ c.isDigit = true) : isBlank c = false := by
  simp [isBlank, ne_of_opens_number hc]

/-! ### Integers -/

theorem digits_toDigits (n : Nat) : Digits (Nat.toDigits 10 n) :=
  ⟨Nat.toDigits_ne_nil, fun _ hc => Nat.isDigit_of_mem_toDigits (by decide) (by decide) hc⟩

theorem whole_toDigits (n : Nat) : Whole (Nat.toDigits 10 n) := by
  refine ⟨digits_toDigits n, fun hzero => ?_⟩
  rw [eq_zero_of_head?_toDigits (by decide) (by decide) hzero]
  rfl

theorem sign_integer (i : Int) : (if i < 0 then ['-'] else []) ∈ [[], ['-']] := by
  split <;> decide

theorem number_integer (i : Int) : Number (integer i) := by
  have h := Number.intro (sign_integer i) (whole_toDigits i.natAbs) .none .none
  rwa [List.append_nil, List.append_nil] at h

theorem numeral_integer (atEnd : Fault) (i : Int) (hrest : Ends rest) :
    numeral atEnd (integer i ++ rest) = .ok (Numeral.ofInt i, rest) := by
  have hnegative : decide ((if i < 0 then ['-'] else []) = ['-']) = decide (i < 0) := by
    split <;> simp_all
  rw [integer, List.append_assoc, Numeral.ofInt, ← hnegative]
  exact numeral_of_parts (sign_integer i) (whole_toDigits i.natAbs) (stops_of_ends hrest rfl)
    (fractionPart_eq_none (stops_of_ends hrest rfl))
    (exponentPart_eq_none (stops_of_ends hrest rfl))

/-! ### Strings -/

theorem hexValue?_eq_some (h : HexDigit n c) : hexValue? c = some n := by
  obtain ⟨hn, rfl | rfl⟩ := h
  · revert n
    decide
  · revert n
    decide

theorem codeUnit_append (h : CodeUnit u ds) (rest : List Char) :
    codeUnit (ds ++ rest) = .ok (u, rest) := by
  obtain ⟨hp, hq, hr, hs⟩ := h
  simp only [List.cons_append, List.nil_append, codeUnit, hexValue?_eq_some hp,
    hexValue?_eq_some hq, hexValue?_eq_some hr, hexValue?_eq_some hs]

theorem stringBody_quote (strict : Bool) (read rest : List Char) :
    stringBody strict read ('"' :: rest) = .ok (String.ofList read.reverse, rest) := by
  rw [stringBody, if_pos rfl]

theorem stringBody_plain (hc : Plain c) (rest : List Char) :
    stringBody strict read (c :: rest) = stringBody strict (c :: read) rest := by
  obtain ⟨hquote, hbackslash, hcontrol⟩ := hc
  rw [stringBody, if_neg hquote, if_neg hbackslash, if_neg (Nat.not_lt.mpr hcontrol)]

theorem stringBody_escape (h : escape strict cs = .ok (c, rest)) :
    stringBody strict read ('\\' :: cs) = stringBody strict (c :: read) rest := by
  rw [stringBody, if_neg (by decide), if_pos rfl]
  split
  · rename_i heq
    rw [h] at heq
    cases heq
  · rename_i heq
    rw [h] at heq
    cases heq
    rfl

theorem escape_short {form : Char} (h : (form, c) ∈ shortForms) (rest : List Char) :
    escape strict (form :: rest) = .ok (c, rest) := by
  simp only [shortForms, List.mem_cons, Prod.mk.injEq, List.not_mem_nil, or_false] at h
  rcases h with ⟨rfl, rfl⟩ | ⟨rfl, rfl⟩ | ⟨rfl, rfl⟩ | ⟨rfl, rfl⟩ | ⟨rfl, rfl⟩ | ⟨rfl, rfl⟩ |
    ⟨rfl, rfl⟩ | ⟨rfl, rfl⟩ <;> rfl

/-! A character is no surrogate, so the code unit that escapes it is read as itself. -/

theorem escape_unit (h : CodeUnit c.toNat ds) (rest : List Char) :
    escape strict ('u' :: (ds ++ rest)) = .ok (c, rest) := by
  have hvalid : c.toNat < 0xD800 ∨ 0xDFFF < c.toNat ∧ c.toNat < 0x110000 := c.valid
  rw [escape, if_pos rfl, unicodeEscape, codeUnit_append h]
  dsimp only
  rw [if_neg (by omega), if_neg (by omega), Char.ofNat_toNat]

theorem lowSurrogate_append {high low : Nat} (h : CodeUnit low ds) (rest : List Char) :
    lowSurrogate high ('\\' :: 'u' :: (ds ++ rest)) =
      if 0xDC00 ≤ low ∧ low < 0xE000 then .ok (joinSurrogates high low, rest)
      else .error .malformed := by
  have hword : word ['\\', 'u'] ('\\' :: 'u' :: (ds ++ rest)) = .ok (ds ++ rest) :=
    word_append ['\\', 'u'] (ds ++ rest)
  rw [lowSurrogate, hword]
  dsimp only [bind, Except.bind]
  rw [codeUnit_append h]

theorem escape_pair (hc : 0x10000 ≤ c.toNat)
    (hds : CodeUnit (0xD800 + (c.toNat - 0x10000) / 0x400) ds)
    (hes : CodeUnit (0xDC00 + (c.toNat - 0x10000) % 0x400) es) (rest : List Char) :
    escape strict ('u' :: (ds ++ '\\' :: 'u' :: (es ++ rest))) = .ok (c, rest) := by
  have hvalid : c.toNat < 0xD800 ∨ 0xDFFF < c.toNat ∧ c.toNat < 0x110000 := c.valid
  have hvalue : 0x10000 + (0xD800 + (c.toNat - 0x10000) / 0x400 - 0xD800) * 0x400 +
      (0xDC00 + (c.toNat - 0x10000) % 0x400 - 0xDC00) = c.toNat := by
    omega
  rw [escape, if_pos rfl, unicodeEscape, codeUnit_append hds]
  dsimp only
  rw [if_neg (by omega), if_pos (by omega), lowSurrogate_append hes, if_pos (by omega)]
  dsimp only
  rw [joinSurrogates, hvalue, Char.ofNat_toNat]

theorem stringBody_literal (h : Literal text body) (rest : List Char) :
    stringBody strict read (body ++ '"' :: rest) =
      .ok (String.ofList (read.reverse ++ text), rest) := by
  induction h generalizing read with
  | nil => rw [List.append_nil, List.nil_append, stringBody_quote]
  | @plain c text body hc _ ih =>
      have hread : (c :: read).reverse ++ text = read.reverse ++ c :: text := by simp
      rw [List.cons_append, stringBody_plain hc, ih, hread]
  | @short form c text body hc _ ih =>
      have hread : (c :: read).reverse ++ text = read.reverse ++ c :: text := by simp
      rw [List.cons_append, List.cons_append, stringBody_escape (escape_short hc _), ih, hread]
  | @unit c text ds body hds _ ih =>
      have hread : (c :: read).reverse ++ text = read.reverse ++ c :: text := by simp
      rw [List.cons_append, List.cons_append, List.append_assoc,
        stringBody_escape (escape_unit hds _), ih, hread]
  | @pair c text ds es body hc hds hes _ ih =>
      have hread : (c :: read).reverse ++ text = read.reverse ++ c :: text := by simp
      rw [List.cons_append, List.cons_append, List.append_assoc, List.cons_append,
        List.cons_append, List.append_assoc, stringBody_escape (escape_pair hc hds hes _), ih, hread]

end Scan

namespace Numeral

theorem ofDigits_digits (n : Nat) : ofDigits (Numeral.digits n) = n :=
  Nat.ofDigitChars_ten_toDigits

theorem toInt?_ofInt (i : Int) : (ofInt i).toInt? = some i := by
  simp only [toInt?, ofInt, ofDigits_digits, decide_eq_true_eq]
  split
  · rw [if_neg (by omega)]
    congr 1
    omega
  · congr 1
    omega

end Numeral

/-! ### What is printed -/

theorem Numeral.chars_ofInt (i : Int) : (ofInt i).chars = Grammar.integer i := by
  simp [chars, ofInt, Grammar.integer, Numeral.digits]

namespace Json

theorem codeUnit_hexDigits4 {n : Nat} (hn : n < 0x10000) : CodeUnit n (hexDigits4 n) := by
  have hdigit (m : Nat) : HexDigit (m % 16) (m % 16).digitChar :=
    ⟨Nat.mod_lt m (by decide), .inl rfl⟩
  have hvalue : ((n / 4096 % 16 * 16 + n / 256 % 16) * 16 + n / 16 % 16) * 16 + n / 1 % 16 = n := by
    omega
  have hunit := CodeUnit.digits (hdigit (n / 4096)) (hdigit (n / 256)) (hdigit (n / 16))
    (hdigit (n / 1))
  rwa [hvalue] at hunit

theorem mem_shortForms_of_shortForm? {form c : Char} (h : shortForm? c = some form) :
    (form, c) ∈ shortForms := by
  rw [shortForm?.eq_def] at h
  split at h
  case h_6 =>
    split at h
    · rename_i hbackspace
      cases h
      rw [hbackspace]
      decide
    · rw [Option.ite_none_right_eq_some] at h
      obtain ⟨hfeed, hform⟩ := h
      cases hform
      rw [hfeed]
      decide
  all_goals
    cases h
    decide

theorem plain_of_shortForm?_eq_none {c : Char} (h : shortForm? c = none) (hc : 0x20 ≤ c.toNat) :
    Plain c := by
  refine ⟨?_, ?_, hc⟩ <;>
  · rintro rfl
    cases h

theorem literal_escaped (text : List Char) : Literal text (text.flatMap escaped) := by
  induction text with
  | nil => exact .nil
  | cons c text ih =>
      rw [List.flatMap_cons, escaped]
      cases hform : shortForm? c with
      | some form => exact .short (mem_shortForms_of_shortForm? hform) ih
      | none =>
          dsimp only
          split
          · rename_i hcontrol
            exact .unit (codeUnit_hexDigits4 (by omega)) ih
          · rename_i hprinted
            exact .plain (plain_of_shortForm?_eq_none hform (Nat.le_of_not_lt hprinted)) ih

end Json

end AudioIntake
