import AudioIntake.Json.Basic

/-!
# Reading JSON text

Text is read once from left to right, and the first fault met is the answer. `Scan.value` reads any
value. It keeps the open arrays and objects on a stack of frames, so that nesting costs no depth of
recursion. A lone surrogate escape is refused where a string is wanted for its text and read as the
replacement character where the string is skipped.
-/

namespace AudioIntake

namespace Scan

theorem bind_eq_ok_iff {α β : Type} {x : Except Fault α} {f : α → Except Fault β} {b : β} :
    (x >>= f) = .ok b ↔ ∃ a, x = .ok a ∧ f a = .ok b := by
  cases x <;> simp [bind, Except.bind]

theorem map_eq_ok_iff {α β : Type} {x : Except Fault α} {f : α → β} {b : β} :
    x.map f = .ok b ↔ ∃ a, x = .ok a ∧ f a = b := by
  cases x <;> simp [Except.map]

def isBlank (c : Char) : Bool := c = ' ' || c = '\n' || c = '\t' || c = '\r'

def skipBlanks (cs : List Char) : List Char := cs.dropWhile isBlank

theorem length_skipBlanks_le (cs : List Char) : (skipBlanks cs).length ≤ cs.length :=
  (List.dropWhile_sublist isBlank).length_le

def word : List Char → List Char → Except Fault (List Char)
  | [], cs => .ok cs
  | _ :: _, [] => .error .truncated
  | w :: ws, c :: cs => if c = w then word ws cs else .error .malformed

theorem length_of_word {ws cs rest : List Char} (h : word ws cs = .ok rest) :
    rest.length ≤ cs.length := by
  induction ws generalizing cs with
  | nil => simp_all [word]
  | cons w ws ih =>
    cases cs with
    | nil => simp [word] at h
    | cons c cs =>
      simp only [word] at h
      split at h
      · have := ih h
        simp only [List.length_cons]
        omega
      · cases h

/-! ### Numbers -/

/-- At least one digit. `atEnd` is the fault when the text ends instead. -/
def digits (atEnd : Fault) (cs : List Char) : Except Fault (List Char × List Char) :=
  match cs with
  | [] => .error atEnd
  | c :: _ =>
    if c.isDigit then .ok (cs.takeWhile Char.isDigit, cs.dropWhile Char.isDigit)
    else .error .malformed

/-- The digits in front of the fraction: no leading zero unless it stands alone. -/
def wholePart (atEnd : Fault) (cs : List Char) : Except Fault (List Char × List Char) :=
  match cs with
  | '0' :: c :: rest => if c.isDigit then .error .malformed else .ok (['0'], c :: rest)
  | _ => digits atEnd cs

def fractionPart (atEnd : Fault) (cs : List Char) :
    Except Fault (Option (List Char) × List Char) :=
  match cs with
  | '.' :: rest => (digits atEnd rest).map fun (ds, rest) => (some ds, rest)
  | _ => .ok (none, cs)

def exponentPart (atEnd : Fault) (cs : List Char) :
    Except Fault (Option (Bool × List Char) × List Char) :=
  match cs with
  | [] => .ok (none, [])
  | c :: rest =>
    if c = 'e' ∨ c = 'E' then
      match rest with
      | '-' :: rest => (digits atEnd rest).map fun (ds, rest) => (some (true, ds), rest)
      | '+' :: rest => (digits atEnd rest).map fun (ds, rest) => (some (false, ds), rest)
      | _ => (digits atEnd rest).map fun (ds, rest) => (some (false, ds), rest)
    else .ok (none, cs)

def sign (cs : List Char) : Bool × List Char :=
  match cs with
  | '-' :: rest => (true, rest)
  | _ => (false, cs)

def numeral (atEnd : Fault) (cs : List Char) : Except Fault (Numeral × List Char) := do
  let (negative, cs) := sign cs
  let (whole, cs) ← wholePart atEnd cs
  let (fraction, cs) ← fractionPart atEnd cs
  let (exponent, cs) ← exponentPart atEnd cs
  return ({ negative, whole, fraction, exponent }, cs)

theorem length_sign_le (cs : List Char) : (sign cs).2.length ≤ cs.length := by
  unfold sign
  split <;> simp

theorem length_of_digits {atEnd : Fault} {cs : List Char} {r : List Char × List Char}
    (h : digits atEnd cs = .ok r) : r.2.length < cs.length := by
  cases cs with
  | nil => simp [digits] at h
  | cons c cs =>
    simp only [digits] at h
    split at h
    next hc =>
      cases h
      have := (List.dropWhile_sublist Char.isDigit (l := cs)).length_le
      simp only [List.dropWhile_cons, hc, ite_true, List.length_cons]
      omega
    next => cases h

theorem length_of_wholePart {atEnd : Fault} {cs : List Char} {r : List Char × List Char}
    (h : wholePart atEnd cs = .ok r) : r.2.length < cs.length := by
  unfold wholePart at h
  split at h
  · split at h
    · cases h
    · cases h
      simp
  · exact length_of_digits h

theorem length_of_fractionPart {atEnd : Fault} {cs : List Char}
    {r : Option (List Char) × List Char} (h : fractionPart atEnd cs = .ok r) :
    r.2.length ≤ cs.length := by
  unfold fractionPart at h
  split at h
  · obtain ⟨v, hd, rfl⟩ := map_eq_ok_iff.mp h
    exact Nat.le_succ_of_le (Nat.le_of_lt (length_of_digits hd))
  · cases h
    simp

theorem length_of_exponentPart {atEnd : Fault} {cs : List Char}
    {r : Option (Bool × List Char) × List Char} (h : exponentPart atEnd cs = .ok r) :
    r.2.length ≤ cs.length := by
  have step (negative : Bool) (rest : List Char)
      (h : (digits atEnd rest).map (fun (ds, rest) => (some (negative, ds), rest)) = .ok r) :
      r.2.length ≤ rest.length := by
    obtain ⟨v, hd, rfl⟩ := map_eq_ok_iff.mp h
    exact Nat.le_of_lt (length_of_digits hd)
  unfold exponentPart at h
  split at h
  · cases h
    simp
  · split at h
    · split at h
      all_goals
        have := step _ _ h
        simp only [List.length_cons] at this ⊢
        omega
    · cases h
      simp

theorem length_of_numeral {atEnd : Fault} {cs : List Char} {r : Numeral × List Char}
    (h : numeral atEnd cs = .ok r) : r.2.length < cs.length := by
  have h0 := length_sign_le cs
  unfold numeral at h
  generalize sign cs = signed at h h0
  obtain ⟨v1, h1, h⟩ := bind_eq_ok_iff.mp h
  obtain ⟨v2, h2, h⟩ := bind_eq_ok_iff.mp h
  obtain ⟨v3, h3, h⟩ := bind_eq_ok_iff.mp h
  cases h
  have := length_of_wholePart h1
  have := length_of_fractionPart h2
  have := length_of_exponentPart h3
  simp only
  omega

/-! ### Strings -/

def hexValue? (c : Char) : Option Nat :=
  if '0' ≤ c ∧ c ≤ '9' then some (c.toNat - 48)
  else if 'a' ≤ c ∧ c ≤ 'f' then some (c.toNat - 87)
  else if 'A' ≤ c ∧ c ≤ 'F' then some (c.toNat - 55)
  else none

/-- The code unit that four hexadecimal digits write. The text is truncated when fewer than four
octets are left of it. -/
def codeUnit (cs : List Char) : Except Fault (Nat × List Char) :=
  match cs with
  | a :: b :: c :: d :: rest =>
    match hexValue? a, hexValue? b, hexValue? c, hexValue? d with
    | some a, some b, some c, some d => .ok (((a * 16 + b) * 16 + c) * 16 + d, rest)
    | _, _, _, _ => .error .malformed
  | _ => if (String.ofList cs).utf8ByteSize < 4 then .error .truncated else .error .malformed

def joinSurrogates (high low : Nat) : Char :=
  Char.ofNat (0x10000 + (high - 0xD800) * 0x400 + (low - 0xDC00))

/-- The second half of a surrogate pair, whose first half was `high`. -/
def lowSurrogate (high : Nat) (cs : List Char) : Except Fault (Char × List Char) := do
  let rest ← word ['\\', 'u'] cs
  let (low, rest) ← codeUnit rest
  if 0xDC00 ≤ low ∧ low < 0xE000 then .ok (joinSurrogates high low, rest)
  else .error .malformed

def replacement : Char := Char.ofNat 0xFFFD

def unicodeEscape (strict : Bool) (cs : List Char) : Except Fault (Char × List Char) :=
  match codeUnit cs with
  | .error e => .error e
  | .ok (unit, rest) =>
    if 0xDC00 ≤ unit ∧ unit < 0xE000 then
      if strict then .error .malformed else .ok (replacement, rest)
    else if 0xD800 ≤ unit ∧ unit < 0xDC00 then
      match lowSurrogate unit rest with
      | .ok r => .ok r
      | .error e => if strict then .error e else .ok (replacement, rest)
    else .ok (Char.ofNat unit, rest)

def shortEscape? : Char → Option Char
  | '"' => some '"'
  | '\\' => some '\\'
  | '/' => some '/'
  | 'b' => some (Char.ofNat 8)
  | 'f' => some (Char.ofNat 12)
  | 'n' => some '\n'
  | 'r' => some '\r'
  | 't' => some '\t'
  | _ => none

def escape (strict : Bool) (cs : List Char) : Except Fault (Char × List Char) :=
  match cs with
  | [] => .error .truncated
  | c :: rest =>
    if c = 'u' then unicodeEscape strict rest
    else
      match shortEscape? c with
      | some d => .ok (d, rest)
      | none => .error .malformed

theorem length_of_codeUnit {cs : List Char} {r : Nat × List Char} (h : codeUnit cs = .ok r) :
    r.2.length < cs.length := by
  unfold codeUnit at h
  split at h
  · split at h
    · cases h
      simp only [List.length_cons]
      omega
    · cases h
  · split at h <;> cases h

theorem length_of_lowSurrogate {high : Nat} {cs : List Char} {r : Char × List Char}
    (h : lowSurrogate high cs = .ok r) : r.2.length < cs.length := by
  obtain ⟨rest, hw, h⟩ := bind_eq_ok_iff.mp h
  obtain ⟨⟨low, tail⟩, hu, h⟩ := bind_eq_ok_iff.mp h
  have := length_of_word hw
  have := length_of_codeUnit hu
  simp only at h this
  split at h
  · simp only [Except.ok.injEq] at h
    subst h
    simp only
    omega
  · cases h

theorem length_of_unicodeEscape {strict : Bool} {cs : List Char} {r : Char × List Char}
    (h : unicodeEscape strict cs = .ok r) : r.2.length < cs.length := by
  unfold unicodeEscape at h
  split at h
  · cases h
  next heq =>
    have hu := length_of_codeUnit heq
    split at h
    · split at h
      · cases h
      · cases h
        exact hu
    · split at h
      · split at h
        next hs =>
          have := length_of_lowSurrogate hs
          cases h
          simp only at hu
          omega
        next =>
          split at h
          · cases h
          · cases h
            exact hu
      · cases h
        exact hu

theorem length_of_escape {strict : Bool} {cs : List Char} {r : Char × List Char}
    (h : escape strict cs = .ok r) : r.2.length < cs.length := by
  unfold escape at h
  split at h
  · cases h
  · split at h
    · exact Nat.lt_succ_of_lt (length_of_unicodeEscape h)
    · split at h
      · cases h
        simp
      · cases h

/-- The characters of a string up to its closing quote, in front of which stand `read`, last first. -/
def stringBody (strict : Bool) (read : List Char) (cs : List Char) :
    Except Fault (String × List Char) :=
  match cs with
  | [] => .error .truncated
  | c :: rest =>
    if c = '"' then .ok (String.ofList read.reverse, rest)
    else if c = '\\' then
      match _h : escape strict rest with
      | .error e => .error e
      | .ok (c, rest') => stringBody strict (c :: read) rest'
    else if c.toNat < 0x20 then .error .malformed
    else stringBody strict (c :: read) rest
termination_by cs.length
decreasing_by
  · have := length_of_escape _h
    simp only [List.length_cons] at *
    omega
  · simp

theorem length_of_stringBody {strict : Bool} {read cs : List Char} {r : String × List Char}
    (h : stringBody strict read cs = .ok r) : r.2.length < cs.length := by
  fun_induction stringBody strict read cs with
  | case1 => cases h
  | case2 => cases h; simp
  | case3 => cases h
  | case4 _ _ _ _ he _ ih =>
    have := ih h
    have := length_of_escape he
    simp only [List.length_cons] at *
    omega
  | case5 => cases h
  | case6 _ _ _ _ _ _ ih =>
    have := ih h
    simp only [List.length_cons]
    omega

/-! ### Values of any type -/

/-- An array or object that has been opened, with what stands in it so far, last first. -/
inductive Frame where
  | array (items : List Json)
  | object (members : List (String × Json)) (name : String)

/-- The next character that is not blank, and what follows it. -/
def nextChar (cs : List Char) : Except Fault (Char × List Char) :=
  match skipBlanks cs with
  | [] => .error .truncated
  | c :: rest => .ok (c, rest)

def expect (wanted : Char) (cs : List Char) : Except Fault (List Char) := do
  let (c, rest) ← nextChar cs
  if c = wanted then .ok rest else .error .malformed

def memberName (strict : Bool) (cs : List Char) : Except Fault (String × List Char) := do
  let rest ← expect '"' cs
  stringBody strict [] rest

def memberStart (strict : Bool) (cs : List Char) : Except Fault (String × List Char) := do
  let (name, rest) ← memberName strict cs
  let rest ← expect ':' rest
  return (name, rest)

/-- What the first token of a value shows: a whole value, or the start of a longer one. -/
inductive Opening where
  | complete (value : Json)
  | enter (frame : Frame)

def openArray (cs : List Char) : Except Fault (Opening × List Char) := do
  let (c, rest) ← nextChar cs
  if c = ']' then return (.complete (.array []), rest)
  else return (.enter (.array []), cs)

def openObject (cs : List Char) : Except Fault (Opening × List Char) := do
  let (c, rest) ← nextChar cs
  if c = '\x7d' then return (.complete (.object []), rest)
  else
    let (name, rest) ← memberStart false cs
    return (.enter (.object [] name), rest)

/-- The first token of a value, and for an object the name of its first member. -/
def opening (cs : List Char) : Except Fault (Opening × List Char) := do
  let (c, rest) ← nextChar cs
  if c = 'n' then
    let rest ← word ['u', 'l', 'l'] rest
    return (.complete .null, rest)
  else if c = 't' then
    let rest ← word ['r', 'u', 'e'] rest
    return (.complete (.bool true), rest)
  else if c = 'f' then
    let rest ← word ['a', 'l', 's', 'e'] rest
    return (.complete (.bool false), rest)
  else if c = '"' then
    let (text, rest) ← stringBody false [] rest
    return (.complete (.string text), rest)
  else if c = '[' then openArray rest
  else if c = '\x7b' then openObject rest
  else if c = '-' ∨ c.isDigit then
    let (n, rest) ← numeral .malformed (c :: rest)
    return (.complete (.number n), rest)
  else .error .malformed

/-- What stands behind a value inside a frame: a closing bracket, which completes the frame's own
value, or a comma, after which another value has to follow. -/
def closing (frame : Frame) (value : Json) (cs : List Char) :
    Except Fault (Opening × List Char) := do
  let (c, rest) ← nextChar cs
  match frame with
  | .array items =>
    if c = ']' then return (.complete (.array (value :: items).reverse), rest)
    else if c = ',' then return (.enter (.array (value :: items)), rest)
    else .error .malformed
  | .object members name =>
    if c = '\x7d' then return (.complete (.object ((name, value) :: members).reverse), rest)
    else if c = ',' then
      let (next, rest) ← memberStart false rest
      return (.enter (.object ((name, value) :: members) next), rest)
    else .error .malformed

theorem length_of_nextChar {cs : List Char} {r : Char × List Char} (h : nextChar cs = .ok r) :
    r.2.length < cs.length := by
  unfold nextChar at h
  have := length_skipBlanks_le cs
  split at h
  · cases h
  next heq =>
    cases h
    rw [heq] at this
    exact this

theorem length_of_expect {wanted : Char} {cs rest : List Char} (h : expect wanted cs = .ok rest) :
    rest.length < cs.length := by
  obtain ⟨⟨c, tail⟩, hc, h⟩ := bind_eq_ok_iff.mp h
  have := length_of_nextChar hc
  simp only at h
  split at h
  · cases h
    exact this
  · cases h

theorem length_of_memberName {strict : Bool} {cs : List Char} {r : String × List Char}
    (h : memberName strict cs = .ok r) : r.2.length < cs.length := by
  obtain ⟨rest, hq, h⟩ := bind_eq_ok_iff.mp h
  have := length_of_expect hq
  have := length_of_stringBody h
  omega

theorem length_of_memberStart {strict : Bool} {cs : List Char} {r : String × List Char}
    (h : memberStart strict cs = .ok r) : r.2.length < cs.length := by
  obtain ⟨v, hn, h⟩ := bind_eq_ok_iff.mp h
  obtain ⟨rest, hc, h⟩ := bind_eq_ok_iff.mp h
  cases h
  have := length_of_memberName hn
  have := length_of_expect hc
  simp only
  omega

theorem length_of_openArray {cs : List Char} {r : Opening × List Char}
    (h : openArray cs = .ok r) : r.2.length ≤ cs.length := by
  obtain ⟨⟨c, rest⟩, hc, h⟩ := bind_eq_ok_iff.mp h
  have := length_of_nextChar hc
  simp only at h
  split at h <;> cases h
  · exact Nat.le_of_lt this
  · exact Nat.le_refl _

theorem length_of_openObject {cs : List Char} {r : Opening × List Char}
    (h : openObject cs = .ok r) : r.2.length ≤ cs.length := by
  obtain ⟨⟨c, rest⟩, hc, h⟩ := bind_eq_ok_iff.mp h
  have := length_of_nextChar hc
  simp only at h
  split at h
  · cases h
    exact Nat.le_of_lt this
  · obtain ⟨m, hm, h⟩ := bind_eq_ok_iff.mp h
    cases h
    exact Nat.le_of_lt (length_of_memberStart hm)

theorem length_of_opening {cs : List Char} {r : Opening × List Char} (h : opening cs = .ok r) :
    r.2.length < cs.length := by
  obtain ⟨⟨c, rest⟩, hc, h⟩ := bind_eq_ok_iff.mp h
  have hlt := length_of_nextChar hc
  simp only at h hlt
  have literal (ws : List Char) (v : Json)
      (h : (word ws rest >>= fun rest => pure (Opening.complete v, rest)) = .ok r) :
      r.2.length < cs.length := by
    obtain ⟨rest', hw, h⟩ := bind_eq_ok_iff.mp h
    cases h
    exact Nat.lt_of_le_of_lt (length_of_word hw) hlt
  split at h
  · exact literal _ _ h
  split at h
  · exact literal _ _ h
  split at h
  · exact literal _ _ h
  split at h
  · obtain ⟨v, hs, h⟩ := bind_eq_ok_iff.mp h
    cases h
    exact Nat.lt_trans (length_of_stringBody hs) hlt
  split at h
  · exact Nat.lt_of_le_of_lt (length_of_openArray h) hlt
  split at h
  · exact Nat.lt_of_le_of_lt (length_of_openObject h) hlt
  split at h
  · obtain ⟨v, hn, h⟩ := bind_eq_ok_iff.mp h
    cases h
    have := length_of_numeral hn
    simp only [List.length_cons] at this ⊢
    omega
  · cases h

theorem length_of_closing {frame : Frame} {value : Json} {cs : List Char}
    {r : Opening × List Char} (h : closing frame value cs = .ok r) : r.2.length < cs.length := by
  obtain ⟨⟨c, rest⟩, hc, h⟩ := bind_eq_ok_iff.mp h
  have hlt := length_of_nextChar hc
  simp only at h hlt
  split at h
  · split at h
    · cases h
      exact hlt
    split at h
    · cases h
      exact hlt
    · cases h
  · split at h
    · cases h
      exact hlt
    split at h
    · obtain ⟨m, hm, h⟩ := bind_eq_ok_iff.mp h
      cases h
      exact Nat.lt_trans (length_of_memberStart hm) hlt
    · cases h

/-- Goes on reading inside the frames. With `pending` a value has just been read. -/
def resume (frames : List Frame) (pending : Option Json) (cs : List Char) :
    Except Fault (Json × List Char) :=
  match pending, frames with
  | some value, [] => .ok (value, cs)
  | some value, frame :: outer =>
    match _h : closing frame value cs with
    | .error e => .error e
    | .ok (.complete value, rest) => resume outer (some value) rest
    | .ok (.enter frame, rest) => resume (frame :: outer) none rest
  | none, frames =>
    match _h : opening cs with
    | .error e => .error e
    | .ok (.complete value, rest) => resume frames (some value) rest
    | .ok (.enter frame, rest) => resume (frame :: frames) none rest
termination_by cs.length
decreasing_by
  · exact length_of_closing _h
  · exact length_of_closing _h
  · exact length_of_opening _h
  · exact length_of_opening _h

def value (cs : List Char) : Except Fault (Json × List Char) := resume [] none cs

end Scan

def Json.parse (text : String) : Except Fault Json := do
  let (v, rest) ← Scan.value text.toList
  match Scan.skipBlanks rest with
  | [] => return v
  | _ :: _ => .error .malformed

end AudioIntake
