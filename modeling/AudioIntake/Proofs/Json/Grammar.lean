import AudioIntake.Json.Basic

/-!
# The grammar of JSON text

What the text of a number, a string and any value looks like, as relations that read nothing. A
string that is wanted for its text relates to that text, so it holds no lone surrogate; a string
inside a value that is skipped may hold any escape.
-/

namespace AudioIntake

namespace Grammar

/-- What may stand between two tokens. -/
def Blanks (cs : List Char) : Prop := ∀ c ∈ cs, c ∈ [' ', '\n', '\t', '\r']

/-- A value ends where one of these follows, or nothing does. -/
def Ends (rest : List Char) : Prop :=
  ∀ c ∈ rest.head?, c ∈ [' ', '\n', '\t', '\r', ',', ']', '\x7d']

/-! ### Numbers -/

def Digits (cs : List Char) : Prop := cs ≠ [] ∧ ∀ c ∈ cs, c.isDigit = true

/-- No zero stands in front of further digits. -/
def Whole (cs : List Char) : Prop := Digits cs ∧ (cs.head? = some '0' → cs = ['0'])

inductive Fraction : List Char → Prop where
  | none : Fraction []
  | some {ds : List Char} (hds : Digits ds) : Fraction ('.' :: ds)

inductive Exponent : List Char → Prop where
  | none : Exponent []
  | some {mark : Char} {sign ds : List Char} (hmark : mark ∈ ['e', 'E'])
      (hsign : sign ∈ [[], ['+'], ['-']]) (hds : Digits ds) : Exponent (mark :: (sign ++ ds))

inductive Number : List Char → Prop where
  | intro {sign whole fraction exponent : List Char} (hsign : sign ∈ [[], ['-']])
      (hwhole : Whole whole) (hfraction : Fraction fraction) (hexponent : Exponent exponent) :
      Number (sign ++ (whole ++ (fraction ++ exponent)))

/-- The one text of an integer: a zero has no sign. -/
def integer (i : Int) : List Char := (if i < 0 then ['-'] else []) ++ Nat.toDigits 10 i.natAbs

/-! ### Strings -/

/-- Inside quotes the character stands for itself. -/
def Plain (c : Char) : Prop := c ≠ '"' ∧ c ≠ '\\' ∧ 0x20 ≤ c.toNat

/-- What is written behind a backslash, and the character that it stands for. -/
def shortForms : List (Char × Char) :=
  [('"', '"'), ('\\', '\\'), ('/', '/'), ('b', Char.ofNat 8), ('f', Char.ofNat 12), ('n', '\n'),
    ('r', '\r'), ('t', '\t')]

def HexDigit (n : Nat) (c : Char) : Prop := n < 16 ∧ (c = n.digitChar ∨ c = n.digitChar.toUpper)

/-- Four hexadecimal digits, of either case, write a code unit. -/
inductive CodeUnit : Nat → List Char → Prop where
  | digits {p q r s : Nat} {a b c d : Char} (hp : HexDigit p a) (hq : HexDigit q b)
      (hr : HexDigit r c) (hs : HexDigit s d) :
      CodeUnit (((p * 16 + q) * 16 + r) * 16 + s) [a, b, c, d]

/-- What may stand between the quotes of a string that means this text. A character beyond the
first 65536 is escaped as its two surrogates. -/
inductive Literal : List Char → List Char → Prop where
  | nil : Literal [] []
  | plain {c : Char} {text cs : List Char} (hc : Plain c) (h : Literal text cs) :
      Literal (c :: text) (c :: cs)
  | short {form c : Char} {text cs : List Char} (hc : (form, c) ∈ shortForms)
      (h : Literal text cs) : Literal (c :: text) ('\\' :: form :: cs)
  | unit {c : Char} {text ds cs : List Char} (hds : CodeUnit c.toNat ds) (h : Literal text cs) :
      Literal (c :: text) ('\\' :: 'u' :: (ds ++ cs))
  | pair {c : Char} {text ds es cs : List Char} (hc : 0x10000 ≤ c.toNat)
      (hds : CodeUnit (0xD800 + (c.toNat - 0x10000) / 0x400) ds)
      (hes : CodeUnit (0xDC00 + (c.toNat - 0x10000) % 0x400) es) (h : Literal text cs) :
      Literal (c :: text) ('\\' :: 'u' :: (ds ++ '\\' :: 'u' :: (es ++ cs)))

/-- What may stand between the quotes of any string. -/
inductive Body : List Char → Prop where
  | nil : Body []
  | plain {c : Char} {cs : List Char} (hc : Plain c) (h : Body cs) : Body (c :: cs)
  | short {form c : Char} {cs : List Char} (hc : (form, c) ∈ shortForms) (h : Body cs) :
      Body ('\\' :: form :: cs)
  | unit {u : Nat} {ds cs : List Char} (hds : CodeUnit u ds) (h : Body cs) :
      Body ('\\' :: 'u' :: (ds ++ cs))

/-! ### Arrays and objects -/

/-- Items with commas between them and blanks around them. The `first` has no comma in front. -/
inductive Sequence {α : Type} (Spells : α → List Char → Prop) :
    Bool → List α → List Char → Prop where
  | nil {first : Bool} {b : List Char} (hb : Blanks b) : Sequence Spells first [] b
  | cons {first : Bool} {a : α} {as : List α} {b b' cs rest : List Char} (hb : Blanks b)
      (hb' : Blanks b') (ha : Spells a cs) (h : Sequence Spells false as rest) :
      Sequence Spells first (a :: as)
        (b ++ ((if first then [] else [',']) ++ (b' ++ (cs ++ rest))))

/-- A member of an object: its name in quotes, a colon, and its value. -/
inductive Member : List Char → List Char → List Char → Prop where
  | intro {body b b' value : List Char} (hb : Blanks b) (hb' : Blanks b') :
      Member body value ('"' :: (body ++ '"' :: (b ++ ':' :: (b' ++ value))))

/-- The texts of JSON values, without blanks around them. -/
inductive WellFormed : List Char → Prop where
  | null : WellFormed ['n', 'u', 'l', 'l']
  | true : WellFormed ['t', 'r', 'u', 'e']
  | false : WellFormed ['f', 'a', 'l', 's', 'e']
  | number {cs : List Char} (h : Number cs) : WellFormed cs
  | string {body : List Char} (h : Body body) : WellFormed ('"' :: (body ++ ['"']))
  | array {items : List (List Char)} {cs : List Char} (h : ∀ v ∈ items, WellFormed v)
      (hcs : Sequence Eq true items cs) : WellFormed ('[' :: (cs ++ [']']))
  | object {members : List (List Char × List Char)} {cs : List Char}
      (hnames : ∀ m ∈ members, Body m.1) (hvalues : ∀ m ∈ members, WellFormed m.2)
      (hcs : Sequence (fun m => Member m.1 m.2) true members cs) :
      WellFormed ('\x7b' :: (cs ++ ['\x7d']))

variable {c : Char} {u : Nat} {b b' cs ds rest : List Char}

/-! ### Blanks and ends -/

theorem blanks_nil : Blanks [] := nofun

theorem Blanks.append (hb : Blanks b) (hb' : Blanks b') : Blanks (b ++ b') := by
  intro c hc
  obtain hc | hc := List.mem_append.mp hc
  · exact hb c hc
  · exact hb' c hc

theorem ends_cons (h : c ∈ [' ', '\n', '\t', '\r', ',', ']', '\x7d']) : Ends (c :: rest) := by
  rintro _ ⟨⟩
  exact h

theorem Ends.blanks_append (hb : Blanks b) (hrest : Ends rest) : Ends (b ++ rest) := by
  cases b with
  | nil => exact hrest
  | cons c b =>
      exact ends_cons (List.mem_append_left [',', ']', '\x7d'] (hb c (List.mem_cons_self ..)))

/-- An item of a sequence is followed by blanks, a comma or whatever stands behind the sequence. -/
theorem Sequence.ends {α : Type} {Spells : α → List Char → Prop} {as : List α}
    (h : Sequence Spells false as cs) (hrest : Ends rest) : Ends (cs ++ rest) := by
  cases h with
  | nil hb => exact hrest.blanks_append hb
  | cons hb =>
      rw [List.append_assoc]
      exact (ends_cons (by decide)).blanks_append hb

end Grammar

end AudioIntake
