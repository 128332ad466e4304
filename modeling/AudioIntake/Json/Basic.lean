/-!
# JSON values

Values keep their numbers as written, since a setting tells `10` from `10.0` and `1e1`, and their
members in the order and number in which they stand.
-/

namespace AudioIntake

/-- What is wrong with a text that should hold a value of a certain type. -/
inductive Fault where
  | truncated
  | malformed
  | mismatch
deriving DecidableEq

namespace Fault

def category : Fault → String
  | truncated => "eof"
  | malformed => "syntax"
  | mismatch => "data"

end Fault

/-- A number as written: digits with an optional fraction and exponent. -/
structure Numeral where
  negative : Bool
  whole : List Char
  fraction : Option (List Char)
  exponent : Option (Bool × List Char)
deriving DecidableEq

namespace Numeral

def ofDigits (digits : List Char) : Nat :=
  digits.foldl (fun n c => 10 * n + (c.toNat - 48)) 0

def digits (n : Nat) : List Char := Nat.toDigits 10 n

def ofInt (n : Int) : Numeral :=
  { negative := n < 0, whole := digits n.natAbs, fraction := none, exponent := none }

/-- The integer that is written. A fraction, an exponent or a negative zero makes it none. -/
def toInt? (n : Numeral) : Option Int :=
  match n.fraction, n.exponent with
  | none, none =>
    let magnitude := ofDigits n.whole
    if n.negative then
      if magnitude = 0 then none else some (-magnitude)
    else some magnitude
  | _, _ => none

def chars (n : Numeral) : List Char :=
  (if n.negative then ['-'] else []) ++ n.whole
    ++ (match n.fraction with
        | none => []
        | some ds => '.' :: ds)
    ++ (match n.exponent with
        | none => []
        | some (negative, ds) => 'e' :: (if negative then '-' :: ds else ds))

end Numeral

inductive Json where
  | null
  | bool (value : Bool)
  | number (value : Numeral)
  | string (value : String)
  | array (items : List Json)
  | object (members : List (String × Json))

namespace Json

def int (n : Int) : Json := number (Numeral.ofInt n)

def nat (n : Nat) : Json := int n

def member? (members : List (String × Json)) (name : String) : Option Json :=
  members.reverse.lookup name

def hexDigits4 (n : Nat) : List Char :=
  [4096, 256, 16, 1].map fun unit => Nat.digitChar (n / unit % 16)

/-- The character that stands behind a backslash for another one, where there is such a short form. -/
def shortForm? : Char → Option Char
  | '"' => some '"'
  | '\\' => some '\\'
  | '\n' => some 'n'
  | '\t' => some 't'
  | '\r' => some 'r'
  | c => if c = Char.ofNat 8 then some 'b' else if c = Char.ofNat 12 then some 'f' else none

/-- A character inside quotes. Quotes, backslashes and control characters are escaped, in the short
form if there is one. -/
def escaped (c : Char) : List Char :=
  match shortForm? c with
  | some form => ['\\', form]
  | none => if c.toNat < 0x20 then '\\' :: 'u' :: hexDigits4 c.toNat else [c]

def quoted (text : String) : List Char := '"' :: (text.toList.flatMap escaped ++ ['"'])

mutual

/-- The shortest text of a value: no blanks anywhere. -/
def chars : Json → List Char
  | null => ['n', 'u', 'l', 'l']
  | bool true => ['t', 'r', 'u', 'e']
  | bool false => ['f', 'a', 'l', 's', 'e']
  | number n => n.chars
  | string text => quoted text
  | array items => '[' :: itemsChars items
  | object members => '\x7b' :: membersChars members

def itemsChars : List Json → List Char
  | [] => [']']
  | [v] => v.chars ++ [']']
  | v :: vs => v.chars ++ ',' :: itemsChars vs

def membersChars : List (String × Json) → List Char
  | [] => ['\x7d']
  | [(name, v)] => quoted name ++ ':' :: v.chars ++ ['\x7d']
  | (name, v) :: ms => quoted name ++ ':' :: v.chars ++ ',' :: membersChars ms

end

def print (v : Json) : String := String.ofList v.chars

end Json

end AudioIntake
