import AudioIntake.Json.Magnitude
import AudioIntake.Json.Scan

/-!
# Typed values in JSON

A codec reads values of one type from text, reads them from a JSON value, and writes them as one.
Reading from text is a single pass: the first problem met is the answer, so a value of the wrong
type is reported before anything behind it is looked at. A record is an object, whose unknown
members are skipped and whose absent ones keep their defaults, or an array in the order of its
fields.
-/

namespace AudioIntake

structure Codec (α : Type) where
  scan : List Char → Except Fault (α × List Char)
  ofValue : Json → Option α
  toValue : α → Json

namespace Codec

open Scan

def startsNumber (c : Char) : Bool := c = '-' || c.isDigit

/-- Why a number is not the integer wanted. -/
def numberFault (n : Numeral) : Fault := if n.overflows then .malformed else .mismatch

/-- The fault of a value of another type: a scalar has to be well-formed, while an array or object
is refused at its first character. -/
def unexpected (c : Char) (rest : List Char) : Fault :=
  if c = '[' ∨ c = '\x7b' then .mismatch
  else if startsNumber c then
    match numeral .truncated (c :: rest) with
    | .error e => e
    | .ok (n, _) => numberFault n
  else if c = '"' then
    match stringBody true [] rest with
    | .error e => e
    | .ok _ => .mismatch
  else
    let name : Option (List Char) :=
      if c = 'n' then some ['u', 'l', 'l']
      else if c = 't' then some ['r', 'u', 'e']
      else if c = 'f' then some ['a', 'l', 's', 'e']
      else none
    match name with
    | none => .malformed
    | some ws =>
      match word ws rest with
      | .error e => e
      | .ok _ => .mismatch

def integer (least greatest : Int) : Codec Int where
  scan cs := do
    let (c, rest) ← nextChar cs
    if startsNumber c then
      let (n, rest) ← numeral .truncated (c :: rest)
      match n.toInt? with
      | some i => if least ≤ i ∧ i ≤ greatest then return (i, rest) else .error (numberFault n)
      | none => .error (numberFault n)
    else .error (unexpected c rest)
  ofValue
    | .number n => n.toInt?.filter fun i => least ≤ i ∧ i ≤ greatest
    | _ => none
  toValue := .int

/-- Values written as text, where `read` accepts some texts only. -/
def text {α : Type} (read : String → Option α) (write : α → String) : Codec α where
  scan cs := do
    let (c, rest) ← nextChar cs
    if c = '"' then
      let (s, rest) ← stringBody true [] rest
      match read s with
      | some a => return (a, rest)
      | none => .error .mismatch
    else .error (unexpected c rest)
  ofValue
    | .string s => read s
    | _ => none
  toValue a := .string (write a)

def map {α β : Type} (codec : Codec α) (f : α → β) (back : β → α) : Codec β where
  scan cs := (codec.scan cs).map fun (a, rest) => (f a, rest)
  ofValue v := (codec.ofValue v).map f
  toValue b := codec.toValue (back b)

def optional {α : Type} (codec : Codec α) : Codec (Option α) where
  scan cs := do
    let (c, rest) ← nextChar cs
    if c = 'n' then
      let rest ← word ['u', 'l', 'l'] rest
      return (none, rest)
    else (codec.scan cs).map fun (a, rest) => (some a, rest)
  ofValue
    | .null => some none
    | v => (codec.ofValue v).map some
  toValue
    | none => .null
    | some a => codec.toValue a

/-- The comma in front of every element but the first. -/
def separator (first : Bool) (cs : List Char) : Except Fault (List Char) :=
  if first then .ok cs else expect ',' cs

/-- The elements of an array up to its closing bracket. Every element takes a character at least,
so the length of the text is fuel enough. -/
def scanItems {α : Type} (item : Codec α) :
    Nat → Bool → List Char → Except Fault (List α × List Char)
  | 0, _, _ => .error .truncated
  | fuel + 1, first, cs => do
    let (c, rest) ← nextChar cs
    if c = ']' then return ([], rest)
    else
      let cs ← separator first cs
      let (a, cs) ← item.scan cs
      let (as, cs) ← scanItems item fuel false cs
      return (a :: as, cs)

def list {α : Type} (item : Codec α) : Codec (List α) where
  scan cs := do
    let (c, rest) ← nextChar cs
    if c = '[' then scanItems item (rest.length + 1) true rest
    else .error (unexpected c rest)
  ofValue
    | .array vs => vs.mapM item.ofValue
    | _ => none
  toValue as := .array (as.map item.toValue)

end Codec

structure Field (σ : Type) where
  name : String
  scan : List Char → Except Fault ((σ → σ) × List Char)
  ofValue : Json → Option (σ → σ)
  toValue : σ → Json

namespace Field

open Scan

def of {σ α : Type} (name : String) (codec : Codec α) (get : σ → α) (set : α → σ → σ) : Field σ where
  name
  scan cs := (codec.scan cs).map fun (a, rest) => (set a, rest)
  ofValue v := (codec.ofValue v).map set
  toValue s := codec.toValue (get s)

/-- The members of an object up to its closing brace. A field that has been seen may not come again,
which shows as soon as its name has been read. -/
def scanMembers {σ : Type} (fields : List (Field σ)) :
    Nat → Bool → List String → σ → List Char → Except Fault (σ × List Char)
  | 0, _, _, _, _ => .error .truncated
  | fuel + 1, first, seen, s, cs => do
    let (c, rest) ← nextChar cs
    if c = '\x7d' then return (s, rest)
    else
      let cs ← Codec.separator first cs
      let (name, cs) ← memberName true cs
      match fields.find? (·.name = name) with
      | some f =>
        if name ∈ seen then .error .mismatch
        else
          let cs ← expect ':' cs
          let (set, cs) ← f.scan cs
          scanMembers fields fuel false (name :: seen) (set s) cs
      | none =>
        let cs ← expect ':' cs
        let (_, cs) ← Scan.value cs
        scanMembers fields fuel false seen s cs

/-- The elements of an array that gives the fields in order, as many of them as it has. -/
def scanElements {σ : Type} : List (Field σ) → Bool → σ → List Char → Except Fault (σ × List Char)
  | [], _, s, cs => do
    let rest ← expect ']' cs
    return (s, rest)
  | f :: fields, first, s, cs => do
    let (c, rest) ← nextChar cs
    if c = ']' then return (s, rest)
    else
      let cs ← Codec.separator first cs
      let (set, cs) ← f.scan cs
      scanElements fields false (set s) cs

def store {σ : Type} (s : σ) : List (Field σ × Option Json) → Option σ
  | [] => some s
  | (_, none) :: given => store s given
  | (f, some v) :: given =>
    match f.ofValue v with
    | some set => store (set s) given
    | none => none

end Field

namespace Codec

open Scan

/-- A record with these fields, which take the values of `default` where they are not given. -/
def record {σ : Type} (fields : List (Field σ)) (default : σ) : Codec σ where
  scan cs := do
    let (c, rest) ← nextChar cs
    if c = '\x7b' then Field.scanMembers fields (rest.length + 1) true [] default rest
    else if c = '[' then Field.scanElements fields true default rest
    else .error (unexpected c rest)
  ofValue
    | .object members => Field.store default (fields.map fun f => (f, Json.member? members f.name))
    | .array vs =>
      if vs.length ≤ fields.length then Field.store default (fields.zip (vs.map some)) else none
    | _ => none
  toValue s := .object (fields.map fun f => (f.name, f.toValue s))

end Codec

end AudioIntake
