import AudioIntake.Address.IPv4

/-!
# IPv6 addresses

Eight groups of sixteen bits in hexadecimal with colons between them. Two colons stand for one or
more groups of zero, at most once, and the last two groups may be written as an IPv4 address. The
written form abbreviates the longest run of two or more zero groups, the leftmost of equal ones, and
writes an IPv4-mapped address with its IPv4 part.
-/

namespace AudioIntake

structure IPv6 where
  groups : List UInt16
  length_groups : groups.length = 8
deriving DecidableEq

namespace IPv6

open Address

def ofGroups? (groups : List UInt16) : Option IPv6 :=
  if h : groups.length = 8 then some ⟨groups, h⟩ else none

/-! ### Reading -/

def groupFormat : NumberFormat :=
  { base := 16, maxDigits := some 4, leadingZeros := true, bound := 65536 }

/-- The colon in front of every group but the first. -/
def readSeparator (first : Bool) (cs : List Char) : Option (List Char) :=
  if first then some cs else readChar ':' cs

/-- As many groups as there are, up to a limit, and whether they end with an IPv4 address, which
takes the room of two. -/
def readGroups : Nat → Bool → List Char → List UInt16 × Bool × List Char
  | 0, _, cs => ([], false, cs)
  | limit + 1, first, cs =>
    match if 1 ≤ limit then readSeparator first cs >>= IPv4.read else none with
    | some (ip, rest) => (ip.groups, true, rest)
    | none =>
      match readSeparator first cs >>= readNumber groupFormat with
      | none => ([], false, cs)
      | some (g, rest) =>
        let (gs, embedded, rest) := readGroups limit false rest
        (UInt16.ofNat g :: gs, embedded, rest)

def read (cs : List Char) : Option (IPv6 × List Char) := do
  let (head, embedded, cs) := readGroups 8 true cs
  if head.length = 8 then
    return (← ofGroups? head, cs)
  else if embedded then none
  else
    let cs ← readChar ':' cs
    let cs ← readChar ':' cs
    let (tail, _, cs) := readGroups (7 - head.length) true cs
    let zeros := List.replicate (8 - head.length - tail.length) 0
    return (← ofGroups? (head ++ zeros ++ tail), cs)

/-! ### Writing -/

def zerosAhead (groups : List UInt16) : Nat := (groups.takeWhile (· = 0)).length

/-- Where the longest run of zeros begins, the leftmost of equal ones, and how long it is. -/
def longestZeros (groups : List UInt16) : Nat × Nat :=
  (List.range groups.length).foldl
    (fun best start =>
      let length := zerosAhead (groups.drop start)
      if best.2 < length then (start, length) else best)
    (0, 0)

def groupChars (g : UInt16) : List Char := Nat.toDigits 16 g.toNat

def groupsChars (groups : List UInt16) : List Char :=
  [':'].intercalate (groups.map groupChars)

def mapped? (ip : IPv6) : Option IPv4 :=
  match ip.groups with
  | [0, 0, 0, 0, 0, 0xffff, g, h] =>
    some ⟨(g / 256).toUInt8, (g % 256).toUInt8, (h / 256).toUInt8, (h % 256).toUInt8⟩
  | _ => none

def chars (ip : IPv6) : List Char :=
  match ip.mapped? with
  | some v4 => [':', ':', 'f', 'f', 'f', 'f', ':'] ++ v4.chars
  | none =>
    let (start, length) := longestZeros ip.groups
    if 1 < length then
      groupsChars (ip.groups.take start) ++ [':', ':']
        ++ groupsChars (ip.groups.drop (start + length))
    else groupsChars ip.groups

end IPv6

end AudioIntake
