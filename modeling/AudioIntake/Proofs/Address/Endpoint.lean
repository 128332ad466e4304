import AudioIntake.Address.Endpoint
import AudioIntake.Proofs.Address.IPv6

/-!
# Addresses and endpoints read back

The text of an address, and that of an endpoint, is read as what it was written from. An IPv6
address is never taken for an IPv4 one, since no dot follows its first digits.
-/

namespace AudioIntake

open Address

variable {rest : List Char}

namespace IPv6

theorem readIPv4_joined (gs : List UInt16) (hdigit : Stops (isDigit 16) rest)
    (hdot : Stops (· == '.') rest) : IPv4.read (joined true gs ++ rest) = none := by
  cases gs with
  | nil => exact readIPv4_eq_none hdigit
  | cons g gs =>
      obtain ⟨hdigit, hdot⟩ := stops_joined hdigit hdot gs
      rw [joined, List.append_assoc]
      exact readIPv4_groupChars g hdigit hdot

theorem readIPv4_chars (ip : IPv6) (hrest : Closed rest) : IPv4.read (ip.chars ++ rest) = none := by
  rw [chars]
  split
  · exact readIPv4_eq_none (stops_cons rfl)
  · dsimp only
    split
    · rw [groupsChars_eq, List.append_assoc, List.append_assoc]
      exact readIPv4_joined _ (stops_cons rfl) (stops_cons rfl)
    · rw [groupsChars_eq]
      exact readIPv4_joined _ hrest.digit hrest.dot

theorem closed_nil : Closed [] where
  digit := stops_nil
  dot := stops_nil
  colon := nofun

theorem closed_cons {c : Char} (hdigit : isDigit 16 c = false) (hdot : (c == '.') = false)
    (hcolon : c ≠ ':') : Closed (c :: rest) where
  digit := stops_cons hdigit
  dot := stops_cons hdot
  colon := by
    rintro _ ⟨⟩
    exact absurd rfl hcolon

end IPv6

/-- The two kinds of address are told apart by their texts. -/
theorem IPAddress.ofText?_text (ip : IPAddress) : ofText? ip.text = some ip := by
  have hread : read ip.chars = some (ip, []) := by
    cases ip with
    | v4 ip =>
        have hv4 : IPv4.read (ip.chars ++ []) = some (ip, []) := ip.read_chars_append stops_nil
        rw [List.append_nil] at hv4
        rw [read, chars, hv4]
    | v6 ip =>
        have hv4 := ip.readIPv4_chars IPv6.closed_nil
        have hv6 := ip.read_chars_append IPv6.closed_nil
        rw [List.append_nil] at hv4 hv6
        rw [read, chars, hv4, hv6]
        rfl
  rw [ofText?, Address.ofText?, text, String.toList_ofList, hread]

namespace Endpoint

theorem roomy_portFormat : portFormat.Roomy where
  one_lt_base := by decide
  base_le := by decide
  bound_le := nofun

theorem roomy_scopeFormat : scopeFormat.Roomy where
  one_lt_base := by decide
  base_le := by decide
  bound_le := nofun

theorem readPort_toDigits (port : UInt16) :
    readPort (':' :: Nat.toDigits 10 port.toNat) = some (port, []) := by
  have hport : readNumber portFormat (Nat.toDigits 10 port.toNat ++ []) = some (port.toNat, []) :=
    readNumber_toDigits roomy_portFormat port.toNat_lt stops_nil
  rw [List.append_nil] at hport
  rw [readPort, readChar_cons, Option.bind_eq_bind, Option.bind_some, hport, Option.bind_eq_bind,
    Option.bind_some]
  dsimp only
  rw [UInt16.ofNat_toNat]
  rfl

theorem readScope_toDigits (scope : UInt32) (rest : List Char) :
    readScope ((if scope = 0 then [] else '%' :: Nat.toDigits 10 scope.toNat) ++ ']' :: rest) =
      (scope.toNat, ']' :: rest) := by
  split
  · rename_i hzero
    subst hzero
    rfl
  · have hscope : readNumber scopeFormat (Nat.toDigits 10 scope.toNat ++ ']' :: rest) =
        some (scope.toNat, ']' :: rest) :=
      readNumber_toDigits roomy_scopeFormat scope.toNat_lt (stops_cons rfl)
    rw [readScope, List.cons_append, readChar_cons, Option.bind_eq_bind, Option.bind_some, hscope]

theorem closed_scope (scope : UInt32) (rest : List Char) :
    IPv6.Closed ((if scope = 0 then [] else '%' :: Nat.toDigits 10 scope.toNat) ++ ']' :: rest) := by
  split
  · exact IPv6.closed_cons rfl rfl (by decide)
  · exact IPv6.closed_cons rfl rfl (by decide)

theorem read_chars (e : Endpoint) : read e.chars = some (e, []) := by
  cases e with
  | v4 ip port =>
      have hip : IPv4.read (ip.chars ++ ':' :: Nat.toDigits 10 port.toNat) =
          some (ip, ':' :: Nat.toDigits 10 port.toNat) := ip.read_chars_append (stops_cons rfl)
      rw [read, chars, readV4, hip, Option.bind_eq_bind, Option.bind_some]
      dsimp only
      rw [readPort_toDigits]
      rfl
  | v6 ip scope port =>
      have hchars : chars (.v6 ip scope port) = '[' :: (ip.chars ++
          ((if scope = 0 then [] else '%' :: Nat.toDigits 10 scope.toNat) ++
            ']' :: ':' :: Nat.toDigits 10 port.toNat)) := by
        simp [chars]
      have hbracket (cs : List Char) : readV4 ('[' :: cs) = none := by
        rw [readV4, IPv6.readIPv4_eq_none (stops_cons rfl)]
        rfl
      have hip := ip.read_chars_append (closed_scope scope (':' :: Nat.toDigits 10 port.toNat))
      rw [read, hchars, hbracket]
      dsimp only
      rw [readV6, readChar_cons, Option.bind_eq_bind, Option.bind_some, hip, Option.bind_eq_bind,
        Option.bind_some]
      dsimp only
      rw [readScope_toDigits]
      dsimp only
      rw [readChar_cons, Option.bind_eq_bind, Option.bind_some, readPort_toDigits,
        UInt32.ofNat_toNat]
      rfl

theorem ofText?_text (e : Endpoint) : ofText? e.text = some e := by
  rw [ofText?, Address.ofText?, text, String.toList_ofList, read_chars]

end Endpoint

end AudioIntake
