import AudioIntake.Proofs.Wire.Octets
import AudioIntake.Wire.Header

/-!
# RTP headers on the wire

A datagram begins with a header when its version is 2 and the eleven octets behind the first are
those that the header is written with. Reading finds the header of every such datagram and of no
other, and of all the reasons to refuse a datagram it gives the first.
-/

namespace AudioIntake

namespace PayloadType

variable {b : UInt8} {t : PayloadType}

theorem ofOctet?_eq_some_iff : ofOctet? b = some t ↔ b % 128 = t.code := by
  constructor
  · intro h
    apply UInt8.toNat_inj.mp
    rw [ofOctet?] at h
    split at h <;> cases h <;> assumption
  · intro h
    rw [ofOctet?, h]
    cases t <;> rfl

theorem ofOctet?_eq_none_iff : ofOctet? b = none ↔ ∀ t : PayloadType, b % 128 ≠ t.code := by
  simp only [Option.eq_none_iff_forall_ne_some, ne_eq, ofOctet?_eq_some_iff]

end PayloadType

namespace Octets

variable {bs : Octets} {code : UInt8}

theorem payloadCode?_eq (h : 1 < bs.length) : bs.payloadCode? = some (bs[1] % 128) := by
  rw [payloadCode?, List.getElem?_eq_getElem h]
  rfl

theorem payloadCode?_eq_some_iff (h : 1 < bs.length) :
    bs.payloadCode? = some code ↔ bs[1] % 128 = code := by
  rw [payloadCode?_eq h, Option.some.injEq]

theorem payloadCode?_append (hcode : bs.payloadCode? = some code) (more : Octets) :
    (bs ++ more).payloadCode? = some code := by
  obtain ⟨b, hb, rfl⟩ := Option.map_eq_some_iff.mp hcode
  have hlt := (List.getElem?_eq_some_iff.mp hb).1
  rw [payloadCode?, List.getElem?_append_left hlt, hb]
  rfl

end Octets

theorem PayloadType.ofOctet?_getElem {bs : Octets} {t : PayloadType}
    (hcode : bs.payloadCode? = some t.code) (h : 1 < bs.length) : ofOctet? bs[1] = some t :=
  ofOctet?_eq_some_iff.mpr ((Octets.payloadCode?_eq_some_iff h).mp hcode)

theorem SeqNo.field_eq_iff {bs : Octets} {offset : Nat} (inside : offset + 2 ≤ bs.length)
    (s : SeqNo) : SeqNo.field bs offset inside = s ↔ bs.Carries offset 2 s.val :=
  Octets.word_eq_iff ofNat_val (fun _ => Nat.mod_eq_of_lt) inside s

namespace Header

variable {bs : Octets} {h : Header} {lead b : UInt8}

/-! ### The octet of marker and payload type -/

/-- Marker and payload type in one octet. -/
def kind (h : Header) : UInt8 := (if h.marker then 0x80 else 0) + h.payloadType.code

theorem kind_mod (h : Header) : h.kind % 128 = h.payloadType.code := by
  rw [kind]
  cases h.marker <;> cases h.payloadType <;> rfl

theorem kind_div (h : Header) : decide (h.kind / 128 ≠ 0) = h.marker := by
  rw [kind]
  cases h.marker <;> cases h.payloadType <;> rfl

/-- The two parts that are read from the octet give it back. -/
theorem marker_add_code {t : PayloadType} (hcode : b % 128 = t.code) :
    (if decide (b / 128 ≠ 0) then 0x80 else 0) + t.code = b := by
  rw [← hcode]
  have hlt := b.toNat_lt
  apply UInt8.toNat_inj.mp
  have hzero : b / 128 ≠ 0 ↔ b.toNat / 128 ≠ 0 := by
    rw [Ne, ← UInt8.toNat_inj]
    rfl
  simp only [decide_eq_true_eq, hzero]
  split <;> simp only [UInt8.toNat_add, UInt8.toNat_mod, UInt8.reduceToNat] <;> omega

/-! ### Headers in front of a datagram -/

/-- The octets of a header behind the first. -/
def body (h : Header) : Octets :=
  h.kind :: (h.sequence.octets ++ Octets.ofValue 4 h.timestamp.toNat
    ++ Octets.ofValue 4 h.ssrc.toNat)

theorem encode_eq_cons (h : Header) : h.encode = 0x80 :: h.body := rfl

theorem length_body (h : Header) : h.body.length = 11 := by
  simp [body]

/-- The datagram begins with the header, in version 2. -/
def Leads (h : Header) (bs : Octets) : Prop :=
  ∃ lead tail, lead / 64 = 2 ∧ bs = lead :: (h.body ++ tail)

theorem leads_of_carries (hlength : 12 ≤ bs.length) (hversion : bs[0] / 64 = 2)
    (hkind : bs[1] = h.kind) (hsequence : bs.Carries 2 2 h.sequence.val)
    (htimestamp : bs.Carries 4 4 h.timestamp.toNat) (hssrc : bs.Carries 8 4 h.ssrc.toNat) :
    h.Leads bs := by
  refine ⟨bs[0], bs.drop 12, hversion, ?_⟩
  calc
    bs = bs[0] :: bs[1] :: bs.drop 2 := by
      rw [← List.drop_eq_getElem_cons, ← List.drop_eq_getElem_cons, List.drop_zero]
    _ = bs[0] :: (h.body ++ bs.drop 12) := by
      rw [hsequence.drop_eq, htimestamp.drop_eq, hssrc.drop_eq, hkind, body]
      simp only [SeqNo.octets, List.cons_append, List.append_assoc]

section Numbers

variable (h lead) (tail : Octets)

theorem carries_sequence : Octets.Carries (lead :: (h.body ++ tail)) 2 2 h.sequence.val := by
  have hbs : lead :: (h.body ++ tail) = [lead, h.kind] ++ Octets.ofValue 2 h.sequence.val ++
      (Octets.ofValue 4 h.timestamp.toNat ++ Octets.ofValue 4 h.ssrc.toNat ++ tail) := by
    simp [body, SeqNo.octets]
  exact Octets.carries_of_eq hbs rfl h.sequence.val_lt

theorem carries_timestamp : Octets.Carries (lead :: (h.body ++ tail)) 4 4 h.timestamp.toNat := by
  have hbs : lead :: (h.body ++ tail) =
      [lead, h.kind] ++ Octets.ofValue 2 h.sequence.val ++ Octets.ofValue 4 h.timestamp.toNat ++
        (Octets.ofValue 4 h.ssrc.toNat ++ tail) := by
    simp [body, SeqNo.octets]
  exact Octets.carries_of_eq hbs (by simp) h.timestamp.toNat_lt

theorem carries_ssrc : Octets.Carries (lead :: (h.body ++ tail)) 8 4 h.ssrc.toNat := by
  have hbs : lead :: (h.body ++ tail) =
      [lead, h.kind] ++ Octets.ofValue 2 h.sequence.val ++ Octets.ofValue 4 h.timestamp.toNat ++
        Octets.ofValue 4 h.ssrc.toNat ++ tail := by
    simp [body, SeqNo.octets]
  exact Octets.carries_of_eq hbs (by simp) h.ssrc.toNat_lt

end Numbers

theorem Leads.decode_eq (hleads : h.Leads bs) : decode bs = .ok h := by
  obtain ⟨lead, tail, hversion, rfl⟩ := hleads
  have hlength : ¬(lead :: (h.body ++ tail)).length < 12 := by
    rw [List.length_cons, List.length_append, length_body]
    omega
  have hkind : (lead :: (h.body ++ tail))[1] = h.kind := rfl
  have htype : PayloadType.ofOctet? h.kind = some h.payloadType :=
    PayloadType.ofOctet?_eq_some_iff.mpr h.kind_mod
  rw [decode, dif_neg hlength]
  dsimp only
  rw [if_neg (by simpa using hversion), hkind, htype]
  dsimp only
  rw [h.kind_div, (SeqNo.field_eq_iff _ _).mpr (carries_sequence h lead tail),
    (Octets.uint32_eq_iff _ _).mpr (carries_timestamp h lead tail),
    (Octets.uint32_eq_iff _ _).mpr (carries_ssrc h lead tail)]

theorem leads_of_decode (hdecode : decode bs = .ok h) : h.Leads bs := by
  rw [decode] at hdecode
  split at hdecode
  · cases hdecode
  · rename_i hlength
    dsimp only at hdecode
    split at hdecode
    · cases hdecode
    · rename_i hversion
      split at hdecode
      · cases hdecode
      · rename_i t htype
        cases hdecode
        refine leads_of_carries (Nat.not_lt.mp hlength) (Decidable.not_not.mp hversion) ?_
          ((SeqNo.field_eq_iff _ _).mp rfl) ((Octets.uint32_eq_iff _ _).mp rfl)
          ((Octets.uint32_eq_iff _ _).mp rfl)
        exact (marker_add_code (PayloadType.ofOctet?_eq_some_iff.mp htype)).symm

theorem decode_eq_ok_iff_leads : decode bs = .ok h ↔ h.Leads bs :=
  ⟨leads_of_decode, Leads.decode_eq⟩

theorem leads_encode_append (h : Header) (tail : Octets) : h.Leads (h.encode ++ tail) :=
  ⟨0x80, tail, by decide, by rw [encode_eq_cons, List.cons_append]⟩

/-- Writing the header again changes the first of its octets at most. -/
theorem leads_iff_encode_eq : h.Leads bs ↔
    ∃ _hlength : 12 ≤ bs.length, bs[0] / 64 = 2 ∧ h.encode = 0x80 :: (bs.take 12).tail := by
  constructor
  · rintro ⟨lead, tail, hversion, rfl⟩
    have hlength := h.length_body
    refine ⟨by simp [hlength], hversion, ?_⟩
    rw [encode_eq_cons, List.take_succ_cons, List.tail_cons, List.take_left' hlength]
  · rintro ⟨hlength, hversion, hencode⟩
    cases bs with
    | nil => cases hlength
    | cons lead rest =>
        rw [encode_eq_cons, List.take_succ_cons, List.tail_cons] at hencode
        refine ⟨lead, rest.drop 11, hversion, ?_⟩
        rw [(List.cons.inj hencode).2, List.take_append_drop]

/-! ### What is refused -/

/-- Why a datagram has no header, by the first of the reasons that apply. -/
inductive Refused (bs : Octets) : DecodeError → Prop where
  | short (hshort : bs.length < 12) : Refused bs (.bufferTooSmall 12 bs.length)
  | version (hlength : 12 ≤ bs.length) (hversion : bs[0] / 64 ≠ 2) :
      Refused bs (.invalidVersion (bs[0] / 64))
  | payloadType (hlength : 12 ≤ bs.length) (hversion : bs[0] / 64 = 2)
      (hcode : ∀ t : PayloadType, bs[1] % 128 ≠ t.code) :
      Refused bs (.unknownPayloadType (bs[1] % 128))

theorem decode_eq_error_iff {e : DecodeError} : decode bs = .error e ↔ Refused bs e := by
  constructor
  · intro hdecode
    rw [decode] at hdecode
    split at hdecode
    · rename_i hshort
      cases hdecode
      exact .short hshort
    · rename_i hlength
      dsimp only at hdecode
      split at hdecode
      · rename_i hversion
        cases hdecode
        exact .version (Nat.not_lt.mp hlength) hversion
      · rename_i hversion
        split at hdecode
        · rename_i htype
          cases hdecode
          exact .payloadType (Nat.not_lt.mp hlength) (Decidable.not_not.mp hversion)
            (PayloadType.ofOctet?_eq_none_iff.mp htype)
        · cases hdecode
  · intro hrefused
    rw [decode]
    cases hrefused with
    | short hshort => rw [dif_pos hshort]
    | version hlength hversion =>
        rw [dif_neg (Nat.not_lt.mpr hlength)]
        exact if_pos hversion
    | payloadType hlength hversion hcode =>
        rw [dif_neg (Nat.not_lt.mpr hlength)]
        dsimp only
        rw [if_neg (by simpa using hversion), PayloadType.ofOctet?_eq_none_iff.mpr hcode]

theorem exists_decode_iff : (∃ h, decode bs = .ok h) ↔
    ∃ _hlength : 12 ≤ bs.length, bs[0] / 64 = 2 ∧ ∃ t : PayloadType, bs[1] % 128 = t.code := by
  constructor
  · rintro ⟨h, hdecode⟩
    obtain ⟨hlength, hversion, -⟩ := leads_iff_encode_eq.mp (leads_of_decode hdecode)
    refine ⟨hlength, hversion, ?_⟩
    by_contra hnone
    have hrefused := Refused.payloadType hlength hversion (not_exists.mp hnone)
    rw [decode_eq_error_iff.mpr hrefused] at hdecode
    cases hdecode
  · rintro ⟨hlength, hversion, t, hcode⟩
    cases hdecode : decode bs with
    | ok h => exact ⟨h, rfl⟩
    | error e =>
        cases decode_eq_error_iff.mp hdecode with
        | short hshort => omega
        | version _ hother => exact absurd hversion hother
        | payloadType _ _ hnone => exact absurd hcode (hnone t)

/-- What is written as a header is read again whatever follows. A header is read from exactly the
datagrams of twelve octets and more that have version 2 and one of the six payload types, it is then
the only one that is written with these twelve octets, the first of them made 0x80, and any other
datagram is refused for the first reason that applies. -/
theorem decodes_exactly_headers :
    (∀ (h : Header) (tail : Octets), decode (h.encode ++ tail) = .ok h) ∧
      (∀ bs : Octets, (∃ h, decode bs = .ok h) ↔
        ∃ _hlength : 12 ≤ bs.length, bs[0] / 64 = 2 ∧ ∃ t : PayloadType, bs[1] % 128 = t.code) ∧
      (∀ (bs : Octets) (h : Header), decode bs = .ok h ↔
        ∃ _hlength : 12 ≤ bs.length, bs[0] / 64 = 2 ∧ h.encode = 0x80 :: (bs.take 12).tail) ∧
      ∀ (bs : Octets) (e : DecodeError), decode bs = .error e ↔ Refused bs e :=
  ⟨fun h tail => (leads_encode_append h tail).decode_eq, fun _ => exists_decode_iff,
    fun _ _ => decode_eq_ok_iff_leads.trans leads_iff_encode_eq, fun _ _ => decode_eq_error_iff⟩

end Header

end AudioIntake
