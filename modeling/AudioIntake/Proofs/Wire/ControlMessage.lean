import AudioIntake.Proofs.Wire.Rerequest
import AudioIntake.Sample

/-!
# The grammar of control datagrams

`Denotes bs m` says where in a datagram the parts of a message stand, and `Refused bs e` why a
datagram is none. Between them they cover every datagram, so reading, which follows both, finds the
message that a datagram denotes and refuses what denotes none. Whatever is written by one of the
builders denotes what it was built from.
-/

namespace AudioIntake

namespace ControlMessage

variable {bs : Octets}

/-! ### The grammar -/

/-- The length that a datagram of a payload type must have at least. In a reply it depends on the
status. -/
def leastLength? (code : UInt8) (status : Nat) : Option Nat :=
  if code = 84 then some 20
  else if code = 85 then some 8
  else if code = 86 then some (if status = 1 then 6 else 16)
  else none

/-- The payload type of a datagram, and the number behind it, which is the status of a reply. -/
structure Begins (bs : Octets) (code : UInt8) (status : Nat) : Prop where
  code_eq : bs.payloadCode? = some code
  status : bs.Carries 2 2 status

/-- A datagram of a known payload type that is as long as it must be. -/
def Complete (bs : Octets) : Prop :=
  ∃ code status needed, Begins bs code status ∧ leastLength? code status = some needed ∧
    needed ≤ bs.length

/-- What a datagram says, and where in it that is written. -/
inductive Denotes (bs : Octets) : ControlMessage → Prop where
  | sync {rtpTimestamp nextTimestamp : UInt32} {ntpTimestamp : UInt64}
      (hcode : bs.payloadCode? = some 84) (hrtp : bs.Carries 4 4 rtpTimestamp.toNat)
      (hntp : bs.Carries 8 8 ntpTimestamp.toNat) (hnext : bs.Carries 16 4 nextTimestamp.toNat) :
      Denotes bs (.sync rtpTimestamp ntpTimestamp nextTimestamp)
  | rerequest {request : Rerequest} (hcode : bs.payloadCode? = some 85)
      (hfirst : bs.Carries 4 2 request.first.val) (hcount : bs.Carries 6 2 request.count.toNat) :
      Denotes bs (.rerequest request)
  | declined {seqno : SeqNo} (hcode : bs.payloadCode? = some 86) (hstatus : bs.Carries 2 2 1)
      (hseqno : bs.Carries 4 2 seqno.val) : Denotes bs (.declined seqno)
  | recovered {status : UInt16} {seqno : SeqNo} (hcode : bs.payloadCode? = some 86)
      (hstatus : bs.Carries 2 2 status.toNat) (hanswered : status.toNat ≠ 1)
      (hlength : 16 ≤ bs.length) (hseqno : bs.Carries 6 2 seqno.val) :
      Denotes bs (.recovered status seqno)

/-- Why a datagram denotes nothing, by the first length that it does not have. -/
inductive Refused (bs : Octets) : DecodeError → Prop where
  | headless (hshort : bs.length < 4) : Refused bs (.bufferTooSmall 4 bs.length)
  | short {code : UInt8} {status needed : Nat} (hbegins : Begins bs code status)
      (hneeded : leastLength? code status = some needed) (hshort : bs.length < needed) :
      Refused bs (.bufferTooSmall needed bs.length)
  | unknown {code : UInt8} {status : Nat} (hbegins : Begins bs code status)
      (hnone : leastLength? code status = none) :
      Refused bs (.unknownPayloadType code)

variable {m : ControlMessage} {e : DecodeError} {code : UInt8} {status needed : Nat}

/-- The four shapes a datagram can have, one for each length. -/
theorem leastLength?_eq_some_iff : leastLength? code status = some needed ↔
    code = 84 ∧ needed = 20 ∨ code = 85 ∧ needed = 8 ∨
      code = 86 ∧ status = 1 ∧ needed = 6 ∨ code = 86 ∧ status ≠ 1 ∧ needed = 16 := by
  grind [leastLength?]

/-! ### Reading by payload type -/

theorem decode_of_sync (hlength : 4 ≤ bs.length) (hcode : bs.payloadCode? = some 84) :
    decode bs = decodeSync bs := by
  have htype : PayloadType.ofOctet? bs[1] = some .sync :=
    PayloadType.ofOctet?_getElem hcode (by omega)
  rw [decode, dif_neg (Nat.not_lt.mpr hlength), htype]

theorem decode_of_rerequest (hlength : 4 ≤ bs.length) (hcode : bs.payloadCode? = some 85) :
    decode bs = (Rerequest.decode bs).map fun read => .rerequest read.2 := by
  have htype : PayloadType.ofOctet? bs[1] = some .retransmitRequest :=
    PayloadType.ofOctet?_getElem hcode (by omega)
  rw [decode, dif_neg (Nat.not_lt.mpr hlength), htype]
  dsimp only
  cases Rerequest.decode bs <;> rfl

theorem decode_of_reply (hlength : 4 ≤ bs.length) (hcode : bs.payloadCode? = some 86) :
    decode bs = decodeReply bs hlength := by
  have htype : PayloadType.ofOctet? bs[1] = some .retransmitResponse :=
    PayloadType.ofOctet?_getElem hcode (by omega)
  rw [decode, dif_neg (Nat.not_lt.mpr hlength), htype]

theorem decode_of_declined (hcode : bs.payloadCode? = some 86) (hstatus : bs.Carries 2 2 1) :
    decode bs = if h : bs.length < 6 then .error (.bufferTooSmall 6 bs.length)
      else .ok (.declined (SeqNo.field bs 4 (Nat.le_of_not_lt h))) := by
  have hdeclined : bs.field 2 2 hstatus.inside = statusDeclined := hstatus.field_eq
  rw [decode_of_reply hstatus.inside hcode, decodeReply]
  exact if_pos hdeclined

theorem decode_of_recovered (hcode : bs.payloadCode? = some 86) (hstatus : bs.Carries 2 2 status)
    (hanswered : status ≠ 1) :
    decode bs = if h : bs.length < 16 then .error (.bufferTooSmall 16 bs.length)
      else .ok (.recovered (UInt16.ofNat status)
        (SeqNo.field bs 6 (Nat.le_trans (by decide) (Nat.le_of_not_lt h)))) := by
  have hother : bs.field 2 2 hstatus.inside ≠ statusDeclined := by rwa [hstatus.field_eq]
  rw [decode_of_reply hstatus.inside hcode, decodeReply, if_neg hother, hstatus.field_eq]

theorem decode_of_unknown (hbegins : Begins bs code status)
    (hnone : leastLength? code status = none) : decode bs = .error (.unknownPayloadType code) := by
  have hlength := hbegins.status.inside
  have hmod := (Octets.payloadCode?_eq_some_iff (by omega)).mp hbegins.code_eq
  -- A type that is read has a length, so it is none of the three.
  have hother : ∀ t, PayloadType.ofOctet? bs[1] = some t → leastLength? t.code status = none := by
    intro t htype
    rwa [← PayloadType.ofOctet?_eq_some_iff.mp htype, hmod]
  rw [decode, dif_neg (by omega)]
  split
  · cases hother _ ‹_›
  · cases hother _ ‹_›
  · cases hother _ ‹_›
  · rw [hmod]

/-! ### The grammar is what is read -/

theorem Denotes.decode_eq (hdenotes : Denotes bs m) : decode bs = .ok m := by
  cases hdenotes with
  | sync hcode hrtp hntp hnext =>
      have hlength := hnext.inside
      rw [decode_of_sync (by omega) hcode, decodeSync, dif_neg (by omega),
        (Octets.uint32_eq_iff _ _).mpr hrtp, (Octets.uint64_eq_iff _ _).mpr hntp,
        (Octets.uint32_eq_iff _ _).mpr hnext]
  | rerequest hcode hfirst hcount =>
      have hlength := hcount.inside
      have inside : 2 + 2 ≤ bs.length := by omega
      have hstamp := (Octets.uint16_eq_iff inside _).mp rfl
      rw [decode_of_rerequest (by omega) hcode,
        Rerequest.decode_of_carries hcode hstamp hfirst hcount]
      rfl
  | declined hcode hstatus hseqno =>
      have hlength := hseqno.inside
      rw [decode_of_declined hcode hstatus, dif_neg (by omega), (SeqNo.field_eq_iff _ _).mpr hseqno]
  | recovered hcode hstatus hanswered hlength hseqno =>
      rw [decode_of_recovered hcode hstatus hanswered, dif_neg (by omega), UInt16.ofNat_toNat,
        (SeqNo.field_eq_iff _ _).mpr hseqno]

theorem Refused.decode_eq (hrefused : Refused bs e) : decode bs = .error e := by
  cases hrefused with
  | headless hshort => rw [decode, dif_pos hshort]
  | unknown hbegins hnone => exact decode_of_unknown hbegins hnone
  | @short code status needed hbegins hneeded hshort =>
      obtain ⟨hcode, hstatus⟩ := hbegins
      have hlength := hstatus.inside
      obtain ⟨rfl, rfl⟩ | ⟨rfl, rfl⟩ | ⟨rfl, rfl, rfl⟩ | ⟨rfl, hanswered, rfl⟩ :=
        leastLength?_eq_some_iff.mp hneeded
      · rw [decode_of_sync (by omega) hcode, decodeSync, dif_pos hshort]
      · rw [decode_of_rerequest (by omega) hcode, Rerequest.decode, dif_pos hshort]
        rfl
      · rw [decode_of_declined hcode hstatus, dif_pos hshort]
      · rw [decode_of_recovered hcode hstatus hanswered, dif_pos hshort]

theorem Complete.exists_denotes (hcomplete : Complete bs) : ∃ m, Denotes bs m := by
  obtain ⟨code, status, needed, ⟨hcode, hstatus⟩, hneeded, hlength⟩ := hcomplete
  obtain ⟨rfl, rfl⟩ | ⟨rfl, rfl⟩ | ⟨rfl, rfl, rfl⟩ | ⟨rfl, hanswered, rfl⟩ :=
    leastLength?_eq_some_iff.mp hneeded
  · exact ⟨_, .sync hcode ((Octets.uint32_eq_iff (by omega) _).mp rfl)
      ((Octets.uint64_eq_iff (by omega) _).mp rfl) ((Octets.uint32_eq_iff (by omega) _).mp rfl)⟩
  · exact ⟨.rerequest ⟨_, _⟩, .rerequest hcode ((SeqNo.field_eq_iff (by omega) _).mp rfl)
      ((Octets.uint16_eq_iff (by omega) _).mp rfl)⟩
  · exact ⟨_, .declined hcode hstatus ((SeqNo.field_eq_iff (by omega) _).mp rfl)⟩
  · have hread := UInt16.toNat_ofNat_of_lt' hstatus.lt
    refine ⟨.recovered (UInt16.ofNat status) _, .recovered hcode ?_ ?_ hlength
      ((SeqNo.field_eq_iff (by omega) _).mp rfl)⟩
    · rwa [hread]
    · rwa [hread]

theorem Denotes.complete (hdenotes : Denotes bs m) : Complete bs := by
  cases hdenotes with
  | sync hcode _ _ hnext =>
      have hlength := hnext.inside
      exact ⟨84, _, 20, ⟨hcode, Octets.carries_field (by omega)⟩, rfl, hlength⟩
  | rerequest hcode _ hcount =>
      have hlength := hcount.inside
      exact ⟨85, _, 8, ⟨hcode, Octets.carries_field (by omega)⟩, rfl, hlength⟩
  | declined hcode hstatus hseqno => exact ⟨86, 1, 6, ⟨hcode, hstatus⟩, rfl, hseqno.inside⟩
  | recovered hcode hstatus hanswered hlength _ =>
      refine ⟨86, _, 16, ⟨hcode, hstatus⟩, ?_, hlength⟩
      exact leastLength?_eq_some_iff.mpr (.inr (.inr (.inr ⟨rfl, hanswered, rfl⟩)))

theorem complete_or_refused (bs : Octets) : Complete bs ∨ ∃ e, Refused bs e := by
  by_cases hshort : bs.length < 4
  · exact .inr ⟨_, .headless hshort⟩
  have hbegins : Begins bs (bs[1] % 128) (bs.field 2 2 (by omega)) :=
    ⟨Octets.payloadCode?_eq (by omega), Octets.carries_field _⟩
  cases hneeded : leastLength? (bs[1] % 128) (bs.field 2 2 (by omega)) with
  | none => exact .inr ⟨_, .unknown hbegins hneeded⟩
  | some needed =>
      by_cases hlength : needed ≤ bs.length
      · exact .inl ⟨_, _, needed, hbegins, hneeded, hlength⟩
      · exact .inr ⟨_, .short hbegins hneeded (Nat.lt_of_not_le hlength)⟩

theorem decode_eq_ok_iff : decode bs = .ok m ↔ Denotes bs m := by
  constructor
  · intro hdecode
    obtain hcomplete | ⟨e, hrefused⟩ := complete_or_refused bs
    · obtain ⟨n, hdenotes⟩ := hcomplete.exists_denotes
      rw [hdenotes.decode_eq] at hdecode
      cases hdecode
      exact hdenotes
    · rw [hrefused.decode_eq] at hdecode
      cases hdecode
  · exact Denotes.decode_eq

theorem decode_eq_error_iff : decode bs = .error e ↔ Refused bs e := by
  constructor
  · intro hdecode
    obtain hcomplete | ⟨e', hrefused⟩ := complete_or_refused bs
    · obtain ⟨m, hdenotes⟩ := hcomplete.exists_denotes
      rw [hdenotes.decode_eq] at hdecode
      cases hdecode
    · rw [hrefused.decode_eq] at hdecode
      cases hdecode
      exact hrefused
  · exact Refused.decode_eq

theorem exists_decode_iff : (∃ m, decode bs = .ok m) ↔ Complete bs := by
  simp only [decode_eq_ok_iff]
  exact ⟨fun ⟨_, hdenotes⟩ => hdenotes.complete, Complete.exists_denotes⟩

theorem Denotes.append (hdenotes : Denotes bs m) (more : Octets) : Denotes (bs ++ more) m := by
  cases hdenotes with
  | sync hcode hrtp hntp hnext =>
      exact .sync (Octets.payloadCode?_append hcode more) (hrtp.append more) (hntp.append more)
        (hnext.append more)
  | rerequest hcode hfirst hcount =>
      exact .rerequest (Octets.payloadCode?_append hcode more) (hfirst.append more)
        (hcount.append more)
  | declined hcode hstatus hseqno =>
      exact .declined (Octets.payloadCode?_append hcode more) (hstatus.append more)
        (hseqno.append more)
  | recovered hcode hstatus hanswered hlength hseqno =>
      refine .recovered (Octets.payloadCode?_append hcode more) (hstatus.append more) hanswered ?_
        (hseqno.append more)
      rw [List.length_append]
      omega

/-! ### What the builders write -/

theorem denotes_encode (r : Rerequest) (stamp : UInt16) :
    Denotes (r.encode stamp) (.rerequest r) :=
  .rerequest (r.payloadCode?_encode stamp) (r.carries_first_encode stamp)
    (r.carries_count_encode stamp)

theorem denotes_sync (rtpTimestamp : UInt32) (ntpTimestamp : UInt64) (nextTimestamp : UInt32) :
    Denotes (Sample.sync rtpTimestamp ntpTimestamp nextTimestamp)
      (.sync rtpTimestamp ntpTimestamp nextTimestamp) := by
  refine .sync rfl ?_ ?_ ?_
  · have hbs : Sample.sync rtpTimestamp ntpTimestamp nextTimestamp =
        [0x90, 0x80 + PayloadType.sync.code, 0x00, 0x07] ++ Octets.ofValue 4 rtpTimestamp.toNat ++
          (Octets.ofValue 8 ntpTimestamp.toNat ++ Octets.ofValue 4 nextTimestamp.toNat) := by
      simp only [Sample.sync, List.append_assoc]
    exact Octets.carries_of_eq hbs rfl rtpTimestamp.toNat_lt
  · exact Octets.carries_of_eq rfl (by simp) ntpTimestamp.toNat_lt
  · exact Octets.carries_of_eq (List.append_nil _).symm (by simp) nextTimestamp.toNat_lt

theorem denotes_declined (seqno : SeqNo) : Denotes (Sample.declined seqno) (.declined seqno) := by
  refine .declined rfl ?_ ?_
  · have hbs : Sample.declined seqno = [0x80, 0x80 + PayloadType.retransmitResponse.code] ++
        Octets.ofValue 2 1 ++ (seqno.octets ++ [0x00, 0x00]) := by
      simp only [Sample.declined, statusDeclined, List.append_assoc]
    exact Octets.carries_of_eq hbs rfl (by decide)
  · exact Octets.carries_of_eq rfl (by simp) seqno.val_lt

theorem denotes_recovery (seqno : SeqNo) (payload : Octets) :
    Denotes (Sample.recovery seqno payload) (.recovered 0 seqno) := by
  refine .recovered rfl ?_ (by decide) ?_ ?_
  · have hbs : Sample.recovery seqno payload = [0x80, 0x80 + PayloadType.retransmitResponse.code] ++
        Octets.ofValue 2 0 ++ Sample.audio seqno payload := rfl
    exact Octets.carries_of_eq hbs rfl (by decide)
  · simp only [Sample.recovery, Sample.audio, List.length_append, List.length_cons,
      Header.length_encode]
    omega
  · have hbs : Sample.recovery seqno payload =
        [0x80, 0x80 + PayloadType.retransmitResponse.code, 0x00, 0x00,
          0x80, PayloadType.audio.code] ++ Octets.ofValue 2 seqno.val ++
        (Octets.ofValue 4 (UInt32.ofNat (seqno.val * Sample.framesPerPacket)).toNat ++
          Octets.ofValue 4 Sample.ssrc.toNat ++ payload) := by
      simp [Sample.recovery, Sample.audio, Header.encode, Header.ofAudio, SeqNo.octets]
    exact Octets.carries_of_eq hbs rfl seqno.val_lt

/-- What is read are the messages that datagrams denote, and every number in one is that of octets
inside its datagram. A message is read from each datagram that is as long as its payload type and
status ask for, any other is refused by the first length it misses or by its payload type, and
octets that follow change nothing. Each builder's datagram is read as what it was built from. -/
theorem decodes_exactly_denoted :
    (∀ (bs : Octets) (m : ControlMessage), decode bs = .ok m ↔ Denotes bs m) ∧
      (∀ (bs : Octets) (e : DecodeError), decode bs = .error e ↔ Refused bs e) ∧
      (∀ bs : Octets, (∃ m, decode bs = .ok m) ↔ Complete bs) ∧
      (∀ (bs more : Octets) (m : ControlMessage), decode bs = .ok m → decode (bs ++ more) = .ok m) ∧
      (∀ (rtpTimestamp : UInt32) (ntpTimestamp : UInt64) (nextTimestamp : UInt32),
        decode (Sample.sync rtpTimestamp ntpTimestamp nextTimestamp) =
          .ok (.sync rtpTimestamp ntpTimestamp nextTimestamp)) ∧
      (∀ (seqno : SeqNo) (payload : Octets),
        decode (Sample.recovery seqno payload) = .ok (.recovered 0 seqno)) ∧
      (∀ seqno : SeqNo, decode (Sample.declined seqno) = .ok (.declined seqno)) ∧
      ∀ (r : Rerequest) (stamp : UInt16), decode (r.encode stamp) = .ok (.rerequest r) ∧
        Rerequest.decode (r.encode stamp) = .ok (stamp, r) := by
  refine ⟨fun _ _ => decode_eq_ok_iff, fun _ _ => decode_eq_error_iff, fun _ => exists_decode_iff,
    ?_, fun _ _ _ => (denotes_sync _ _ _).decode_eq, fun _ _ => (denotes_recovery _ _).decode_eq,
    fun _ => (denotes_declined _).decode_eq,
    fun r stamp => ⟨(denotes_encode r stamp).decode_eq, r.decode_encode stamp⟩⟩
  intro bs more m hdecode
  exact ((decode_eq_ok_iff.mp hdecode).append more).decode_eq

/-- Two octets behind a reply that declines. -/
theorem decodes_exactly_denoted_of_declined :
    decode [0x80, 0xd6, 0x00, 0x01, 0xff, 0xff] = .ok (.declined (SeqNo.ofNat 65535)) ∧
      decode ([0x80, 0xd6, 0x00, 0x01, 0xff, 0xff] ++ [0x00, 0x00]) =
        .ok (.declined (SeqNo.ofNat 65535)) := by
  obtain ⟨-, -, -, happend, -⟩ := decodes_exactly_denoted
  have hread : decode [0x80, 0xd6, 0x00, 0x01, 0xff, 0xff] =
      .ok (.declined (SeqNo.ofNat 65535)) := by
    rfl
  exact ⟨hread, happend _ _ _ hread⟩

end ControlMessage

theorem Rerequest.control_decode_encode (r : Rerequest) (stamp : UInt16) :
    ControlMessage.decode (r.encode stamp) = .ok (.rerequest r) :=
  (ControlMessage.denotes_encode r stamp).decode_eq

end AudioIntake
