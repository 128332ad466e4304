import AudioIntake.Proofs.Wire.Verdict

/-!
# Audio that was sent again

Behind its first four octets a reply carries what was lost. Where the data channel takes the lost
datagram for audio, the control channel takes the reply, and the two packets differ in the mark that
one of them was sent again and in nothing that is read from them. Only the data channel asks for the
payload type of audio: whatever else is long enough for a header is sequenced out of a reply.
-/

namespace AudioIntake

/-- Two packets that are the same to a reader, one as it was first sent and one sent again. -/
structure Packet.SentAgain (first again : Packet) : Prop where
  seqno_eq : again.seqno = first.seqno
  content_eq : again.content = first.content
  payload_eq : again.payload = first.payload
  payloadCode?_eq : again.payloadCode? = first.payloadCode?
  first_retransmitted : first.retransmitted = false
  again_retransmitted : again.retransmitted = true

namespace Judgement

open ControlMessage (statusDeclined)

variable {head inner : Octets} {reply datagram first again : Packet}

theorem exists_sequence_ofData_iff (hdatagram : datagram.content = inner) :
    (∃ first, (ofData datagram).verdict = .sequence first) ↔
      12 ≤ inner.length ∧ inner.payloadCode? = some PayloadType.audio.code := by
  subst hdatagram
  constructor
  · rintro ⟨first, hfirst⟩
    obtain ⟨hlength, hcode, -⟩ := ofData_eq_sequence_iff.mp hfirst
    exact ⟨hlength, hcode⟩
  · rintro ⟨hlength, hcode⟩
    exact ⟨_, ofData_eq_sequence_iff.mpr ⟨hlength, hcode, rfl⟩⟩

/-- The number of a reply is that of the datagram inside it. -/
theorem exists_denotes_recovered (hhead : head.length = 4)
    (hcode : head.payloadCode? = some PayloadType.retransmitResponse.code)
    (hstatus : head.field 2 2 (by omega) ≠ statusDeclined) (hlength : 12 ≤ inner.length) :
    ∃ status, ControlMessage.Denotes (head ++ inner)
      (.recovered status (SeqNo.field inner 2 (by omega))) := by
  have inside : 2 + 2 ≤ head.length := by omega
  have hread : (UInt16.ofNat (head.field 2 2 inside)).toNat = head.field 2 2 inside :=
    UInt16.toNat_ofNat_of_lt' (Octets.field_lt inside)
  refine ⟨UInt16.ofNat (head.field 2 2 inside), .recovered ?_ ?_ ?_ ?_ ?_⟩
  · exact Octets.payloadCode?_append hcode inner
  · rw [hread]
    exact (Octets.carries_field inside).append inner
  · rwa [hread]
  · rw [List.length_append]
    omega
  · have hseqno := (SeqNo.field_eq_iff (by omega : 2 + 2 ≤ inner.length) _).mp rfl
    have hbehind := (Octets.carries_append_iff head).mpr hseqno
    rwa [hhead] at hbehind

/-- The payload type of what a reply carries is not asked for. -/
theorem exists_sequence_ofControl_iff (hhead : head.length = 4)
    (hcode : head.payloadCode? = some PayloadType.retransmitResponse.code)
    (hstatus : head.field 2 2 (by omega) ≠ statusDeclined)
    (hreply : reply.content = head ++ inner) :
    (∃ again, (ofControl reply).verdict = .sequence again) ↔ 12 ≤ inner.length := by
  constructor
  · rintro ⟨again, hagain⟩
    obtain ⟨hlength, -⟩ := of_sequence_ofControl hagain
    rw [hreply, List.length_append] at hlength
    omega
  · intro hlength
    obtain ⟨status, hdenotes⟩ := exists_denotes_recovered hhead hcode hstatus hlength
    rw [← hreply] at hdenotes
    exact ⟨_, ofControl_eq_sequence_iff.mpr ⟨status, _, hdenotes, rfl⟩⟩

theorem sentAgain_of_sequence (hhead : head.length = 4) (hreply : reply.content = head ++ inner)
    (hdatagram : datagram.content = inner)
    (hfirst : (ofData datagram).verdict = .sequence first)
    (hagain : (ofControl reply).verdict = .sequence again) : first.SentAgain again := by
  obtain ⟨hlength, hcode, rfl⟩ := ofData_eq_sequence_iff.mp hfirst
  obtain ⟨status, seqno, hdenotes, rfl⟩ := ofControl_eq_sequence_iff.mp hagain
  have hcontent : (reply.dropFront ControlMessage.recoveryOffset).content = datagram.content := by
    rw [Packet.content_dropFront, hreply, hdatagram, ControlMessage.recoveryOffset, ← hhead,
      List.drop_left]
  have hseqno : datagram.content.Carries 2 2 seqno.val := by
    cases hdenotes with
    | recovered _ _ _ _ hseqno =>
        rw [hreply, show 6 = head.length + 2 by omega] at hseqno
        rw [hdatagram]
        exact (Octets.carries_append_iff head).mp hseqno
  exact
    { seqno_eq := ((SeqNo.field_eq_iff _ _).mpr hseqno).symm
      content_eq := hcontent
      payload_eq := congrArg (List.drop Header.size) hcontent
      payloadCode?_eq := congrArg Octets.payloadCode? hcontent
      first_retransmitted := rfl
      again_retransmitted := rfl }

/-- Of a reply and the datagram inside it, the control channel sequences the one whenever the data
channel sequences the other, as packets that differ in their mark alone. It sequences besides every
reply that carries something else in twelve octets and more. -/
theorem reply_judged_by_length (hhead : head.length = 4)
    (hcode : head.payloadCode? = some PayloadType.retransmitResponse.code)
    (hstatus : head.field 2 2 (by omega) ≠ statusDeclined)
    (hreply : reply.content = head ++ inner) (hdatagram : datagram.content = inner) :
    ((∃ first, (ofData datagram).verdict = .sequence first) ↔
        12 ≤ inner.length ∧ inner.payloadCode? = some PayloadType.audio.code) ∧
      ((∃ again, (ofControl reply).verdict = .sequence again) ↔
        (∃ first, (ofData datagram).verdict = .sequence first) ∨
          12 ≤ inner.length ∧ inner.payloadCode? ≠ some PayloadType.audio.code) ∧
      ∀ first again, (ofData datagram).verdict = .sequence first →
        (ofControl reply).verdict = .sequence again → first.SentAgain again := by
  have hdata := exists_sequence_ofData_iff hdatagram
  refine ⟨hdata, ?_, fun _ _ => sentAgain_of_sequence hhead hreply hdatagram⟩
  rw [hdata, exists_sequence_ofControl_iff hhead hcode hstatus hreply, ← and_or_left]
  exact (and_iff_left (Decidable.em _)).symm

/-- The shortest datagram of audio, and a reply that carries it. -/
theorem reply_judged_by_length_of_audio :
    ∃ first again,
      (ofData (.ofOctets (SeqNo.ofNat 0) [0x80, 0x60, 0x00, 0x07, 0, 0, 0, 0, 0, 0, 0, 0]
        false)).verdict = .sequence first ∧
      (ofControl (.ofOctets (SeqNo.ofNat 0) [0x80, 0xd6, 0x00, 0x00,
        0x80, 0x60, 0x00, 0x07, 0, 0, 0, 0, 0, 0, 0, 0] false)).verdict = .sequence again ∧
      first.SentAgain again := by
  obtain ⟨hdata, hcontrol, hagree⟩ := @reply_judged_by_length [0x80, 0xd6, 0x00, 0x00]
    [0x80, 0x60, 0x00, 0x07, 0, 0, 0, 0, 0, 0, 0, 0]
    (.ofOctets (SeqNo.ofNat 0) [0x80, 0xd6, 0x00, 0x00,
      0x80, 0x60, 0x00, 0x07, 0, 0, 0, 0, 0, 0, 0, 0] false)
    (.ofOctets (SeqNo.ofNat 0) [0x80, 0x60, 0x00, 0x07, 0, 0, 0, 0, 0, 0, 0, 0] false)
    rfl rfl (by decide) rfl rfl
  obtain ⟨first, hfirst⟩ := hdata.mpr ⟨by decide, rfl⟩
  obtain ⟨again, hagain⟩ := hcontrol.mpr (.inl ⟨first, hfirst⟩)
  exact ⟨first, again, hfirst, hagain, hagree first again hfirst hagain⟩

/-- Clock information is not for the sequencer, but out of a reply it is sequenced. -/
theorem clock_sequenced_out_of_reply :
    ¬((∃ again, (ofControl (.ofOctets (SeqNo.ofNat 0) [0x80, 0xd6, 0x00, 0x00,
        0x80, 0xd4, 0x00, 0x07, 0, 0, 0, 0, 0, 0, 0, 0] false)).verdict = .sequence again) ↔
      ∃ first, (ofData (.ofOctets (SeqNo.ofNat 0)
        [0x80, 0xd4, 0x00, 0x07, 0, 0, 0, 0, 0, 0, 0, 0] false)).verdict = .sequence first) := by
  intro halike
  obtain ⟨first, hfirst⟩ := halike.mp ⟨_, rfl⟩
  cases hfirst

end Judgement

end AudioIntake
