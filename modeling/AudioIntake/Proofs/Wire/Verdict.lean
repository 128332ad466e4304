import AudioIntake.Proofs.Buffer.Windows
import AudioIntake.Proofs.Wire.ControlMessage
import AudioIntake.Verdict

/-!
# Which datagrams become audio

A packet that is handed to the sequencer shows the datagram it came in, or that datagram without its
first four octets, whatever its buffer was used for before; and it carries the number that stands in
its third and fourth octet.
-/

namespace AudioIntake

theorem SeqNo.val_field {bs : Octets} {offset : Nat} (inside : offset + 2 ≤ bs.length) :
    (SeqNo.field bs offset inside).val = Octets.value ((bs.drop offset).take 2) :=
  Nat.mod_eq_of_lt (Octets.field_lt inside)

namespace Judgement

variable {p audio : Packet}

theorem ofData_eq_sequence_iff : (ofData p).verdict = .sequence audio ↔
    ∃ hlength : 12 ≤ p.content.length, p.content.payloadCode? = some PayloadType.audio.code ∧
      audio = (p.setSeqno (SeqNo.field p.content 2 (by omega))).setRetransmitted false := by
  rw [ofData]
  split
  · rename_i hshort
    constructor
    · intro h
      cases h
    · rintro ⟨hlength, -⟩
      omega
  · rename_i hlength
    dsimp only
    rw [Octets.payloadCode?_eq_some_iff (by omega)]
    split
    · rename_i hcode
      constructor
      · intro h
        cases h
        exact ⟨Nat.not_lt.mp hlength, hcode, rfl⟩
      · rintro ⟨-, -, rfl⟩
        rfl
    · rename_i hcode
      constructor
      · intro h
        cases h
      · rintro ⟨-, hother, -⟩
        exact absurd hother hcode

theorem ofControl_eq_sequence_iff : (ofControl p).verdict = .sequence audio ↔
    ∃ status seqno, ControlMessage.Denotes p.content (.recovered status seqno) ∧
      audio = ((p.dropFront ControlMessage.recoveryOffset).setSeqno seqno).setRetransmitted
        true := by
  constructor
  · intro h
    rw [ofControl] at h
    split at h <;> cases h
    rename_i hdecode
    exact ⟨_, _, ControlMessage.decode_eq_ok_iff.mp hdecode, rfl⟩
  · rintro ⟨status, seqno, hdenotes, rfl⟩
    rw [ofControl, hdenotes.decode_eq]

theorem of_sequence_ofControl (h : (ofControl p).verdict = .sequence audio) :
    ∃ hlength : 16 ≤ p.content.length,
      p.content.payloadCode? = some PayloadType.retransmitResponse.code ∧
      p.content.field 2 2 (by omega) ≠ ControlMessage.statusDeclined ∧
      audio = ((p.dropFront ControlMessage.recoveryOffset).setSeqno
        (SeqNo.field p.content 6 (by omega))).setRetransmitted true := by
  obtain ⟨status, seqno, hdenotes, rfl⟩ := ofControl_eq_sequence_iff.mp h
  cases hdenotes with
  | recovered hcode hstatus hanswered hlength hseqno =>
      refine ⟨hlength, hcode, ?_, ?_⟩
      · rwa [hstatus.field_eq]
      · rw [(SeqNo.field_eq_iff _ _).mpr hseqno]

end Judgement

end AudioIntake
