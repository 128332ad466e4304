import AudioIntake.Buffer.Packet
import AudioIntake.Wire.ControlMessage

/-!
# What to do with a datagram

Audio arrives on the data channel as it is, and on the control channel inside replies to rerequests.
Either way it is handed to the sequencer under the number it carries. A reply that declines leads to
a flush, since nothing tracks which rerequests are open. All else is let go.
-/

namespace AudioIntake

inductive Verdict where
  | sequence (packet : Packet)
  | flush
  | discard
deriving DecidableEq

/-- What is noted in the log about a datagram. -/
inductive Remark where
  | tooShort (length : Nat)
  | unknownPayload (code : UInt8)
  | clock (rtpTimestamp : UInt32)
  | strayRerequest (request : Rerequest)
  | recovery (status : UInt16) (seqno : SeqNo)
  | declined (seqno : SeqNo)
  | undecodable (error : DecodeError)
deriving DecidableEq

namespace Remark

def line : Remark → String
  | tooShort length => s!"DEBUG Data packet too short: {length} bytes"
  | unknownPayload code => s!"DEBUG Data channel: unknown payload type Some({code.toNat})"
  | clock rtpTimestamp => s!"TRACE Sync packet ignored, rtp_timestamp={rtpTimestamp.toNat}"
  | strayRerequest request =>
    s!"DEBUG A retransmit request should not be received here: {request.describe}"
  | recovery status seqno => s!"DEBUG Recovery packet, status={status.toNat}, seqno={seqno.val}"
  | declined seqno => s!"DEBUG Sender will not resend {seqno.val}, flushing"
  | undecodable error => s!"DEBUG Control packet ignored: {error.message}"

end Remark

structure Judgement where
  verdict : Verdict
  remark : Option Remark

namespace Judgement

def ofData (p : Packet) : Judgement :=
  if h : p.content.length < 12 then
    { verdict := .discard, remark := some (.tooShort p.content.length) }
  else
    let code := p.content[1] % 128
    if code = PayloadType.audio.code then
      let seqno := SeqNo.field p.content 2 (by omega)
      { verdict := .sequence ((p.setSeqno seqno).setRetransmitted false), remark := none }
    else { verdict := .discard, remark := some (.unknownPayload code) }

def ofControl (p : Packet) : Judgement :=
  match ControlMessage.decode p.content with
  | .ok (.sync rtpTimestamp _ _) => { verdict := .discard, remark := some (.clock rtpTimestamp) }
  | .ok (.rerequest request) => { verdict := .discard, remark := some (.strayRerequest request) }
  | .ok (.recovered status seqno) =>
    let audio := p.dropFront ControlMessage.recoveryOffset
    { verdict := .sequence ((audio.setSeqno seqno).setRetransmitted true)
      remark := some (.recovery status seqno) }
  | .ok (.declined seqno) => { verdict := .flush, remark := some (.declined seqno) }
  | .error e => { verdict := .discard, remark := some (.undecodable e) }

end Judgement

end AudioIntake
