import AudioIntake.Sequencer.Basic

/-!
# Admission to the sequencer

A packet much further ahead than any gap can be shows that the sender has started over. A primary
packet of that kind makes the sequencer start over too; a retransmitted one is a leftover and is
discarded.
-/

namespace AudioIntake

namespace Sequencer

def isBeyond (s : Sequencer) (maxLead : Int) (seqno : SeqNo) : Bool :=
  match s.lead? seqno with
  | some lead => maxLead < lead
  | none => false

def accept (s : Sequencer) (maxLead : Int) (p : Packet) : Sequencer × Report :=
  if s.isBeyond maxLead p.seqno then
    if p.retransmitted then s.discard p
    else
      let (s, flushed) := s.flush
      let (s, r) := s.handle p
      (s, flushed ++ r)
  else s.handle p

end Sequencer

end AudioIntake
