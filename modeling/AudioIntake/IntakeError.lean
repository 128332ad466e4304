import AudioIntake.Settings.Session
import AudioIntake.Wire.DecodeError

/-!
# What can go wrong outside the sequencer

Sockets, malformed datagrams, settings and a worker that has stopped. The sequencer itself never
fails: loss, repetition and lost synchronisation change its state.
-/

namespace AudioIntake

inductive IntakeError where
  | network (reason : String)
  | decode (error : DecodeError)
  | invalidSetting (name problem : String)
  | channelClosed
deriving DecidableEq

namespace IntakeError

def ofInvalidSetting (setting : InvalidSetting) : IntakeError :=
  invalidSetting setting.name setting.problem

def message : IntakeError → String
  | network reason => s!"network error: {reason}"
  | decode error => s!"RTP decode error: {error.message}"
  | invalidSetting name problem => s!"invalid config: {name} - {problem}"
  | channelClosed => "sequencer channel closed"

def isClosed : IntakeError → Bool
  | channelClosed => true
  | _ => false

end IntakeError

end AudioIntake
