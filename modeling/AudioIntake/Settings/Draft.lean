import AudioIntake.Settings.Session

/-!
# Settings under construction

A draft starts from the defaults and is changed step by step. The tuning of the stream is worked on
apart and enters the session's settings when it is adopted.
-/

namespace AudioIntake

structure Draft where
  session : SessionSettings
  stream : StreamSettings
deriving DecidableEq

namespace Draft

inductive Step where
  | tickIntervalMs (ms : UInt64)
  | retryLadder (rerequestTicks : List UInt32) (giveUpTick : UInt32)
  | maxLead (lead : Int32)
  | bindAddress (address : IPAddress)
  | controlPeer (peer : Endpoint)
  /-- The session takes the stream's settings as they are now. -/
  | adoptStream

def start : Draft := { session := .default, stream := .default }

def apply (d : Draft) : Step → Draft
  | .tickIntervalMs ms => { d with stream := { d.stream with tickIntervalMs := ms } }
  | .retryLadder rerequestTicks giveUpTick =>
    { d with stream := { d.stream with rerequestTicks, giveUpTick } }
  | .maxLead maxLead => { d with stream := { d.stream with maxLead } }
  | .bindAddress bindAddress => { d with session := { d.session with bindAddress } }
  | .controlPeer peer => { d with session := { d.session with controlPeer := some peer } }
  | .adoptStream => { d with session := { d.session with stream := d.stream } }

def build (steps : List Step) : Draft := steps.foldl apply start

/-- Whether a session's settings survive being written and read back, or why they cannot be read. -/
def survives (s : SessionSettings) : Except SettingsError Bool :=
  (SessionSettings.ofText s.text).map fun t => t = s

end Draft

end AudioIntake
