import AudioIntake.Address.Endpoint
import AudioIntake.Buffer.Pool
import AudioIntake.Settings.Stream

/-!
# Settings of a session

Addresses, ports and the tuning of the stream, read from a JSON document and checked. A document is
refused because it cannot be read or because a setting in it cannot be used, and only a document
that can be read is checked.
-/

namespace AudioIntake

structure SessionSettings where
  bindAddress : IPAddress
  /-- A port of 0 is chosen by the system. -/
  dataPort : UInt16
  controlPort : UInt16
  timingPort : UInt16
  /-- Where rerequests go; if unset, to the sender of the latest control datagram. -/
  controlPeer : Option Endpoint
  maxIdleBuffers : UInt64
  stream : StreamSettings
deriving DecidableEq

inductive SettingsError where
  | unreadable (fault : Fault)
  | invalid (setting : InvalidSetting)
deriving DecidableEq

namespace SessionSettings

def default : SessionSettings :=
  { bindAddress := .v4 .unspecified
    dataPort := 0
    controlPort := 0
    timingPort := 0
    controlPeer := none
    maxIdleBuffers := UInt64.ofNat Pool.defaultMaxIdle
    stream := .default }

def check (s : SessionSettings) : Except InvalidSetting Unit := s.stream.check

def fields : List (Field SessionSettings) :=
  [ .of "bind_addr" (.text IPAddress.ofText? IPAddress.text) bindAddress
      fun a s => { s with bindAddress := a },
    .of "data_port" .word16 dataPort fun a s => { s with dataPort := a },
    .of "control_port" .word16 controlPort fun a s => { s with controlPort := a },
    .of "timing_port" .word16 timingPort fun a s => { s with timingPort := a },
    .of "control_peer" (.optional (.text Endpoint.ofText? Endpoint.text)) controlPeer
      fun a s => { s with controlPeer := a },
    .of "arena_max_pooled" .word64 maxIdleBuffers fun a s => { s with maxIdleBuffers := a },
    .of "sequencer" StreamSettings.codec stream fun a s => { s with stream := a } ]

def codec : Codec SessionSettings := .record fields default

def toValue (s : SessionSettings) : Json := codec.toValue s

/-- Reads a whole document, which holds one value and blanks around it. -/
def scan (text : String) : Except Fault SessionSettings := do
  let (s, rest) ← codec.scan text.toList
  match Scan.skipBlanks rest with
  | [] => return s
  | _ :: _ => .error .malformed

def ofText (text : String) : Except SettingsError SessionSettings :=
  match scan text with
  | .error fault => .error (.unreadable fault)
  | .ok s =>
    match s.check with
    | .error setting => .error (.invalid setting)
    | .ok () => .ok s

def text (s : SessionSettings) : String := s.toValue.print

end SessionSettings

end AudioIntake
