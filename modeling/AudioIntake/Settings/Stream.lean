import AudioIntake.Sequencer.Basic
import AudioIntake.Settings.Codec

/-!
# Settings of a stream

How the sequencer and its worker are tuned, which settings are usable, and how they are written in
JSON.
-/

namespace AudioIntake

structure StreamSettings where
  tickIntervalMs : UInt64
  rerequestTicks : List UInt32
  giveUpTick : UInt32
  /-- A packet further ahead than this shows that the stream has started over. -/
  maxLead : Int32
  queueCapacity : UInt64
  rerequestQueueCapacity : UInt64
deriving DecidableEq

inductive InvalidSetting where
  | tickIntervalZero
  | giveUpZero
  | rungsNotAscending
  | rungZero
  | rungsBeyondGiveUp
  | maxLeadNotPositive
  | queueEmpty
deriving DecidableEq

namespace InvalidSetting

def name : InvalidSetting → String
  | tickIntervalZero => "tick_interval_ms"
  | giveUpZero => "give_up_tick"
  | rungsNotAscending => "rerequest_ticks"
  | rungZero => "rerequest_ticks"
  | rungsBeyondGiveUp => "rerequest_ticks"
  | maxLeadNotPositive => "max_lead"
  | queueEmpty => "queue_capacity"

def problem : InvalidSetting → String
  | tickIntervalZero => "must be positive"
  | giveUpZero => "must be positive"
  | rungsNotAscending => "must be strictly ascending"
  | rungZero => "levels start at 1"
  | rungsBeyondGiveUp => "must all be below give_up_tick"
  | maxLeadNotPositive => "must be positive"
  | queueEmpty => "queues need room for one item"

end InvalidSetting

def ascending : List UInt32 → Bool
  | a :: b :: rest => a < b && ascending (b :: rest)
  | _ => true

namespace StreamSettings

def default : StreamSettings :=
  { tickIntervalMs := 10
    rerequestTicks := [3, 11, 23]
    giveUpTick := 37
    maxLead := 2000
    queueCapacity := 256
    rerequestQueueCapacity := 128 }

def check (s : StreamSettings) : Except InvalidSetting Unit :=
  if s.tickIntervalMs = 0 then .error .tickIntervalZero
  else if s.giveUpTick = 0 then .error .giveUpZero
  else if !ascending s.rerequestTicks then .error .rungsNotAscending
  else if 0 ∈ s.rerequestTicks then .error .rungZero
  else if s.rerequestTicks.getLast?.any (s.giveUpTick ≤ ·) then .error .rungsBeyondGiveUp
  else if s.maxLead ≤ 0 then .error .maxLeadNotPositive
  else if s.queueCapacity = 0 ∨ s.rerequestQueueCapacity = 0 then .error .queueEmpty
  else .ok ()

theorem check_eq_ok_iff (s : StreamSettings) :
    s.check = .ok () ↔
      s.tickIntervalMs ≠ 0 ∧ s.giveUpTick ≠ 0 ∧ ascending s.rerequestTicks = true ∧
        0 ∉ s.rerequestTicks ∧ s.rerequestTicks.getLast?.any (s.giveUpTick ≤ ·) = false ∧
        0 < s.maxLead ∧ s.queueCapacity ≠ 0 ∧ s.rerequestQueueCapacity ≠ 0 := by
  rw [← Int32.not_le, ← not_or, check]
  repeat' split
  all_goals simp_all

def ladder (s : StreamSettings) : Ladder :=
  { rerequestAt := s.rerequestTicks.map UInt32.toNat, giveUpAt := s.giveUpTick.toNat }

def sequencer (s : StreamSettings) : Sequencer := .ofLadder s.ladder

end StreamSettings

namespace Codec

def word16 : Codec UInt16 :=
  (integer 0 65535).map (fun i => UInt16.ofNat i.toNat) fun w => w.toNat

def word32 : Codec UInt32 :=
  (integer 0 4294967295).map (fun i => UInt32.ofNat i.toNat) fun w => w.toNat

def word64 : Codec UInt64 :=
  (integer 0 18446744073709551615).map (fun i => UInt64.ofNat i.toNat) fun w => w.toNat

def signed32 : Codec Int32 := (integer (-2147483648) 2147483647).map Int32.ofInt Int32.toInt

end Codec

namespace StreamSettings

def fields : List (Field StreamSettings) :=
  [ .of "tick_interval_ms" .word64 tickIntervalMs fun a s => { s with tickIntervalMs := a },
    .of "rerequest_ticks" (.list .word32) rerequestTicks fun a s => { s with rerequestTicks := a },
    .of "give_up_tick" .word32 giveUpTick fun a s => { s with giveUpTick := a },
    .of "max_lead" .signed32 maxLead fun a s => { s with maxLead := a },
    .of "queue_capacity" .word64 queueCapacity fun a s => { s with queueCapacity := a },
    .of "rerequest_queue_capacity" .word64 rerequestQueueCapacity
      fun a s => { s with rerequestQueueCapacity := a } ]

def codec : Codec StreamSettings := .record fields default

def ofValue (v : Json) : Option StreamSettings := codec.ofValue v

def toValue (s : StreamSettings) : Json := codec.toValue s

end StreamSettings

end AudioIntake
