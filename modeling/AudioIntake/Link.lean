import AudioIntake.Double
import AudioIntake.Sample

/-!
# Simulated links

A link loses, delays, scatters and reorders packets that are sent at the audio rate. Rates are in
thousandths: a rate of zero or less never strikes, one of a thousand always does, and none may be
higher. A schedule is worked out where the conditions leave nothing to chance.
-/

namespace AudioIntake

inductive Undecided where
  /-- A rate above one is no probability. -/
  | rateAboveOne
  | leftToChance
deriving DecidableEq

structure Link where
  lossPerMille : Int
  jitterMs : Nat
  delayMs : Nat
  reorderPerMille : Int
deriving DecidableEq

structure Schedule where
  /-- Times in microseconds, ascending, and what arrives then. -/
  arrivals : List (Nat × SeqNo)
  lost : List SeqNo
deriving DecidableEq

namespace Schedule

def order (s : Schedule) : List SeqNo := s.arrivals.map Prod.snd

end Schedule

namespace Link

def sampleRate : Nat := 44100

/-- Microseconds between audio packets. -/
def interval : Nat := Sample.framesPerPacket * 1000000 / sampleRate

def perfect : Link := ⟨0, 0, 0, 0⟩

def good : Link := ⟨1, 5, 2, 1⟩

def moderate : Link := ⟨10, 20, 10, 10⟩

def poor : Link := ⟨50, 50, 30, 50⟩

def stress : Link := ⟨100, 100, 50, 100⟩

/-- A rate given in percent. The rate and its thousandfold are doubles, and the thousandfold is then
rounded to the nearest integer and kept within 64 bits. -/
def perMilleOfPercent (percent : Int) : Int :=
  let rate := Double.quotient (Double.round percent.natAbs) 100
  let magnitude := Double.toNearest (Double.round (1000 * rate))
  max (-9223372036854775808) (min 9223372036854775807 (percent.sign * magnitude))

def strikes (perMille : Int) : Except Undecided Bool :=
  if perMille ≤ 0 then .ok false
  else if 1000 < perMille then .error .rateAboveOne
  else if perMille = 1000 then .ok true
  else .error .leftToChance

/-- How long a packet takes. Jitter below two milliseconds is none. -/
def latency (link : Link) : Except Undecided Nat :=
  if 2 ≤ link.jitterMs then .error .leftToChance else .ok (link.delayMs * 1000)

/-- When the packet sent in the `i`-th place arrives, if it is not lost. A packet that is reordered
comes late by a number of packets left to chance. -/
def arrival? (link : Link) (i : Nat) : Except Undecided (Option Nat) := do
  if ← strikes link.lossPerMille then return none
  else if ← strikes link.reorderPerMille then .error .leftToChance
  else return some (interval * i + (← link.latency))

def fates (link : Link) (first : SeqNo) (count : Nat) :
    Except Undecided (List (SeqNo × Option Nat)) :=
  (List.range count).mapM fun i => (link.arrival? i).map fun at? => (first + i, at?)

def schedule (link : Link) (first : SeqNo) (count : Nat) : Except Undecided Schedule := do
  let fates ← link.fates first count
  let arrivals := fates.filterMap fun (seqno, at?) => at?.map fun t => (t, seqno)
  return {
    arrivals := arrivals.mergeSort fun a b => a.1 ≤ b.1
    lost := fates.filterMap fun (seqno, at?) => if at?.isNone then some seqno else none }

end Link

end AudioIntake
