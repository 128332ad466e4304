import AudioIntake.Pipeline.Basic

/-!
# Sinks that may fail

A transmitter gives its datagrams to a sink one at a time. It notes how the sink answered and goes on
with the next rerequest, whatever the answer was.
-/

namespace AudioIntake

inductive SinkAnswer where
  | taken
  | failed (reason : String)
deriving DecidableEq

/-- What is noted of a rerequest when the sink has answered. -/
def Rerequest.line (r : Rerequest) : SinkAnswer → String
  | .taken => s!"DEBUG Recovery request {r.first.val}..{r.last.val} sent"
  | .failed reason => s!"WARN Failed to send rerequest: {reason}"

/-- A pipeline in front of a sink, and what its transmitter has noted. -/
structure Outlet where
  pipeline : Pipeline
  log : List String

namespace Outlet

/-- What the transmitter notes in an action, if the sink answers like that when it is given a
datagram. -/
def noted (o : Outlet) (answer : SinkAnswer) : Pipeline.Action → List String
  | .transmit => (o.pipeline.outbox.items.take 1).map (·.line answer)
  | _ => []

def act (o : Outlet) (a : Pipeline.Action) (answer : SinkAnswer) : Outlet :=
  { pipeline := o.pipeline.act a, log := o.log ++ o.noted answer a }

def run (o : Outlet) (steps : List (Pipeline.Action × SinkAnswer)) : Outlet :=
  steps.foldl (fun o (a, answer) => o.act a answer) o

end Outlet

end AudioIntake
