import TimedStreams.Decimal.Reading
import TimedStreams.Event.Basic
import TimedStreams.Expr.Reader

/-!
# What can go wrong

The causes for which building or running an evaluation is refused, each with what its message needs to name. Empty inputs, streams that end early and evaluations that are given up are no faults: they are ordinary outcomes.
-/

namespace TimedStreams

/-- The two factors that scale time. -/
inductive Factor where
  /-- Recorded seconds per replayed second. -/
  | speed
  /-- Reported seconds per elapsed second. -/
  | reporting
  deriving DecidableEq, Repr

def Factor.name : Factor → String
  | speed => "speed_factor"
  | reporting => "reporting_factor"

def Factor.variable : Factor → String
  | speed => "CIM_STREAM_SPEED_FACTOR"
  | reporting => "CIM_STREAM_REPORTING_FACTOR"

inductive Fault where
  /-- A factor that is not a positive finite number. -/
  | badFactor (factor : Factor) (value : Float)
  /-- A setting whose text is no number. -/
  | badSetting (factor : Factor) (cause : Decimal.Malformed)
  | timeNotFinite (id : EventId) (time : Float)
  /-- An event that would be replayed later than a replay may last. -/
  | beyondHorizon (id : EventId) (time speed : Float)
  | badExpr (offset : Nat) (complaint : Expr.Complaint)
  /-- An identifier that two requested nodes share. -/
  | duplicateNode (id : Uuid)
  /-- An event or announcement for a reader that no longer exists. -/
  | consumerGone
  /-- A text that is not the written form of the data asked for. -/
  | badJson
  deriving DecidableEq, Repr

def Fault.message : Fault → String
  | badFactor factor value =>
    "Configuration error: " ++ factor.name ++ " must be a positive finite number, got " ++ Decimal.plain value
  | badSetting factor cause => "Configuration error: invalid " ++ factor.variable ++ ": " ++ cause.message
  | timeNotFinite id time => "Invalid event: event " ++ id.render ++ " has non-finite time " ++ Decimal.plain time
  | beyondHorizon id time speed =>
    "Invalid event: event " ++ id.render ++ " at t=" ++ Decimal.plain time
      ++ " replays more than 31536000s after the origin at speed " ++ Decimal.plain speed
  | badExpr offset complaint =>
    "Parse error at offset " ++ String.ofList (Decimal.digits offset) ++ ": " ++ complaint.message
  | duplicateNode id => "Duplicate node in evaluation request: " ++ id.render
  | consumerGone => "Signal consumer dropped"
  | badJson => "Serialization error"

def Expr.parse (s : String) : Except Fault Expr :=
  (Expr.read s.toList).mapError fun refusal => .badExpr (refusal.offset s.toList) refusal.complaint

end TimedStreams
