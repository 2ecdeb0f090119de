import TimedStreams.Fault
import TimedStreams.Text
import TimedStreams.Timeline

/-!
# Configuration and contexts

The two factors of an engine are both ten unless set otherwise: an event recorded at one second is then replayed after a tenth of a second and reported at one second again. A factor must be a positive finite number.

What an evaluation runs on is a context: the two recorded inputs as timelines, and the speed at which they are replayed. A context is only made of inputs that can be replayed to their end.
-/

namespace TimedStreams

structure Config where
  speed : Float := 10.0
  reporting : Float := 10.0
  deriving DecidableEq, Repr

def Factor.check (factor : Factor) (value : Float) : Except Fault Unit :=
  if value.isFinite && 0.0 < value then .ok () else .error (.badFactor factor value)

namespace Config

/-- Refuses a configuration for its first bad factor. -/
def validate (config : Config) : Except Fault Unit := do
  Factor.speed.check config.speed
  Factor.reporting.check config.reporting

/-- The number that a setting spells between blanks; ten if it is not set. -/
def readFactor (factor : Factor) : Option String → Except Fault Float
  | none => .ok 10.0
  | some text => (Decimal.read (Text.trimBlanks text.toList)).mapError (.badSetting factor)

/-- The configuration that the settings of the environment describe. Both are read before either is checked. -/
def ofSettings (speed reporting : Option String) : Except Fault Config := do
  let config : Config := ⟨← readFactor .speed speed, ← readFactor .reporting reporting⟩
  config.validate
  return config

end Config

structure Context where
  first : Timeline
  second : Timeline
  speed : Float

namespace Context

/-- Refuses a bad speed, then times that are not finite, then events due beyond the horizon. -/
def make (first second : List Event) (speed : Float) : Except Fault Context := do
  Factor.speed.check speed
  let first ← Timeline.ofFiniteEvents first
  let second ← Timeline.ofFiniteEvents second
  first.check speed
  second.check speed
  return ⟨first, second, speed⟩

def timeline (context : Context) : Input → Timeline
  | .first => context.first
  | .second => context.second

def latestInputTime (context : Context) : Option Float :=
  ((context.first.events ++ context.second.events).map Event.time).foldl
    (fun latest time => some (latest.elim time (Binary64.laterOf · time))) none

end Context

end TimedStreams
