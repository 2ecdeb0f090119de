import TimedStreams.Binary64

/-!
# Instants

An instant is a natural number: the nanoseconds since the origin of an evaluation. A recorded time becomes an instant when it is scheduled for replay, and an instant becomes a number of seconds again when an event is reported.
-/

namespace TimedStreams

namespace Instant

def nanosPerSecond : Nat := Nat.pow 10 9

/-- The longest delay after which an event may still be replayed: 365 days. -/
def horizon : Nat :=
  365 * 24 * 60 * 60 * nanosPerSecond

/-- The horizon in seconds. -/
def horizonSeconds : Float := 31536000.0

/-- The instant nearest to `seconds`, the even one if two are equally near; the origin for what is negative or not a number, and nothing beyond the horizon. -/
def ofSeconds? (seconds : Float) : Option Nat :=
  match Binary64.shape seconds with
  | .nan | .infinite true | .finite true _ _ => some 0
  | .infinite false => none
  | .finite false mantissa exponent =>
    let (num, den) := Binary64.fraction mantissa exponent
    let nanos := Binary64.roundDivEven (num * nanosPerSecond) den
    if nanos ≤ horizon then some nanos else none

/-- The seconds since the origin: the whole seconds and the remaining nanoseconds are each turned into a double, and then added. -/
def toSeconds (t : Nat) : Float :=
  Float.ofNat (t / nanosPerSecond) + Float.ofNat (t % nanosPerSecond) / 1e9

/-- The first whole millisecond that is not before `t`. -/
def ceilMillisecond (t : Nat) : Nat :=
  (t + 999999) / 1000000 * 1000000

theorem le_ceilMillisecond (t : Nat) : t ≤ ceilMillisecond t := by
  unfold ceilMillisecond
  omega

end Instant

end TimedStreams
