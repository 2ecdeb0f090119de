import Std.Time.DateTime
import TimedStreams.CommandLine

/-!
# The program

`stream-trace` with its arguments, its environment and the clock of the machine. The evaluation is computed at once and shown when it would have completed.
-/

open TimedStreams

def TimedStreams.Factor.setting (factor : Factor) : IO (Option String) :=
  IO.getEnv factor.variable

def main (args : List String) : IO UInt32 := do
  let sinceEpoch := (← Std.Time.Timestamp.now).toNanosecondsSinceUnixEpoch.val.toNat
  let seed ← IO.rand 0 (Nat.pow 2 62)
  let around : CommandLine.Surroundings := {
    speed := ← Factor.speed.setting
    reporting := ← Factor.reporting.setting
    startedAt := ⟨sinceEpoch / Nat.pow 10 9, sinceEpoch % Nat.pow 10 9⟩
    supply := { millis := sinceEpoch / Nat.pow 10 6, serial := seed } }
  let outcome := CommandLine.run args around
  IO.sleep (outcome.elapsed / 1000000).toUInt32
  (← IO.getStdout).putStr outcome.output
  (← IO.getStderr).putStr outcome.complaint
  return outcome.code.toUInt32
