import TimedStreams.Engine.Evaluation

/-!
# The command line

`stream-trace` evaluates expressions over two small recorded inputs, five red integers and five green letters, and prints the trace of each, or the whole report as JSON. The factors come from the environment and can be overridden by options. Arguments are looked at before all else; then the settings, the expressions and the engine are checked in this order, and the first fault is reported with what was being done.
-/

namespace TimedStreams

namespace Samples

def integers : StateM IdSupply (List Event) :=
  [(0.0, 1), (1.0, 2), (2.0, 3), (5.0, 4), (8.0, 5)].mapM fun (time, n) => do
    return (← Event.fresh time (.int n)).withColor .red

def letters : StateM IdSupply (List Event) :=
  [(1.5, "a"), (2.5, "b"), (4.5, "c"), (6.5, "d"), (7.5, "e")].mapM fun (time, s) => Event.fresh time (.text s)

end Samples

namespace CommandLine

structure Options where
  expressions : List String := []
  speed : Option Float := none
  reporting : Option Float := none
  json : Bool := false

inductive Request where
  | evaluate (options : Options)
  | help
  /-- The arguments are not as they should be. -/
  | misuse

/-- Sets a factor that is given once and as a number. -/
def Options.set? (options : Options) (factor : Factor) (value : String) : Option Options :=
  match Decimal.read value.toList, factor with
  | .ok x, .speed => if options.speed.isNone then some { options with speed := some x } else none
  | .ok x, .reporting => if options.reporting.isNone then some { options with reporting := some x } else none
  | .error _, _ => none

def speedOption : String := "--speed-factor"

def reportingOption : String := "--reporting-factor"

/-- The factor and the value of an option that has its value after an equals sign. -/
def attached? (arg : String) : Option (Factor × String) :=
  let chars := arg.toList
  let value := String.ofList ((chars.dropWhile (· ≠ '=')).drop 1)
  if (speedOption ++ "=").toList.isPrefixOf chars then some (.speed, value)
  else if (reportingOption ++ "=").toList.isPrefixOf chars then some (.reporting, value)
  else none

/-- The factor that an option sets by the argument after it. -/
def separate? (arg : String) : Option Factor :=
  if arg = speedOption then some .speed else if arg = reportingOption then some .reporting else none

def looksLikeOption (arg : String) : Bool :=
  match arg.toList with
  | '-' :: _ :: _ => true
  | _ => false

/-- Reads the arguments from left to right. Everything after `--` is an expression. -/
def readArgs (options : Options) : List String → Request
  | [] => .evaluate options
  | arg :: rest =>
    if arg = "--" then .evaluate { options with expressions := options.expressions ++ rest }
    else if arg = "--help" ∨ arg = "-h" then .help
    else if arg = "--json" then if options.json then .misuse else readArgs { options with json := true } rest
    else match separate? arg, rest with
      | some factor, value :: rest =>
        if looksLikeOption value then .misuse
        else match options.set? factor value with
          | some options => readArgs options rest
          | none => .misuse
      | some _, [] => .misuse
      | none, rest =>
        match attached? arg with
        | some (factor, value) =>
          match options.set? factor value with
          | some options => readArgs options rest
          | none => .misuse
        | none =>
          if looksLikeOption arg then .misuse
          else readArgs { options with expressions := options.expressions ++ [arg] } rest

def defaultExpressions : List String :=
  ["input1", "input2", "merge(input1, input2)", "chain(input1, input2)", "zip(input1, input2)",
    "combineLatest(input1, input2)", "input1.adjacentPairs()"]

def usage : String :=
  "Usage: stream-trace [OPTIONS] [EXPRESSIONS]...\n"

def help : String :=
  "Trace stream combinators over timed sample inputs\n\n" ++ usage ++
  "\nArguments:\n  [EXPRESSIONS]...  Combinator expressions, e.g. \"zip(input1, merge(input2, input1))\"\n" ++
  "\nOptions:\n" ++
  "      --speed-factor <SPEED_FACTOR>          Replay speed factor (overrides CIM_STREAM_SPEED_FACTOR)\n" ++
  "      --reporting-factor <REPORTING_FACTOR>  Reporting factor (overrides CIM_STREAM_REPORTING_FACTOR)\n" ++
  "      --json                                 Print the evaluation report as JSON\n" ++
  "  -h, --help                                 Print help\n"

/-- A fault, and what was being done when it arose. -/
structure Failure where
  doing : String
  fault : Fault

/-- What surrounds a call: the settings of the environment, the time, and a source of identifiers. -/
structure Surroundings where
  speed : Option String
  reporting : Option String
  startedAt : Timestamp
  supply : IdSupply

inductive Outcome where
  | help
  | misuse
  | failed (failure : Failure)
  | traced (json : Bool) (nodes : List Node) (survey : Survey)

/-- Names what is being done when a fault arises. -/
def attempt {α : Type} (doing : String) (x : Except Fault α) : Except Failure α :=
  x.mapError fun fault => ⟨doing, fault⟩

def evaluate (options : Options) (around : Surroundings) : Except Failure (List Node × Survey) := do
  let config ← attempt "Failed to load engine configuration" (Config.ofSettings around.speed around.reporting)
  let config : Config := ⟨options.speed.getD config.speed, options.reporting.getD config.reporting⟩
  let texts := if options.expressions.isEmpty then defaultExpressions else options.expressions
  let exprs ← texts.mapM fun text => attempt ("Invalid expression: " ++ text) (Expr.parse text)
  let engine ← attempt "Invalid engine configuration" (Engine.make config .millisecond)
  let draw : StateM IdSupply (List Node × List Event × List Event) := do
    return (← exprs.mapM Node.fresh, ← Samples.integers, ← Samples.letters)
  let (nodes, integers, letters) := (draw.run around.supply).1
  let context ← attempt "Invalid sample inputs" (Context.make integers letters config.speed)
  let survey ← attempt "Evaluation failed" (engine.runAll around.startedAt nodes context)
  return (nodes, survey)

def run (args : List String) (around : Surroundings) : Outcome :=
  match readArgs {} args with
  | .help => .help
  | .misuse => .misuse
  | .evaluate options =>
    match evaluate options around with
    | .error failure => .failed failure
    | .ok (nodes, survey) => .traced options.json nodes survey

namespace Outcome

def code : Outcome → Nat
  | help | traced _ _ _ => 0
  | failed _ => 1
  | misuse => 2

/-- The expression of a node and its trace, line by line. -/
def traceLines (survey : Survey) (node : Node) : String :=
  node.expr.render ++ "\n" ++
    String.join (((survey.report.trace? node.id).getD []).map fun e => "  " ++ e.render ++ "\n")

def output : Outcome → String
  | help => CommandLine.help
  | misuse | failed _ => ""
  | traced true _ survey => survey.report.render ++ "\n"
  | traced false nodes survey =>
    String.join (nodes.map (traceLines survey)) ++ "duration: " ++ Decimal.fixed 3 survey.report.duration ++ "\n"

/-- What is written to the standard error. -/
def complaint : Outcome → String
  | help | traced _ _ _ => ""
  | misuse => usage
  | failed ⟨doing, fault⟩ => "Error: " ++ doing ++ "\n\nCaused by:\n    " ++ fault.message ++ "\n"

/-- How long the evaluation takes in real time, in nanoseconds. -/
def elapsed : Outcome → Nat
  | traced _ _ survey => survey.finish
  | help | misuse | failed _ => 0

end Outcome

end CommandLine

end TimedStreams
