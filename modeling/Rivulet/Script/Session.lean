import Rivulet.Engine.Interpreter
import Rivulet.Engine.Rendering
import Rivulet.Engine.Resolving
import Rivulet.Script.Reader

/-!
# Sessions

A session runs the steps of a script one after the other on one engine and collects what each
of them logged. A step that fails or breaks down does not keep the next one from running.
-/

namespace Rivulet.Script

open Engine

/-- How many calls may be nested in a step. -/
def maxDepth : Nat := 1000000000

/-- The kernel of a session. -/
def kernel : Kernel := Engine.kernel maxDepth

/-- The event of a stream as a value, with the text of the whole stream. -/
def streamValue (events : List Query.Prefetch.Event) : Json :=
  .ofFields [("events", .arr (events.map (·.value))),
    ("wire", .str (String.ofList (events.flatMap (·.frame))))]

/-- A page, or what is wrong with its payload, as a value. -/
def pageValue : Except Query.PayloadError Page → Json
  | .ok page => page.value
  | .error e => e.value

/-- Looks up a coordinator. -/
def coordinator? (name : String) : Run (Option Coordinator) :=
  return ((← get).handle? name).bind Handle.coordinator?

/-- The application behind a handle. -/
def mount? : Handle → Option Mount
  | .mount m => some m
  | _ => none

/-- Runs a step with a kernel. -/
def Step.runWith (κ : Kernel) : Step → Run Outcome
  | .statement s => exec κ s.program
  | .render name route ms body => do
    if let some c ← coordinator? name then
      let timeout := (ms.map Query.Options.milliseconds).getD c.options.timeout
      let page ← Engine.render κ c (template body route) timeout
      modify (·.addLog (pageValue page))
    return .value .null
  | .prefetch name route ms body => do
    if let some c ← coordinator? name then
      let events ← Engine.prefetch κ c (template body route) ms
      modify (·.addLog (streamValue events))
    return .value .null
  | .resolve name => do
    if let some m := ((← get).handle? name).bind mount? then
      let count ← resolvePending κ m.client
      modify (·.addLog (.ofFields [("resolved", .ofNat count)]))
    return .value .null
  | .advance ms => do
    Engine.advance ms
    return .value .null

/-- Runs a step. -/
def Step.run : Step → Run Outcome := Step.runWith kernel

/-- What shows of a step that has run: what it logged, and how it ended if it ended early. -/
def report (log : List Json) (ending : List (String × Json)) : Json :=
  .ofFields (("log", .arr log.reverse) :: ending)

/-- Runs a step and shows what it did. -/
def Step.perform (step : Step) (s : State) : Json × State :=
  match step.run { s with log := [] } with
  | .ok (.value _) s => (report s.log [], s)
  | .ok (.failure message) s => (report s.log [("fail", .str message)], s)
  | .error (.panic message) s => (report s.log [("panic", .str message)], s)
  | .error .outOfFuel s => (report s.log [("panic", .str "out of fuel")], s)

/-- The procedures that an object holds by name. -/
def readProcedures (v : Json) : Std.HashMap String Procedure :=
  match v with
  | .obj fields => .ofList (fields.map fun (name, body) => (name, procedure (readBody body)))
  | _ => ∅

/-- Runs steps one after the other and shows what they did. -/
def performAll : List Step → State → List Json
  | [], _ => []
  | step :: rest, s =>
    let (shown, s) := step.perform s
    shown :: performAll rest s

/-- Runs a session and shows what its steps did. -/
def run (input : Json) : Json :=
  let start : State := { procedures := readProcedures (field "defs" input) }
  let steps := (field "steps" input).items.map Step.ofJson
  .ofFields [("steps", .arr (performAll steps start))]

end Rivulet.Script
