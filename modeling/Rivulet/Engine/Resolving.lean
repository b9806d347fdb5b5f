import Rivulet.Engine.Clock
import Rivulet.Engine.Mounting

/-!
# Resolving what was put off

An application resolves the queries that the server has sent no value for: all fetches run at
the same time, and when the last one has ended, the results are applied in one batch.
-/

namespace Rivulet.Engine

open Query

/-- A breakdown among fetches. -/
structure Breakdown where
  /-- After what time it happens. -/
  sleep : Nat
  /-- What it says. -/
  message : String

/-- The breakdown of a fetch, if it comes to that. -/
def breakdown? (f : Fetch) : Option Breakdown :=
  match f.plan.ending with
  | .panic message => some ⟨f.plan.sleep, message⟩
  | _ => none

/-- The first breakdown among fetches. -/
def firstBreakdown? (fetches : List Fetch) : Option Breakdown :=
  (fetches.filterMap breakdown?).foldl (fun first b =>
    match first with
    | none => some b
    | some a => if b.sleep < a.sleep then some b else some a) none

/-- Hands the result of a fetch to a query that waits for it. -/
def applyResult (κ : Kernel) (result : Result) (c : Consumer) : Run Unit :=
  match result with
  | .value v =>
    match c.shape.check v with
    | .ok v => resolveQuery κ c.node v
    | .error message => κ.report c.scope (Failure.decode message).display
  | .failure f => κ.report c.scope (Failure.fetch f.display).display
  | .panic message => panicWith message

/-- Hands results to those who wait for them. Each of them is in use until it was served, and
all are given up when the run is interrupted. -/
def applyAll (κ : Kernel) : List (Result × Consumer) → Run Unit
  | [] => return
  | (result, c) :: rest => do
    onInterrupt (fun s => rest.foldl (fun s r => s.unhold (.node r.2.node)) s)
      (guarding (·.unhold (.node c.node)) (applyResult κ result c))
    applyAll κ rest

/-- The results of fetches that have ended, each with everyone who waits for it. -/
def resultsOf (pending : List PendingFetch) : List (Result × Consumer) :=
  pending.flatMap fun p =>
    match p.fetch.result? with
    | some result => p.consumers.map (result, ·)
    | none => []

/-- Runs the fetches that an application has put off and applies the results. Gives the number
of fetches. A fetch that never ends is waited for without end. -/
def resolvePending (κ : Kernel) (client : ClientId) : Run Nat :=
  holdingClient client do
    let pending := (((← get).clients[client]?).map (·.pending)).getD []
    if pending.isEmpty then return 0
    let fetches := pending.map (·.fetch)
    let consumers := pending.flatMap (·.consumers)
    modify fun s =>
      { s.modifyClient client ({ · with pending := [] }) with
        held := consumers.map (.node ·.node) ++ s.held }
    let giveUp (s : State) : State := consumers.foldl (fun s c => s.unhold (.node c.node)) s
    onInterrupt giveUp do
      match firstBreakdown? fetches with
      | some b =>
        advance b.sleep
        panicWith b.message
      | none =>
        if fetches.any (·.result?.isNone) then throw .outOfFuel
        advance (fetches.foldl (fun longest f => max longest f.plan.sleep) 0)
    batch κ (applyAll κ (resultsOf pending))
    return fetches.length

end Rivulet.Engine
