import Rivulet.Engine.Clock
import Rivulet.Engine.Server
import Rivulet.Query.Prefetch

/-!
# Rendering on the server

A render discovers the queries of a template, waits for their fetches as long as it may, and
draws the template with what has come by then. A fetch that takes longer goes on, and its
value reaches the cache. The prefetch stream takes it from there, once, or fetches anew.
-/

namespace Rivulet.Engine

open Query

/-- What a render gives. -/
structure Page where
  /-- The markup. -/
  html : String
  /-- The values that go with it. -/
  payload : Payload
  /-- The keys that are still loading in it. -/
  pending : List String
  /-- The script with the values, unless it is left out. -/
  script : Option String

/-- The markup with the script behind it. -/
def Page.body (p : Page) : String := p.html ++ p.script.getD ""

/-- A page as a value. -/
def Page.value (p : Page) : Json :=
  .ofFields [("html", .str p.html), ("payload", p.payload.pairs),
    ("pending", .arr (p.pending.map .str)), ("script", .orNull (p.script.map .str)),
    ("body", .str p.body)]

/-- Starts fetches that are waited for no longer than the given time. Their late values go to
a cache. -/
def startAll (cache : CacheId) (limit : Nat) (fetches : List (String × Fetch)) : Run Unit := do
  let now := (← get).clock
  sendLate (fetches.filterMap fun (key, f) =>
    (f.late? limit).map fun value => { due := now + f.plan.sleep, cache, key, value })

/-- How long several fetches are waited for. -/
def longestWait (limit : Nat) (fetches : List (String × Fetch)) : Nat :=
  fetches.foldl (fun longest (_, f) => max longest (f.wait limit)) 0

/-- Whether a fetch ends in time after the given sleep. -/
def endsAfter (limit sleep : Nat) (f : Fetch) : Bool :=
  (f.resultWithin? limit).isSome && f.plan.sleep = sleep

/-- Waits for fetches, for each as long as it takes or the time allows. A fetch that ends in
time is a task of its own, and other tasks that end at the same moment do so too. -/
def waitForAll (limit : Nat) (fetches : List (String × Fetch)) : Run Unit :=
  let longest := longestWait limit fetches
  wait longest (fetches.any fun (_, f) => endsAfter limit longest f)

/-- What becomes of fetches within the given time. -/
def resolveAll (cache : CacheId) (limit : Nat) (fetches : List (String × Fetch)) :
    Run (List (String × Verdict)) := do
  startAll cache limit fetches
  waitForAll limit fetches
  return fetches.map fun (key, f) => (key, f.verdict limit)

/-- The values among what is known of queries. -/
def payloadOf (verdicts : List (String × Verdict)) : Payload :=
  verdicts.foldl (fun p (key, verdict) =>
    match verdict with
    | .resolved v => p.push key v
    | .pending | .failed _ => p) {}

/-- Renders a template, waiting for each query no longer than the given number of
nanoseconds. -/
def render (κ : Kernel) (c : Coordinator) (template : Program) (timeout : Nat) :
    Run (Except PayloadError Page) := do
  let verdicts ←
    if timeout = 0 then pure []
    else resolveAll c.cache (Options.timerMilliseconds timeout) (← discover κ template)
  let payload := payloadOf verdicts
  let final ← drawFinal κ template verdicts
  let pending := final.requested.filter fun key => !payload.contains key
  let page : Page := { html := final.html, payload, pending, script := none }
  if c.options.includePayload then
    return (payload.script c.options.variableName).map fun script => { page with script }
  else return .ok page

/-- The fetches in the order in which they end; of two at one moment the earlier one stays
first. -/
def byEnd (fetches : List (String × Fetch)) : List (String × Fetch) :=
  fetches.mergeSort fun (_, f) (_, g) => f.plan.sleep ≤ g.plan.sleep

/-- The event of a query that is resolved. -/
def event? (key : String) : Verdict → Option Prefetch.Event
  | .resolved value => some (.query { key, value })
  | .pending | .failed _ => none

/-- Takes the late values of fetches from a cache; what is left has to be fetched. -/
def takeLate (cache : CacheId) :
    List (String × Fetch) → Run (List Prefetch.Event × List (String × Fetch))
  | [] => return ([], [])
  | (key, f) :: rest => do
    let taken ← modifyGet fun s =>
      let (value, c) := (s.cache cache).take key
      (value, s.modifyCache cache fun _ => c)
    let (events, fetches) ← takeLate cache rest
    match taken with
    | some value => return (.query { key, value } :: events, fetches)
    | none => return (events, (key, f) :: fetches)

/-- The events of the prefetch stream of a template. -/
def prefetch (κ : Kernel) (c : Coordinator) (template : Program) (ms : Nat) :
    Run (List Prefetch.Event) := do
  if ms = 0 then return [.done]
  let (taken, fetches) ← takeLate c.cache (← discover κ template)
  startAll c.cache ms fetches
  waitForAll ms fetches
  return taken ++ (byEnd fetches).filterMap (fun (key, f) => event? key (f.verdict ms)) ++ [.done]

end Rivulet.Engine
