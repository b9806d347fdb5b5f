import Rivulet.Query.Payload
import Rivulet.Query.Shape

/-!
# How a fetch goes

A fetch is known by what it will do: how long it sleeps and what it comes to then. Time is
counted in milliseconds.
-/

namespace Rivulet.Query

/-- What a fetch comes to. -/
inductive Ending where
  /-- It never ends. -/
  | never
  /-- It breaks down. -/
  | panic (message : String)
  /-- It fails. -/
  | failure (failure : Failure)
  /-- It has a value. -/
  | value
  deriving DecidableEq, Repr

/-- What a fetch will do, its value apart. -/
structure Plan where
  /-- How long it sleeps. -/
  sleep : Nat
  /-- What it comes to. -/
  ending : Ending
  deriving DecidableEq, Repr

/-- A fetch that was started. -/
structure Fetch where
  /-- What it will do. -/
  plan : Plan
  /-- The value that it has if it ends well. -/
  value : Json
  /-- The shape that the value must have. -/
  shape : Shape

/-- How a fetch ended, once it did. -/
inductive Result where
  /-- With a value. -/
  | value (v : Json)
  /-- With a failure. -/
  | failure (failure : Failure)
  /-- With a breakdown. -/
  | panic (message : String)

/-- What a fetch comes to when its sleep is over; nothing if it never ends. -/
def Fetch.result? (f : Fetch) : Option Result :=
  match f.plan.ending with
  | .never => none
  | .panic message => some (.panic message)
  | .failure failure => some (.failure failure)
  | .value =>
    match f.shape.check f.value with
    | .ok v => some (.value v)
    | .error message => some (.failure (.decode message))

/-- What is known of a query when its time is over. -/
inductive Verdict where
  /-- It has a value. -/
  | resolved (v : Json)
  /-- It is still on its way. -/
  | pending
  /-- It failed, for the given reason. -/
  | failed (message : String)

/-- What a breakdown of a fetch says to those who waited for it. -/
def breakdown (message : String) : String :=
  "task # panicked with message " ++ Text.quoted message

/-- What an ended fetch means for its query. -/
def Result.verdict : Result → Verdict
  | value v => .resolved v
  | failure f => .failed f.display
  | panic message => .failed (breakdown message)

/-- The result of a fetch that ends before the given time is over. A fetch that does not
sleep always does. -/
def Fetch.resultWithin? (f : Fetch) (limit : Nat) : Option Result :=
  if f.plan.sleep = 0 ∨ f.plan.sleep < limit then f.result? else none

/-- How long a fetch is waited for. -/
def Fetch.wait (f : Fetch) (limit : Nat) : Nat :=
  match f.resultWithin? limit with
  | some _ => f.plan.sleep
  | none => limit

/-- What is known of a fetch when the given time is over. -/
def Fetch.verdict (f : Fetch) (limit : Nat) : Verdict :=
  match f.resultWithin? limit with
  | some r => r.verdict
  | none => .pending

/-- The value of a fetch that ends well, but too late. -/
def Fetch.late? (f : Fetch) (limit : Nat) : Option Json :=
  match f.resultWithin? limit, f.result? with
  | none, some (.value v) => some v
  | _, _ => none

end Rivulet.Query
