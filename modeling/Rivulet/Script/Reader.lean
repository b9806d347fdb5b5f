import Rivulet.Document.Values
import Rivulet.Json.Parser
import Rivulet.Script.Compile

/-!
# Reading scripts

A script is written as JSON values: a statement or an expression is a list of its name and
its arguments, and an expression that is no list stands for itself. What is missing is
`null`, and what has the wrong type counts as empty.
-/

namespace Rivulet.Script

/-- The name of a statement or an expression. -/
def nameOf (v : Json) : String := (v.item 0).text

/-- What an object says under a name; `null` if it says nothing. -/
def field (name : String) (v : Json) : Json := .orNull (v.field? name)

/-- The time that a value says, if it says one. -/
def time? : Json → Option Nat
  | .null => none
  | v => some v.nat

/-- The shape of the values of a query. -/
def shapeOf (v : Json) : Query.Shape :=
  match v.text with
  | "string" => .text
  | "int" => .int
  | "bool" => .bool
  | "strings" => .texts
  | _ => .any

/-- What the fetch of a query comes to. -/
def endingOf (v : Json) : Query.Ending :=
  if (field "never" v).isTruthy then .never
  else
    match v.field? "panic", v.field? "error" with
    | some (.str message), _ => .panic message
    | _, some (.str message) => .failure (.fetch message)
    | _, some _ => .failure .cancelled
    | _, none => .value

/-- What the fetch of a query will do. -/
def planOf (v : Json) : Query.Plan := { sleep := (field "ms" v).nat, ending := endingOf v }

/-- How an application is mounted: the mode, what the server has sent, and what to say about
it. -/
def mountOf (name : Option String) (node : String) (options : Json) : Install :=
  let mode := match field "mode" options with
    | .str "replace" => some MountMode.replace
    | .str _ => some .tolerant
    | _ => none
  let given := Query.Payload.ofList
    ((field "payload" options).items.map fun e => ((e.item 0).text, e.item 1))
  match field "payload_json" options with
  | .str text =>
    match Query.Payload.parse text.toList with
    | .ok payload => .mount name node mode payload none
    | .error e => .mount name node mode given (some e.value)
  | _ => .mount name node mode given none

/-- What a claim asks for. -/
def expectedOf (kind : String) (v : Json) : Hydration.Expected :=
  match kind with
  | "element" => .element v.display
  | "text" => .text v.display
  | "insert" => .wrapper .insert
  | _ => .wrapper .region

/-- The failure that a report is about. -/
def failureOf : Json → Query.Failure
  | .str message => .fetch message
  | _ => .cancelled

/-- An argument, `null` if it is missing. -/
def first (args : List Json) : Json := args.headD .null

/-- A coordinator with the options that are given, or what is wrong with them. -/
def coordinatorOf (name : Option String) (options : Json) (other : Option String) : Stmt :=
  match Query.Options.ofJson? options with
  | some options => .act [] fun _ => .coordinator name options other
  | none => .act [] fun _ => .log Query.PayloadError.json.value

mutual

/-- Reads an expression, nested no deeper than the given bound. -/
def Expr.read : Nat → Json → Expr
  | 0, _ => .lit .null
  | n + 1, .arr items =>
    let v : Json := .arr items
    let one (i : Nat) : Expr := Expr.read n (v.item i)
    let rest (i : Nat) : List Expr := (items.drop i).map (Expr.read n)
    let name := (v.item 1).text
    match nameOf v with
    | "lit" => .lit (v.item 1)
    | "var" => .var name
    | "get" => .ask (.get name)
    | "peek" => .ask (.peek name)
    | "size" => .ask (.size name)
    | "state" => .ask (.state name)
    | "loading" => .ask (.loading name)
    | "add" => .apply .add (rest 1)
    | "mul" => .apply .mul (rest 1)
    | "mod" => .apply .mod [one 1, one 2]
    | "lt" => .apply .lt [one 1, one 2]
    | "eq" => .apply .eq [one 1, one 2]
    | "not" => .apply .not [one 1]
    | "if" => .choice (one 1) (one 2) (one 3)
    | "cat" => .apply .cat (rest 1)
    | "list" => .apply .list (rest 1)
    | "push" => .apply .push [one 1, one 2]
    | "map" => .map (one 1) (v.item 2).text? (one 3)
    | "el" =>
      .element (one 1) ((v.item 2).items.map fun a => (a.item 0, Expr.read n (a.item 1))) (rest 3)
    | "untrack" => .within .untrack (one 1)
    | "batch" => .within .batch (one 1)
    | "do" => .after (Stmt.readAll n (v.item 1)) (one 2)
    | _ => .lit .null
  | _ + 1, v => .lit v

/-- Reads statements. -/
def Stmt.readAll : Nat → Json → List Stmt
  | 0, _ => []
  | n + 1, v => v.items.map (Stmt.read n)

/-- Reads a statement, nested no deeper than the given bound. -/
def Stmt.read : Nat → Json → Stmt
  | 0, _ => .unknown ""
  | n + 1, v =>
    let one (i : Nat) : Expr := Expr.read n (v.item i)
    let all (i : Nat) : List Stmt := Stmt.readAll n (v.item i)
    let attrs (i : Nat) : List (Json × Expr) :=
      (v.item i).items.map fun a => (a.item 0, Expr.read n (a.item 1))
    let text (i : Nat) : String := (v.item i).text
    let name (i : Nat) : Option String := (v.item i).text?
    let act (o : Op) : Stmt := .act [] fun _ => o
    let written (i : Nat) (o : Json → Op) : Stmt := .act [one i] fun args => o (first args)
    let body (given : Option String) (i : Nat) : Body := .stmts given (all i) false
    let drawn (given : Option String) (i : Nat) : Body := .stmts given (all i) true
    let statement := nameOf v
    match statement with
    | "log" => .log ((v.items.drop 1).map (Expr.read n))
    | "if" => .choice (one 1) (all 2) (all 3)
    | "for" => .each (name 1) (one 2) (all 3)
    | "let" => .bind (name 1) (one 2) (all 3)
    | "call" => .call (text 1)
    | "fail" => .fail (one 1)
    | "panic" => .panic (one 1)
    | "batch" => .within .batch (all 1)
    | "untrack" => .within .untrack (all 1)
    | "get" | "peek" | "size" => .eval (Expr.read n v)
    | "signal" => written 2 (.signal (name 1))
    | "pair" => written 2 (.pair (name 1))
    | "set" => written 2 (.set (text 1))
    | "try_set" => written 2 (.trySet (text 1))
    | "update" => written 2 (.update (text 1))
    | "try_update" => written 2 (.tryUpdate (text 1))
    | "computed" => .keep (.computed (name 1)) (.expr (one 2))
    | "effect" => .keep (.effect (name 1) false) (body none 2)
    | "effect_try" => .keep (.effect (name 1) true) (body none 2)
    | "stop" => act (.stop (text 1))
    | "schedule" => act (.schedule (text 1))
    | "drop" => act (.drop (text 1))
    | "inspect" => act (.inspect (text 1))
    | "debug" => act (.debug (text 1))
    | "stats" => act .stats
    | "push_scope" => act (.pushScope (name 1))
    | "enter_scope" => act (.enterScope (text 1) (name 2))
    | "pop_scope" => act (.popScope (text 1))
    | "drop_guard" => act (.dropGuard (text 1))
    | "create_scope" => act (.createScope (name 1))
    | "create_root" => act (.createRoot (name 1))
    | "create_child" => act (.createChild (name 1) (text 2))
    | "with_scope" => .within (.scope (text 1)) (all 2)
    | "dispose" => act (.dispose (text 1))
    | "cleanup" => .keep .cleanup (body none 1)
    | "on_error" => .keep (.onError (text 1)) (body (some "err") 2)
    | "report_error" =>
      let scope := if (v.item 1) == .null then none else some (text 1)
      written 2 fun m => .reportError scope (failureOf m)
    | "uncaught" =>
      if (v.item 1) == .null then act .forgetUncaught
      else .keep .uncaught (body (some "err") 1)
    | "doc" => act (.document (name 1) (text 2))
    | "html" => act (.html (text 1))
    | "outer" => act (.outer (text 1))
    | "dom" => act (.outline (text 1))
    | "find" => act (.find (text 1) (text 2) (v.item 3).nat (name 4))
    | "dispatch" => act (.dispatch (text 1) (text 2))
    | "listeners" => act (.listeners (text 1))
    | "set_inner" => written 2 fun m => .setInner (text 1) m.display
    | "create" => .walk .create (text 1) (all 2)
    | "hydrate" => .walk .hydrate (text 1) (all 2)
    | "mount" => .keep (mountOf (name 1) (text 2) (v.item 3)) (drawn none 4)
    | "mounted" => act (.mounted (text 1))
    | "unmount" => act (.unmount (text 1))
    | "query" =>
      .query (name 1) (one 2) (shapeOf (field "type" (v.item 3))) (planOf (v.item 3))
        (Expr.read n (field "value" (v.item 3)))
    | "coordinator" => coordinatorOf (name 1) (v.item 2) (name 3)
    | "discover" => .keep (.discover (text 1) (text 2)) (drawn (some "route") 3)
    | "cache_put" => written 3 (.cachePut (text 1) (text 2))
    | "cache_get" => act (.cacheGet (text 1) (text 2))
    | "el" =>
      let children := match v.item 3 with
        | .arr _ => some (all 3)
        | _ => none
      .drawing statement
        (.claim (one 1) (attrs 2) (fun e as => .claim (.element e.display) as (name 4)) children)
    | "claim" =>
      .drawing statement
        (.claim (one 2) (attrs 3) (fun e as => .claim (expectedOf (text 1) e) as (name 4)) none)
    | "enter" => .drawing statement (act .enter)
    | "exit" => .drawing statement (act .exit)
    | "finish" => .drawing statement (act .finish)
    | "text" => .drawing statement (written 1 fun e => .staticText e.display (name 2))
    | "dyn" => .drawing statement (.keep (.dynText (name 2)) (.expr (one 1)))
    | "append" => .drawing statement (written 1 fun e => .append (Fragment.ofJson e) (name 2))
    | "bind" => .drawing statement (.keep (.attr (text 1) (text 2)) (.expr (one 3)))
    | "on" => .drawing statement (.keep (.listener (text 1) (text 2)) (body (some "event") 3))
    | "region" => .drawing statement (.keep (.region (name 2)) (drawn none 1))
    | "insert" => .drawing statement (.keep (.insert (name 2)) (.expr (one 1)))
    | "boundary" => .drawing statement (.keep .boundary (drawn none 1))
    | "error_boundary" => .drawing statement (.guarded (all 1) (all 2))
    | "cursor" => .drawing statement (act .cursor)
    | other => .unknown other

end

/-- Reads a body of statements of any depth. -/
def readBody (v : Json) : List Stmt := Stmt.readAll (v.depth + 1) v

/-- Reads a step of a session. -/
def Step.ofJson (v : Json) : Step :=
  let text (i : Nat) : String := (v.item i).text
  match nameOf v with
  | "render" => .render (text 1) (text 2) (time? (v.item 3)) (readBody (v.item 4))
  | "prefetch" => .prefetch (text 1) (text 2) (v.item 3).nat (readBody (v.item 4))
  | "resolve" => .resolve (text 1)
  | "advance" => .advance (v.item 1).nat
  | _ => .statement (Stmt.read (v.depth + 1) v)

end Rivulet.Script
