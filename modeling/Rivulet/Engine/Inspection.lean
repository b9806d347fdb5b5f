import Rivulet.Document.Values
import Rivulet.Engine.State

/-!
# Looking at the state

What answers show of nodes, accounts, applications and the engine at large.
-/

namespace Rivulet

/-- The name of a mark. -/
def Graph.Mark.name : Graph.Mark → String
  | clean => "Clean"
  | maybeDirty => "MaybeDirty"
  | dirty => "Dirty"

/-- A number as a value. -/
def Json.ofNat (n : Nat) : Json := .int n

/-- Texts as a value. -/
def Json.ofTexts (texts : List String) : Json := .arr (texts.map .str)

/-- An account as a value. -/
def Hydration.Report.value (r : Hydration.Report) : Json :=
  .ofFields [("claimed", .ofNat r.claimed), ("created", .ofNat r.created),
    ("skipped", .ofNat r.skipped), ("discarded", .ofNat r.discarded),
    ("fallbacks", .ofNat r.fallbacks), ("exact", .bool r.isExact),
    ("mismatches", .ofTexts (r.mismatches.map (·.display)))]

mutual

/-- A value with the kinds of its parts, for people. -/
def Json.summary : Json → String
  | .null => "Null"
  | .bool b => "Bool(" ++ (Json.bool b).compact ++ ")"
  | .int n => "Number(" ++ (Json.int n).compact ++ ")"
  | .float x => "Number(" ++ (Json.float x).compact ++ ")"
  | .str s => "String(" ++ Text.quoted s ++ ")"
  | .arr items => "Array [" ++ Json.summaryItems items ++ "]"
  | .obj fields => "Object \x7b" ++ Json.summaryFields fields ++ "\x7d"

/-- The items of a list for people. -/
def Json.summaryItems : List Json → String
  | [] => ""
  | [v] => Json.summary v
  | v :: vs => Json.summary v ++ ", " ++ Json.summaryItems vs

/-- Named values for people. -/
def Json.summaryFields : List (String × Json) → String
  | [] => ""
  | [(k, v)] => Text.quoted k ++ ": " ++ Json.summary v
  | (k, v) :: vs => Text.quoted k ++ ": " ++ Json.summary v ++ ", " ++ Json.summaryFields vs

end

namespace Engine.State

/-- What shows of a node: whether it is live, its mark, its epoch, and how many nodes it
reads and is read by. -/
def nodeValue (s : State) (id : NodeId) : Json :=
  .arr [.bool (s.graph.contains id), .orNull ((s.graph.mark? id).map (.str ·.name)),
    .orNull ((s.graph.epoch? id).map (.ofNat ·.toNat)), .ofNat (s.graph.dependencyCount id),
    .ofNat (s.graph.dependentCount id)]

/-- The value behind a signal. -/
def signalValue (s : State) (id : NodeId) : Json :=
  match s.cells[id]? with
  | some (.signal v) => v
  | _ => .null

/-- The last value of a computed value. -/
def computedValue? (s : State) (id : NodeId) : Option Json :=
  match s.cells[id]? with
  | some (.computed _ v) => v
  | _ => none

/-- What shows of a handle. -/
def handleValue (s : State) : Handle → Json
  | .signal id =>
    .ofFields [("node", s.nodeValue id), ("value", s.signalValue id),
      ("subs", .ofNat (s.graph.dependentCount id))]
  | .pair id => .ofFields [("node", s.nodeValue id), ("value", s.signalValue id)]
  | .computed id =>
    .ofFields [("node", s.nodeValue id), ("state", .orNull ((s.graph.mark? id).map (.str ·.name))),
      ("has_value", .bool (s.computedValue? id).isSome),
      ("subs", .ofNat (s.graph.dependentCount id))]
  | .effect id =>
    match s.effect? id with
    | none => .null
    | some e =>
      .ofFields [("node", s.nodeValue id), ("runs", .ofNat e.runs), ("disposed", .bool e.disposed),
        ("deps", .ofNat (s.graph.dependencyCount id)),
        ("scope_gone", .bool (s.scopes.isDisposed e.scope))]
  | .query id key => .ofFields [("node", s.nodeValue id), ("key", .str key)]
  | .scope id =>
    .ofFields [("gone", .bool (s.scopes.isDisposed id)),
      ("boundary", .bool (s.scopes.findHandler id).isSome)]
  | .node _ _ | .mount _ | .coordinator _ => .null

/-- An optional text for people. -/
def optionSummary (v : Option String) : String := v.elim "None" fun t => "Some(" ++ t ++ ")"

/-- The line for what has none of its own. -/
def noSummary : String := "null"

/-- A handle in one line, for people. -/
def handleSummary (s : State) : Handle → String
  | .signal id =>
    "Signal \x7b id: NodeId(#), value: " ++ (s.signalValue id).summary ++
      ", subscriber_count: " ++ toString (s.graph.dependentCount id) ++ " \x7d"
  | .computed id =>
    "Computed \x7b id: NodeId(#), value: " ++
      optionSummary ((s.computedValue? id).map (·.summary)) ++ ", state: " ++
      optionSummary ((s.graph.mark? id).map (·.name)) ++ " \x7d"
  | .effect id =>
    (s.effect? id).elim noSummary fun e =>
      "Effect \x7b id: NodeId(#), run_count: " ++ toString e.runs ++ ", disposed: " ++
        (Json.bool e.disposed).compact ++ " \x7d"
  | .node document _ => (s.document document).summary
  | _ => noSummary

/-- The name of a scope: the first one in alphabetical order that stands for it. -/
def scopeName (s : State) (id : ScopeId) : String :=
  let named := s.names.filterMap fun (name, h) =>
    match h with
    | .scope other => if other = id then some name else none
    | _ => none
  match named with
  | [] => "?"
  | name :: rest => rest.foldl (fun least n => if n < least then n else least) name

/-- What shows of the engine at large. -/
def statsValue (s : State) : Json :=
  .ofFields [("nodes", .ofNat s.graph.size), ("pending", .ofNat s.queue.pending.length),
    ("batching", .bool s.queue.isBatching), ("scopes", .ofNat s.scopes.size),
    ("tracking", .bool s.tracking.isActive),
    ("scope", .orNull (s.scopes.current?.map fun id => .str (s.scopeName id)))]

/-- What shows of a mounted application. -/
def mountValue (s : State) (m : Mount) : Json :=
  let pending := ((s.clients[m.client]?).map (·.pending)).getD []
  .ofFields [("state", .str (m.phases.getLastD .idle).name),
    ("transitions", .ofTexts (m.phases.map (·.name))), ("report", (s.report m.report).value),
    ("pending", .ofTexts (pending.map (·.key))),
    ("html", .str ((s.document m.document).inner Document.root)),
    ("scope_gone", .bool (s.scopes.isDisposed m.scope))]

/-- What shows of a cursor. -/
def cursorValue (s : State) (d : Drawing) (mode : Hydration.Mode) : Json :=
  .ofFields [("mode", .str mode.name), ("hydrating", .bool (mode = .hydrate)),
    ("unresolved", .bool (s.flag d.flag)), ("report", (s.report d.report).value)]

end Engine.State

end Rivulet
