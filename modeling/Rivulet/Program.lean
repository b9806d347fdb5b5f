import Rivulet.Document.Fragment
import Rivulet.Hydration.Cursor
import Rivulet.Query.Options
import Rivulet.Query.Plan

/-!
# Programs

What an application does with the library, as a tree of the calls it makes: each call goes
on with a program that depends on the answer. Programs are data, so the engine can keep
them: as the body of a computed value or an effect, as a cleanup, as a listener. They refer
to what they made by name, and look the name up each time.
-/

namespace Rivulet

/-- How a program ends. -/
inductive Outcome where
  /-- With a value. -/
  | value (v : Json)
  /-- With a failure, which ends the bodies around it too. -/
  | failure (message : String)
  deriving Inhabited

/-- The value of an outcome, `null` for a failure. -/
def Outcome.get : Outcome → Json
  | value v => v
  | failure _ => .null

/-- A call of the library that takes no program. Its answer is empty when it has nothing to
say, and when a name stands for nothing or for something of another kind. -/
inductive Op where
  /-- Logs a value. -/
  | log (v : Json)
  /-- Reads a value; the read is tracked. -/
  | get (name : String)
  /-- Reads a value; the read is not tracked. -/
  | peek (name : String)
  /-- The size of the text of a value; the read is tracked. -/
  | size (name : String)
  /-- The state of a query; the read is tracked. -/
  | state (name : String)
  /-- Whether a query is still loading; the read is tracked. -/
  | loading (name : String)
  /-- Creates a signal. -/
  | signal (name : Option String) (v : Json)
  /-- Creates a signal and splits it into its two halves. -/
  | pair (name : Option String) (v : Json)
  /-- Writes a signal. -/
  | set (name : String) (v : Json)
  /-- Writes a signal, unless a computed value is being evaluated. -/
  | trySet (name : String) (v : Json)
  /-- Replaces the value of a signal and notifies in any case. -/
  | update (name : String) (v : Json)
  /-- The same, unless a computed value is being evaluated. -/
  | tryUpdate (name : String) (v : Json)
  /-- Disposes an effect. -/
  | stop (name : String)
  /-- Has an effect run again. -/
  | schedule (name : String)
  /-- Gives a handle up. -/
  | drop (name : String)
  /-- Shows what is behind a handle. -/
  | inspect (name : String)
  /-- Shows a handle in one line, for people. -/
  | debug (name : String)
  /-- Shows the engine at large. -/
  | stats
  /-- Creates a scope under the current one and makes it current. -/
  | pushScope (name : Option String)
  /-- Makes a scope current. -/
  | enterScope (scope : String) (guard : Option String)
  /-- Ends being current and answers which scope it was. -/
  | popScope (guard : String)
  /-- Ends being current. -/
  | dropGuard (guard : String)
  /-- Creates a scope under the current one. -/
  | createScope (name : Option String)
  /-- Creates a scope without a parent. -/
  | createRoot (name : Option String)
  /-- Creates a scope under another one. -/
  | createChild (name : Option String) (parent : String)
  /-- Disposes a scope. -/
  | dispose (scope : String)
  /-- Reports an error, raised in a scope or nowhere. -/
  | reportError (scope : Option String) (failure : Query.Failure)
  /-- Has nobody take the errors that no one else takes. -/
  | forgetUncaught
  /-- Reads markup into a new document. -/
  | document (name : Option String) (markup : String)
  /-- The markup below a node. -/
  | html (node : String)
  /-- The markup of a node. -/
  | outer (node : String)
  /-- The tree below a node, and how many nodes its document has created. -/
  | outline (node : String)
  /-- Looks for a node below another one by its tag and a number. -/
  | find (node tag : String) (k : Nat) (name : Option String)
  /-- Sends an event to a node. -/
  | dispatch (node event : String)
  /-- The number of listeners on a node. -/
  | listeners (node : String)
  /-- Replaces what is below a node by markup. -/
  | setInner (node markup : String)
  /-- Shows a mounted application. -/
  | mounted (name : String)
  /-- Takes a mounted application down. -/
  | unmount (name : String)
  /-- Creates a coordinator of server renders, maybe with the cache of another one. -/
  | coordinator (name : Option String) (options : Query.Options) (other : Option String)
  /-- Puts a value into the cache of a coordinator. -/
  | cachePut (name key : String) (v : Json)
  /-- Looks a key up in the cache of a coordinator. -/
  | cacheGet (name key : String)
  /-- Claims a node. -/
  | claim (expected : Hydration.Expected) (attrs : List (String × String)) (name : Option String)
  /-- Steps into the node that was claimed last. -/
  | enter
  /-- Steps out of a node. -/
  | exit
  /-- Ends the walk. -/
  | finish
  /-- Claims a text. -/
  | staticText (content : String) (name : Option String)
  /-- Puts a fragment. -/
  | append (fragment : Fragment) (name : Option String)
  /-- Shows the cursor. -/
  | cursor

/-- A call of the library that runs a program before it returns. -/
inductive Enclosure where
  /-- Nothing but the program. -/
  | plain
  /-- A batch. -/
  | batch
  /-- An untracked section. -/
  | untrack
  /-- With a scope current. -/
  | scope (name : String)
  /-- With a new cursor over the children of a node. -/
  | walk (mode : Hydration.Mode) (node : String)
  deriving DecidableEq, Repr

/-- What is to become of the markup that is there when an application is mounted. -/
inductive MountMode where
  /-- It is claimed. -/
  | tolerant
  /-- It is thrown away. -/
  | replace
  deriving DecidableEq, Repr

/-- A call of the library that keeps a program, or runs it more than once. -/
inductive Install where
  /-- Creates a computed value. -/
  | computed (name : Option String)
  /-- Creates an effect; a failure of a fallible one is an error. -/
  | effect (name : Option String) (fallible : Bool)
  /-- Registers a cleanup on the current scope. -/
  | cleanup
  /-- Has a scope take errors. -/
  | onError (scope : String)
  /-- Takes the errors that no one else takes. -/
  | uncaught
  /-- Puts a text that follows a value. -/
  | dynText (name : Option String)
  /-- Has an attribute follow a value. -/
  | attr (node name : String)
  /-- Listens to an event. -/
  | listener (node event : String)
  /-- Puts a region. -/
  | region (name : Option String)
  /-- Puts an insert. -/
  | insert (name : Option String)
  /-- Puts a boundary. -/
  | boundary
  /-- Mounts an application below a node, after a notice is logged if there is one. -/
  | mount (name : Option String) (node : String) (mode : Option MountMode)
    (payload : Query.Payload) (notice : Option Json)
  /-- Discovers the queries of a template. -/
  | discover (coordinator route : String)

/-- A program. -/
inductive Program where
  /-- The end. -/
  | stop (o : Outcome)
  /-- A breakdown. -/
  | panic (message : String)
  /-- A call, going on with its answer. -/
  | op (o : Op) (next : Option Json → Program)
  /-- A call that runs a program, going on with its outcome and the answer. -/
  | within (e : Enclosure) (body : Program) (next : Outcome → Option Json → Program)
  /-- A call that keeps a program, going on with its answer. -/
  | install (i : Install) (body : Json → Program) (next : Option Json → Program)
  /-- A boundary that shows something else when an error is raised in it. -/
  | guarded (fallback : Json → Program) (content : Program) (next : Program)
  /-- A query, with a program for the value that its fetch will have. -/
  | query (name : Option String) (key : String) (shape : Query.Shape) (plan : Query.Plan)
    (value : Program) (next : Program)
  /-- A procedure, given the variables that it sees and whether it may use the cursor. -/
  | call (name : String) (seen : List (String × Json)) (drawing : Bool)
    (next : Outcome → Program)

namespace Program

/-- The program that ends with a value. -/
def ret (v : Json) : Program := .stop (.value v)

/-- The program that does nothing. -/
def done : Program := ret .null

instance : Inhabited Program := ⟨done⟩

/-- Logs a value and goes on. -/
def log (v : Json) (next : Program) : Program := .op (.log v) fun _ => next

end Program

end Rivulet
