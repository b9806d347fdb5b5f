import Rivulet.Engine.State

/-!
# Scripts

Programs in the form in which they are written down: statements with bodies, and expressions
over variables. Variables belong to the text around them and are kept by the bodies that
outlive a statement; handles are looked up by name when a statement runs.
-/

namespace Rivulet.Script

/-- A function of values. -/
inductive Function where
  /-- The sum of whole numbers. -/
  | add
  /-- The product of whole numbers. -/
  | mul
  /-- The remainder of a division, which is never negative. -/
  | mod
  /-- Whether one whole number is less than another. -/
  | lt
  /-- Whether two values are equal. -/
  | eq
  /-- Whether a value does not count as true. -/
  | not
  /-- Texts one after the other. -/
  | cat
  /-- A list. -/
  | list
  /-- A list with one more item. -/
  | push
  deriving DecidableEq, Repr

mutual

/-- An expression. -/
inductive Expr where
  /-- A value. -/
  | lit (v : Json)
  /-- A variable. -/
  | var (name : String)
  /-- A question about a handle. -/
  | ask (o : Op)
  /-- A function of values. -/
  | apply (f : Function) (args : List Expr)
  /-- One of two, depending on a third. -/
  | choice (c a b : Expr)
  /-- The same for each item of a list. -/
  | map (list : Expr) (name : Option String) (body : Expr)
  /-- A fragment; the names of its attributes stand as they are written. -/
  | element (tag : Expr) (attrs : List (Json × Expr)) (children : List Expr)
  /-- An expression inside a call. -/
  | within (e : Enclosure) (a : Expr)
  /-- An expression behind statements. -/
  | after (body : List Stmt) (a : Expr)

/-- A statement. -/
inductive Stmt where
  /-- Logs the values of expressions as a list. -/
  | log (args : List Expr)
  /-- Evaluates an expression. -/
  | eval (e : Expr)
  /-- One of two bodies, depending on an expression. -/
  | choice (c : Expr) (a b : List Stmt)
  /-- A body for each item of a list. -/
  | each (name : Option String) (list : Expr) (body : List Stmt)
  /-- A body with one more variable. -/
  | bind (name : Option String) (e : Expr) (body : List Stmt)
  /-- A procedure. -/
  | call (name : String)
  /-- A failure. -/
  | fail (e : Expr)
  /-- A breakdown. -/
  | panic (e : Expr)
  /-- A body inside a call. -/
  | within (e : Enclosure) (body : List Stmt)
  /-- A body with a cursor of its own over the children of a node. -/
  | walk (mode : Hydration.Mode) (node : String) (body : List Stmt)
  /-- A call with values, whose answer is logged. -/
  | act (args : List Expr) (op : List Json → Op)
  /-- A call that keeps a body, whose answer is logged. -/
  | keep (i : Install) (body : Body)
  /-- A query. -/
  | query (name : Option String) (key : Expr) (shape : Query.Shape) (plan : Query.Plan)
    (value : Expr)
  /-- A boundary with a fallback. -/
  | guarded (fallback content : List Stmt)
  /-- A claim, with attributes, and with a body for the children of what was claimed. -/
  | claim (e : Expr) (attrs : List (Json × Expr)) (op : Json → List (String × String) → Op)
    (children : Option (List Stmt))
  /-- A statement that needs a cursor, under its name. -/
  | drawing (name : String) (s : Stmt)
  /-- A statement that there is not. -/
  | unknown (name : String)

/-- A body that is kept. -/
inductive Body where
  /-- An expression. -/
  | expr (e : Expr)
  /-- Statements, with a variable for what they are given, and maybe with a cursor. -/
  | stmts (given : Option String) (body : List Stmt) (drawing : Bool)

end

instance : Inhabited Expr := ⟨.lit .null⟩
instance : Inhabited Stmt := ⟨.unknown ""⟩

/-- A step of a session. What is waited for can only be asked for here. -/
inductive Step where
  /-- A statement. -/
  | statement (s : Stmt)
  /-- A server render, with the time that it may take per query or the usual one. -/
  | render (coordinator route : String) (ms : Option Nat) (body : List Stmt)
  /-- A prefetch stream. -/
  | prefetch (coordinator route : String) (ms : Nat) (body : List Stmt)
  /-- The queries that an application has put off. -/
  | resolve (mount : String)
  /-- A pause. -/
  | advance (ms : Nat)

end Rivulet.Script
