import Rivulet.Script.Function

/-!
# From scripts to programs

A statement becomes the calls it makes, in front of the program that comes next. A failure
ends the bodies around it, up to the one that is kept or to the step.
-/

namespace Rivulet.Script

/-- The variables that are seen, the innermost first. -/
abbrev Variables := List (String × Json)

/-- The variables with one more, if it has a name. -/
def Variables.add (vs : Variables) (name : Option String) (v : Json) : Variables :=
  match name with
  | some name => (name, v) :: vs
  | none => vs

/-- The value of a variable, `null` if there is none. -/
def Variables.get (vs : Variables) (name : String) : Json := .orNull (vs.lookup name)

/-- A fragment as a value. Only what is built of it asks for texts as the tag and as names. -/
def elementValue (tag : Json) (attrs : List (Json × String)) (children : List Json) : Json :=
  .ofFields [("tag", tag),
    ("attrs", .arr (attrs.map fun (name, value) => .arr [name, .str value])),
    ("children", .arr children)]

/-- Goes on, unless a body has failed. -/
def passOn (o : Outcome) (next : Program) : Program :=
  match o with
  | .value _ => next
  | .failure message => .stop (.failure message)

/-- Logs an answer, if there is one, and goes on. -/
def logAnswer (a : Option Json) (next : Program) : Program := a.elim next fun v => .log v next

/-- Does something for each item of a list, one after the other, and goes on with what came
out. -/
def collect (items : List Json) (step : Json → (Json → Program) → Program)
    (next : List Json → Program) : Program :=
  items.foldr (fun item rest done => step item fun v => rest (v :: done))
    (fun done => next done.reverse) []

mutual

/-- The program that evaluates an expression and goes on with its value. -/
def Expr.compile : Expr → Variables → (Json → Program) → Program
  | .lit v, _, next => next v
  | .var name, vs, next => next (vs.get name)
  | .ask o, _, next => .op o fun a => next (.orNull a)
  | .apply f args, vs, next => Expr.compileAll args vs fun values => next (f.value values)
  | .choice c a b, vs, next =>
    c.compile vs fun v => if v.isTruthy then a.compile vs next else b.compile vs next
  | .map list name body, vs, next =>
    list.compile vs fun v =>
      collect v.items (fun item rest => body.compile (vs.add name item) rest)
        fun values => next (.arr values)
  | .element tag attrs children, vs, next =>
    tag.compile vs fun tag => Expr.compileAttrs attrs vs fun attrs =>
      Expr.compileAll children vs fun children => next (elementValue tag attrs children)
  | .within e a, vs, next => .within e (a.compile vs .ret) fun o _ => next o.get
  | .after body a, vs, next =>
    .within .plain (Stmt.compileAll body vs false .done) fun _ _ => a.compile vs next

/-- The program that evaluates expressions one after the other. -/
def Expr.compileAll : List Expr → Variables → (List Json → Program) → Program
  | [], _, next => next []
  | e :: es, vs, next => e.compile vs fun v => Expr.compileAll es vs fun rest => next (v :: rest)

/-- The program that evaluates attributes one after the other. -/
def Expr.compileAttrs :
    List (Json × Expr) → Variables → (List (Json × String) → Program) → Program
  | [], _, next => next []
  | (name, e) :: es, vs, next =>
    e.compile vs fun v => Expr.compileAttrs es vs fun rest => next ((name, v.display) :: rest)

/-- The program of a statement, given whether there is a cursor. -/
def Stmt.compile : Stmt → Variables → Bool → Program → Program
  | .log args, vs, _, next => Expr.compileAll args vs fun values => .log (.arr values) next
  | .eval e, vs, _, next => e.compile vs fun _ => next
  | .choice c a b, vs, drawing, next =>
    c.compile vs fun v =>
      if v.isTruthy then Stmt.compileAll a vs drawing next
      else Stmt.compileAll b vs drawing next
  | .each name list body, vs, drawing, next =>
    list.compile vs fun v =>
      v.items.foldr (fun item rest => Stmt.compileAll body (vs.add name item) drawing rest) next
  | .bind name e body, vs, drawing, next =>
    e.compile vs fun v => Stmt.compileAll body (vs.add name v) drawing next
  | .call name, vs, drawing, next => .call name vs drawing fun o => passOn o next
  | .fail e, vs, _, _ => e.compile vs fun v => .stop (.failure v.display)
  | .panic e, vs, _, _ => e.compile vs fun v => .panic v.display
  | .within e body, vs, drawing, next =>
    .within e (Stmt.compileAll body vs drawing .done) fun o _ => passOn o next
  | .walk mode node body, vs, _, next =>
    .within (.walk mode node) (Stmt.compileAll body vs true .done) fun o a =>
      logAnswer a (passOn o next)
  | .act args op, vs, _, next =>
    Expr.compileAll args vs fun values => .op (op values) fun a => logAnswer a next
  | .keep i body, vs, _, next => .install i (body.compile vs) fun a => logAnswer a next
  | .query name key shape plan value, vs, _, next =>
    key.compile vs fun k => .query name k.display shape plan (value.compile vs .ret) next
  | .guarded fallback content, vs, _, next =>
    .guarded (fun err => Stmt.compileAll fallback (vs.add (some "err") err) true .done)
      (Stmt.compileAll content vs true .done) next
  | .claim e attrs op children, vs, _, next =>
    e.compile vs fun v => Expr.compileAttrs attrs vs fun attrs =>
      .op (op v (attrs.map fun (name, value) => (name.text, value))) fun _ =>
        Stmt.compileChildren children vs next
  | .drawing name s, vs, drawing, next =>
    if drawing then s.compile vs drawing next
    else .stop (.failure (name ++ " needs a cursor"))
  | .unknown name, _, drawing, _ =>
    .stop (.failure (if drawing then "unknown statement " ++ name
      else name ++ " needs a cursor"))

/-- The program of statements one after the other. -/
def Stmt.compileAll : List Stmt → Variables → Bool → Program → Program
  | [], _, _, next => next
  | s :: rest, vs, drawing, next => s.compile vs drawing (Stmt.compileAll rest vs drawing next)

/-- The program that draws the children of what was claimed. -/
def Stmt.compileChildren : Option (List Stmt) → Variables → Program → Program
  | none, _, next => next
  | some children, vs, next =>
    .op .enter fun _ => Stmt.compileAll children vs true (.op .exit fun _ => next)

/-- The program of a body that is kept. -/
def Body.compile : Body → Variables → Json → Program
  | .expr e, vs, _ => e.compile vs .ret
  | .stmts name body drawing, vs, given =>
    Stmt.compileAll body (vs.add name given) drawing .done

end

/-- The program of a step that is a statement. -/
def Stmt.program (s : Stmt) : Program := s.compile [] false .done

/-- The procedure that statements make up. -/
def procedure (body : List Stmt) : Engine.Procedure := fun vs drawing =>
  Stmt.compileAll body vs drawing .done

/-- The program of a template for a route. -/
def template (body : List Stmt) (route : String) : Program :=
  Stmt.compileAll body [("route", .str route)] true .done

end Rivulet.Script
