import Rivulet.Document.Values
import Rivulet.Program
import Rivulet.Proofs.Hydration.Fragments

/-!
# Templates and their drafts

A template is a program that draws with a cursor: it claims nodes, steps into them and out of them
again, and puts regions, inserts and boundaries, whose content it leaves to programs of their own.
It reads what it likes and makes queries, but writes no signal and raises no error. The draft of a
template is what it does to a walk over a document, apart from all that the engine does beside.
-/

namespace Rivulet

open Hydration

namespace Document

variable {α : Type}

/-- A document that differs at most in its listeners. -/
structure SameNodes (d d' : Document α) : Prop where
  /-- There are as many nodes. -/
  size : d'.nodes.size = d.nodes.size
  /-- Each is what it was. -/
  kind : ∀ j, d'.kind j = d.kind j
  /-- Each has the children that it had. -/
  children : ∀ j, d'.children j = d.children j
  /-- Each has the parent that it had. -/
  parent : ∀ j, d'.parent? j = d.parent? j

/-- A document with the same nodes in the same places, and the ends of fragments where they were.
-/
structure Dressed (d d' : Document α) : Prop where
  /-- There are as many nodes. -/
  size : d'.nodes.size = d.nodes.size
  /-- Each has the children that it had. -/
  children : ∀ j, d'.children j = d.children j
  /-- Each has the parent that it had. -/
  parent : ∀ j, d'.parent? j = d.parent? j
  /-- The same nodes are ends of fragments. -/
  marker : ∀ j edge, d'.kind j = .marker edge ↔ d.kind j = .marker edge

namespace Dressed

variable {d d' d'' : Document α}

theorem refl (d : Document α) : d.Dressed d := ⟨rfl, fun _ => rfl, fun _ => rfl, fun _ _ => Iff.rfl⟩

theorem trans (h : d.Dressed d') (h' : d'.Dressed d'') : d.Dressed d'' :=
  ⟨h'.size.trans h.size, fun j => (h'.children j).trans (h.children j),
    fun j => (h'.parent j).trans (h.parent j),
    fun j edge => (h'.marker j edge).trans (h.marker j edge)⟩

/-- A change of a kind that makes no end of a fragment, and unmakes none. -/
theorem modifyKind (d : Document α) (id : DomId) {f : Markup.Kind → Markup.Kind}
    (h : ∀ kind edge, f kind = .marker edge ↔ kind = .marker edge) :
    d.Dressed (d.modifyKind id f) := by
  refine ⟨size_modify _ _ _, fun j => ?_, fun j => ?_, fun j edge => ?_⟩
  · rw [Document.children, Document.modifyKind, entry_modify, Document.children]
    split <;> rfl
  · rw [parent?, Document.modifyKind, entry_modify, parent?]
    split <;> rfl
  · rw [kind, Document.modifyKind, entry_modify]
    split
    · rename_i hj
      rw [hj.1]
      exact h _ edge
    · rfl

/-- Another content of a text. -/
theorem setText (d : Document α) (id : DomId) (content : String) :
    d.Dressed (d.setText id content) :=
  modifyKind d id fun kind _ => by cases kind <;> simp [Markup.Kind.setText]

/-- Other attributes of a node. -/
theorem mapAttrs (d : Document α) (id : DomId) (f : Markup.Attributes → Markup.Attributes) :
    d.Dressed (d.modifyKind id (·.mapAttrs f)) :=
  modifyKind d id fun kind _ => by cases kind <;> simp [Markup.Kind.mapAttrs]

/-- Several attributes are set. -/
theorem setAttrs (d : Document α) (id : DomId) (attrs : List (String × String)) :
    d.Dressed (d.setAttrs id attrs) := by
  rw [Document.setAttrs]
  induction attrs generalizing d with
  | nil => exact .refl d
  | cons a attrs ih => exact (mapAttrs d id _).trans (ih _)

end Dressed

namespace SameNodes

variable {d d' d'' : Document α}

theorem refl (d : Document α) : d.SameNodes d := ⟨rfl, fun _ => rfl, fun _ => rfl, fun _ => rfl⟩

theorem trans (h : d.SameNodes d') (h' : d'.SameNodes d'') : d.SameNodes d'' :=
  ⟨h'.size.trans h.size, fun j => (h'.kind j).trans (h.kind j),
    fun j => (h'.children j).trans (h.children j), fun j => (h'.parent j).trans (h.parent j)⟩

/-- The same nodes are dressed alike. -/
theorem dressed (h : d.SameNodes d') : d.Dressed d' :=
  ⟨h.size, h.children, h.parent, fun j edge => by rw [h.kind]⟩

/-- A change of the listeners of a node. -/
theorem modify (d : Document α) (id : DomId) {f : Entry α → Entry α}
    (h : ∀ e, (f e).kind = e.kind ∧ (f e).parent = e.parent ∧ (f e).children = e.children) :
    d.SameNodes (d.modify id f) := by
  have hentry (j : DomId) : ((d.modify id f).entry j).kind = (d.entry j).kind ∧
      ((d.modify id f).entry j).parent = (d.entry j).parent ∧
      ((d.modify id f).entry j).children = (d.entry j).children := by
    rw [entry_modify]
    split
    · rename_i hj
      exact hj.1 ▸ h _
    · exact ⟨rfl, rfl, rfl⟩
  exact ⟨size_modify _ _ _, fun j => (hentry j).1, fun j => (hentry j).2.2,
    fun j => (hentry j).2.1⟩

/-- A listener is added. -/
theorem listen (d : Document α) (id : DomId) (event : String) (action : α) :
    d.SameNodes (d.listen id event action).2 := by
  have hmodify := modify { d with nextListener := d.nextListener + 1 } id
    (f := fun e => { e with listeners := e.listeners ++ [⟨d.nextListener, event, action⟩] })
    fun _ => ⟨rfl, rfl, rfl⟩
  exact ⟨hmodify.size, hmodify.kind, hmodify.children, hmodify.parent⟩

/-- A listener is taken away. -/
theorem unlisten (d : Document α) (id : DomId) (listener : Nat) :
    d.SameNodes (d.unlisten id listener) :=
  modify d id fun _ => ⟨rfl, rfl, rfl⟩

end SameNodes

end Document

/-- Whether a call changes nothing but what was read and what was logged. -/
def Op.looks : Op → Bool
  | .log _ | .get _ | .peek _ | .size _ | .state _ | .loading _ | .inspect _ | .debug _ | .stats
  | .html _ | .outer _ | .outline _ | .listeners _ => true
  | _ => false

/-- Whether a call creates a signal. -/
def Op.createsSignal : Op → Bool
  | .signal _ _ | .pair _ _ => true
  | _ => false

/-- Whether an enclosed program goes on with the scope and the cursor at work. -/
def Enclosure.isOpen : Enclosure → Bool
  | .plain | .batch | .untrack => true
  | .scope _ | .walk _ _ => false

/-- A program that only looks, and ends with a value whatever it sees. -/
inductive Program.Quiet : Program → Prop where
  /-- The end. -/
  | stop (v : Json) : Quiet (.stop (.value v))
  /-- A look. -/
  | op {o : Op} {next : Option Json → Program} (looks : o.looks = true)
      (rest : ∀ a, Quiet (next a)) : Quiet (.op o next)
  /-- A part, maybe inside a batch or an untracked section. -/
  | within {e : Enclosure} {body : Program} {next : Outcome → Option Json → Program}
      (enclosure : e.isOpen = true) (inside : Quiet body)
      (rest : ∀ v, Quiet (next (.value v) none)) : Quiet (.within e body next)

/-- What a program that only looks comes to, given the answers to its looks in order, and the
answers that it leaves over. -/
def Program.recite : Program → List (Option Json) → Option (Json × List (Option Json))
  | .stop (.value v), answers => some (v, answers)
  | .op o next, a :: answers => if o.looks then (next a).recite answers else none
  | .within e body next, answers =>
    if e.isOpen then
      match body.recite answers with
      | some (v, answers) => (next (.value v) none).recite answers
      | none => none
    else none
  | _, _ => none

/-- With the given answers a program comes to a value. -/
def Program.Recites (p : Program) (answers : List (Option Json)) (v : Json) : Prop :=
  ∀ more, p.recite (answers ++ more) = some (v, more)

/-! ## Templates -/

/-- The step of a call that provides a node. -/
def Op.provides? {α : Type} : Op → Option (WalkM α DomId)
  | .claim expected attrs _ => some (Walk.claim expected attrs)
  | .staticText content _ => some (Walk.staticText content)
  | .append fragment _ => some (Walk.append fragment)
  | _ => none

/-- Whether a program is kept for something else than the walk. -/
def Install.isAside : Install → Bool
  | .computed _ | .effect _ _ | .cleanup | .listener _ _ => true
  | _ => false

/-- The content of a boundary that a program puts first, and the rest of the program. -/
def Program.boundary? : Program → Option (Program × Program)
  | .install .boundary body next => some (body .null, next none)
  | .guarded _ content next => some (content, next)
  | _ => none

/-- What is allowed in a template. -/
structure Rules where
  /-- Whether a node may be entered more than once, be it the wrapper of a region. -/
  again : Bool
  /-- Whether attributes may follow values. -/
  attrs : Bool

/-- A template, or what is left of one when a number of nodes is entered. A node may only be entered
when one is ready for it: one that was claimed last, and, unless the rules say otherwise, was not
entered before and is not drawn by another program. -/
inductive Program.Draws (rules : Rules) : Bool → Nat → Program → Prop where
  /-- The end, when no node is entered. -/
  | stop {ready : Bool} (v : Json) : Draws rules ready 0 (.stop (.value v))
  /-- A look, or a new signal. -/
  | look {ready : Bool} {depth : Nat} {o : Op} {next : Option Json → Program}
      (looks : o.looks = true ∨ o.createsSignal = true)
      (rest : ∀ a, Draws rules ready depth (next a)) : Draws rules ready depth (.op o next)
  /-- A node is claimed, or a fragment is put. -/
  | provide {ready : Bool} {depth : Nat} {o : Op} {next : Option Json → Program}
      (provides : (o.provides? (α := Json → Program)).isSome = true)
      (rest : Draws rules true depth (next none)) : Draws rules ready depth (.op o next)
  /-- A node is entered. -/
  | enter {depth : Nat} {next : Option Json → Program}
      (rest : Draws rules false (depth + 1) (next none)) : Draws rules true depth (.op .enter next)
  /-- A node is left. -/
  | exit {ready : Bool} {depth : Nat} {next : Option Json → Program}
      (rest : Draws rules rules.again depth (next none)) :
      Draws rules ready (depth + 1) (.op .exit next)
  /-- A part that only looks. -/
  | thought {ready : Bool} {depth : Nat} {e : Enclosure} {body : Program}
      {next : Outcome → Option Json → Program} (enclosure : e.isOpen = true)
      (inside : body.Quiet) (rest : ∀ v, Draws rules ready depth (next (.value v) none)) :
      Draws rules ready depth (.within e body next)
  /-- A part that is a template. -/
  | part {ready : Bool} {depth : Nat} {e : Enclosure} {body : Program}
      {next : Outcome → Option Json → Program} (enclosure : e.isOpen = true)
      (inside : Draws rules false 0 body)
      (rest : ∀ v, Draws rules (ready && rules.again) depth (next (.value v) none)) :
      Draws rules ready depth (.within e body next)
  /-- A computed value, an effect or a cleanup that only looks. -/
  | keep {ready : Bool} {depth : Nat} {i : Install} {body : Json → Program}
      {next : Option Json → Program} (aside : i.isAside = true) (inside : (body .null).Quiet)
      (rest : ∀ a, Draws rules ready depth (next a)) :
      Draws rules ready depth (.install i body next)
  /-- A listener. -/
  | listen {ready : Bool} {depth : Nat} {node event : String} {body : Json → Program}
      {next : Option Json → Program} (rest : ∀ a, Draws rules ready depth (next a)) :
      Draws rules ready depth (.install (.listener node event) body next)
  /-- An attribute that follows a value. -/
  | attr {ready : Bool} {depth : Nat} {node name : String} {body : Json → Program}
      {next : Option Json → Program} (allowed : rules.attrs = true) (inside : (body .null).Quiet)
      (rest : ∀ a, Draws rules ready depth (next a)) :
      Draws rules ready depth (.install (.attr node name) body next)
  /-- A text that follows a value. -/
  | text {ready : Bool} {depth : Nat} {name : Option String} {body : Json → Program}
      {next : Option Json → Program} (inside : (body .null).Quiet)
      (rest : Draws rules true depth (next none)) :
      Draws rules ready depth (.install (.dynText name) body next)
  /-- A region. -/
  | region {ready : Bool} {depth : Nat} {name : Option String} {body : Json → Program}
      {next : Option Json → Program} (inside : Draws rules false 0 (body .null))
      (rest : Draws rules rules.again depth (next none)) :
      Draws rules ready depth (.install (.region name) body next)
  /-- An insert. -/
  | insert {ready : Bool} {depth : Nat} {name : Option String} {body : Json → Program}
      {next : Option Json → Program} (inside : (body .null).Quiet)
      (rest : Draws rules rules.again depth (next none)) :
      Draws rules ready depth (.install (.insert name) body next)
  /-- A query whose fetch only looks for the value that it will have. -/
  | query {ready : Bool} {depth : Nat} {name : Option String} {key : String} {shape : Query.Shape}
      {plan : Query.Plan} {value next : Program} (inside : value.Quiet)
      (rest : Draws rules ready depth next) :
      Draws rules ready depth (.query name key shape plan value next)
  /-- A boundary. Its fallback may be anything, as no error is raised. -/
  | boundary {ready : Bool} {depth : Nat} {p content next : Program}
      (boundary : p.boundary? = some (content, next)) (inside : Draws rules false 0 content)
      (rest : Draws rules rules.again depth next) : Draws rules ready depth p

namespace Hydration.Walk

variable {α : Type}

/-- Those of the nodes that a step has provided which were there before it. -/
def claims (w : Walk α) (ids : List DomId) : List DomId :=
  ids.filter (·.index < w.document.nodes.size)

/-- The walk with a cursor of its own on a level. -/
def onLevel (w : Walk α) (f : Frame) : Walk α := { w with cursor := ⟨[f], none⟩ }

/-- The walk behind a part that had a cursor of its own. -/
def back (w : Walk α) (cursor : Cursor) : Walk α := { w with cursor }

/-- The walk between the ends of a fragment, with a mark of its own. -/
def amid (w : Walk α) (p : DomId) (m : Markers) : Walk α :=
  { w with unresolved := false }.onLevel (.between w.document p m.opening m.closing m.mode)

/-- The walk behind a part that had a cursor and a mark of its own. -/
def beside (w outer : Walk α) : Walk α :=
  { w with unresolved := outer.unresolved, cursor := outer.cursor }

/-- The walk behind a fragment that another one has put. -/
def behind (w outer : Walk α) (m : Markers) : Walk α :=
  (w.beside outer).setLast m.closing (m.mode = .create)

/-- The walk over a document with nothing left between the ends of a fragment, which is drawn
anew. -/
def anew (w : Walk α) (d : Document α) (p : DomId) (m : Markers) : Walk α :=
  let inside := Hydration.between d m.opening m.closing
  { document := d.removeAll inside
    report := w.report.addFallback.addDiscarded inside.length
    cursor := ⟨[.between d p m.opening m.closing .create], none⟩ }

end Hydration.Walk

/-- A walk over a document of the engine. -/
abbrev Sheet := Walk (Json → Program)

open Walk in
/-- What a template does to a walk up to some point, with the nodes that it claims on the way. A
node that is entered is left again in between. -/
inductive Draft : Program → Sheet → List DomId → Program → Sheet → Prop where
  /-- Nothing, up to where it is. -/
  | here {p : Program} {w : Sheet} : Draft p w [] p w
  /-- A look, or a new signal. -/
  | look {o : Op} {next : Option Json → Program} {a : Option Json} {w w' : Sheet}
      {ids : List DomId} {q : Program} (looks : o.looks = true ∨ o.createsSignal = true)
      (rest : Draft (next a) w ids q w') : Draft (.op o next) w ids q w'
  /-- A query is made. -/
  | query {name : Option String} {key : String} {shape : Query.Shape} {plan : Query.Plan}
      {value next : Program} {w w' : Sheet} {ids : List DomId} {q : Program}
      (rest : Draft next w ids q w') : Draft (.query name key shape plan value next) w ids q w'
  /-- A node is provided. -/
  | provide {o : Op} {next : Option Json → Program} {step : WalkM (Json → Program) DomId}
      {id : DomId} {w w₁ w' : Sheet} {ids : List DomId} {q : Program}
      (provides : o.provides? = some step) (run : step.run w = .ok (id, w₁))
      (rest : Draft (next none) w₁ ids q w') :
      Draft (.op o next) w (w.claims [id] ++ ids) q w'
  /-- A node is entered and left. -/
  | enter {next next' : Option Json → Program} {w w₁ w₂ w₃ w' : Sheet} {ids ids' : List DomId}
      {q : Program} (enter : enterChildren.run w = .ok ((), w₁))
      (inside : Draft (next none) w₁ ids (.op .exit next') w₂)
      (exit : exitChildren.run w₂ = .ok ((), w₃)) (rest : Draft (next' none) w₃ ids' q w') :
      Draft (.op .enter next) w (ids ++ ids') q w'
  /-- A part. -/
  | within {e : Enclosure} {body : Program} {next : Outcome → Option Json → Program} {v : Json}
      {w w₁ w' : Sheet} {ids ids' : List DomId} {q : Program} (enclosure : e.isOpen = true)
      (inside : Draft body w ids (.stop (.value v)) w₁)
      (rest : Draft (next (.value v) none) w₁ ids' q w') :
      Draft (.within e body next) w (ids ++ ids') q w'
  /-- A program is kept, maybe as a listener. -/
  | aside {i : Install} {body : Json → Program} {next : Option Json → Program} {a : Option Json}
      {d : Document (Json → Program)} {w w' : Sheet} {ids : List DomId} {q : Program}
      (aside : i.isAside = true) (same : w.document.SameNodes d)
      (rest : Draft (next a) { w with document := d } ids q w') :
      Draft (.install i body next) w ids q w'
  /-- An attribute is written. -/
  | attr {node name : String} {body : Json → Program} {next : Option Json → Program}
      {a : Option Json} {d : Document (Json → Program)} {w w' : Sheet} {ids : List DomId}
      {q : Program} (dressed : w.document.Dressed d)
      (rest : Draft (next a) { w with document := d } ids q w') :
      Draft (.install (.attr node name) body next) w ids q w'
  /-- A text is provided, and written. -/
  | text {name : Option String} {body : Json → Program} {next : Option Json → Program}
      {answers : List (Option Json)} {v : Json} {id : DomId} {w w₁ w' : Sheet}
      {ids : List DomId} {q : Program}
      (run : (claimNode (.text "") [] false).run w = .ok (id, w₁))
      (recites : (body .null).Recites answers v)
      (rest : Draft (next none) (w₁.modifyDocument (·.setText id v.display)) ids q w') :
      Draft (.install (.dynText name) body next) w (w.claims [id] ++ ids) q w'
  /-- A wrapper is provided, and a template draws inside. -/
  | region {name : Option String} {body : Json → Program} {next : Option Json → Program}
      {mode : Mode} {v : Json} {id : DomId} {w w₁ w₂ w' : Sheet} {ids ids' : List DomId}
      {q : Program} (run : (claimNode (.wrapper .region) [] false).run w = .ok (id, w₁))
      (mode_run : childMode.run w₁ = .ok (mode, w₁))
      (inside : Draft (body .null) (w₁.onLevel (.open w₁.document id mode)) ids
        (.stop (.value v)) w₂)
      (rest : Draft (next none) (w₂.finish.back w₁.cursor) ids' q w') :
      Draft (.install (.region name) body next) w (w.claims [id] ++ (ids ++ ids')) q w'
  /-- A wrapper is provided and emptied, and fragments are put inside. -/
  | insert {name : Option String} {body : Json → Program} {next : Option Json → Program}
      {answers : List (Option Json)} {v : Json} {id : DomId} {w w₁ w₂ w' : Sheet}
      {ids : List DomId} {q : Program}
      (run : (claimNode (.wrapper .insert) [] false).run w = .ok (id, w₁))
      (empty : (emptyWrapper id).run w₁ = .ok ((), w₂))
      (recites : (body .null).Recites answers v)
      (rest : Draft (next none) ((w₂.modifyDocument fun d =>
          (d.clear id).plantUnder id (Fragment.trees (v.items.map Fragment.ofJson))).modifyReport
        (·.addCreated (Fragment.sizes (v.items.map Fragment.ofJson)))) ids q w') :
      Draft (.install (.insert name) body next) w (w.claims [id] ++ ids) q w'
  /-- The ends of a boundary are provided, and its content draws between them. -/
  | boundary {p content next q : Program} {m : Markers} {f : Frame} {v : Json}
      {w w₁ w₂ w' : Sheet} {ids ids' : List DomId}
      (boundary : p.boundary? = some (content, next)) (run : claimMarkers.run w = .ok (m, w₁))
      (frame : frame.run w₁ = .ok (f, w₁))
      (inside : Draft content (w₁.amid f.parent m) ids (.stop (.value v)) w₂)
      (held : m.mode = .hydrate → w₂.finish.unresolved = false)
      (rest : Draft next (w₂.finish.behind w₁ m) ids' q w') :
      Draft p w (w.claims [m.opening, m.closing] ++ (ids ++ ids')) q w'
  /-- The ends of a boundary are claimed, but not all between them; its content draws anew. -/
  | redrawn {p content next q : Program} {m : Markers} {f : Frame} {v u : Json}
      {d : Document (Json → Program)} {w w₁ w₂ w₃ w' : Sheet} {ids ids' ids'' : List DomId}
      (boundary : p.boundary? = some (content, next)) (run : claimMarkers.run w = .ok (m, w₁))
      (frame : frame.run w₁ = .ok (f, w₁)) (hydrates : m.mode = .hydrate)
      (inside : Draft content (w₁.amid f.parent m) ids (.stop (.value v)) w₂)
      (failed : w₂.finish.unresolved = true) (same : w₂.finish.document.SameNodes d)
      (again : Draft content (w₂.finish.anew d f.parent m) ids' (.stop (.value u)) w₃)
      (rest : Draft next (w₃.finish.behind w₁ m) ids'' q w') :
      Draft p w (w.claims [m.opening, m.closing] ++ (ids ++ (ids' ++ ids''))) q w'

/-- The draft of what is left of a template when a number of nodes is entered, up to its end. -/
inductive Drafts : Nat → Program → Sheet → List DomId → Json → Sheet → Prop where
  /-- No node is entered. -/
  | last {p : Program} {w w' : Sheet} {ids : List DomId} {v : Json}
      (draft : Draft p w ids (.stop (.value v)) w') : Drafts 0 p w ids v w'
  /-- The innermost node is left. -/
  | leave {depth : Nat} {p : Program} {next : Option Json → Program} {w w₁ w₂ w' : Sheet}
      {ids ids' : List DomId} {v : Json} (inside : Draft p w ids (.op .exit next) w₁)
      (exit : Walk.exitChildren.run w₁ = .ok ((), w₂))
      (rest : Drafts depth (next none) w₂ ids' v w') : Drafts (depth + 1) p w (ids ++ ids') v w'

end Rivulet
