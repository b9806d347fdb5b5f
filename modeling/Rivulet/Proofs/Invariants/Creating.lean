import Rivulet.Proofs.Invariants.Concurring

/-!
# Creating, drawing and refreshing as chains of steps

What brings nodes into being, and what brings them up to date, goes from state to state by the steps
of the core.

A new effect is in the graph, has its scope and belongs to the current scope by one step, before
it runs for the first time. Drawing changes documents and accounts, which lie outside the core.

A node runs as what it was created as: what lies behind it says so. So a signal never gets
anything that it has read, and an effect is never read.
-/

namespace Rivulet.Engine

open Hydration

/-- A node that was just created stands for what it was created as. -/
theorem kinds_created {s : State} (kind : Graph.Kind) (c : Cell) (id : NodeId) :
    (((s.withNode kind c).adopted id).kinds)[s.kinds.size]? = some kind := by
  have hsame : ((s.withNode kind c).adopted id).kinds = s.kinds.push kind := by
    rw [State.adopted]
    split <;> rfl
  rw [hsame, Array.getElem?_push, if_pos rfl]

/-- Creating an effect is one step, behind which it runs. -/
theorem createEffect_eq (κ : Kernel) (reaction : Reaction) (supply : Option Supply)
    (name : Option String) : createEffect κ reaction supply name =
      ((modifyGet fun s => (⟨s.kinds.size⟩, s.withReaction reaction supply) : Run NodeId) >>=
        fun id => holding id (startEffect κ id name)) := rfl

theorem createComputed_eq (name : Option String) (p : Program) : createComputed name p =
    ((modifyGet fun s => (⟨s.kinds.size⟩, s.withComputed p) : Run NodeId) >>=
      fun id => modify (·.bindName name (.computed id))) := rfl

section

variable {law : Law} {κ κ' : Kernel} (hκ : Interchangeable law κ κ') {s : State}

/-- Creating a scope is the same with both kernels. -/
theorem concur_createScope (parent : Option ScopeId) :
    Concur law Whatever (createScope parent) (createScope parent) s :=
  .stepGet (fun _ => .one (.newScope parent)) fun _ => trivial

/-- Giving something a name is the same with both kernels. -/
theorem concur_bindName {name : Option String} {h : Handle} (suits : h.Suits s.kinds) :
    Concur law Whatever (modify (·.bindName name h) : Run Unit) (modify (·.bindName name h)) s :=
  .step fun _ => State.leads_bindName name suits

/-- Creating a computed value is the same with both kernels. -/
theorem concur_createComputed (name : Option String) (p : Program) :
    Concur law Whatever (createComputed name p) (createComputed name p) s := by
  rw [createComputed_eq]
  refine (Concur.stepGet (P := fun id s' => s'.kinds[id.index]? = some .derived)
    (fun _ => .one (.newComputed p)) fun _ => kinds_created ..).bind fun id s' _ hid => ?_
  exact concur_bindName hid

include hκ in
private theorem concur_startEffect {id : NodeId} (h : s.kinds[id.index]? = some .effect)
    (name : Option String) :
    Concur law Whatever (startEffect κ id name) (startEffect κ' id name) s := by
  refine (concur_callRefresh hκ id).bind fun _ s' hb _ => ?_
  refine (concur_settle hκ).bind fun _ s'' hb' _ => ?_
  exact concur_bindName (h := .effect id) (hb'.kinds _ _ (hb.kinds _ _ h))

include hκ in
/-- Creating an effect is the same with both kernels. -/
theorem concur_createEffect (reaction : Reaction) (supply : Option Supply)
    (name : Option String) : Concur law Whatever (createEffect κ reaction supply name)
      (createEffect κ' reaction supply name) s := by
  rw [createEffect_eq, createEffect_eq]
  refine (Concur.stepGet (P := fun id s' => s'.kinds[id.index]? = some .effect)
    (fun _ => .one (.newEffect reaction supply)) fun _ => kinds_created ..).bind
    fun id s' _ hid => ?_
  exact concur_holding fun s'' hb => concur_startEffect hκ (hb.kinds _ _ hid) name

theorem set_eq (s' : State) : (set s' : Run Unit) = modify fun _ => s' := rfl

private theorem concur_newReport : Concur law Whatever newReport newReport s :=
  .stepGet (fun _ => Leads.aside (by constructor <;> rfl)) fun _ => trivial

/-- A new flag is the same with both kernels. -/
theorem concur_newFlag : Concur law Whatever newFlag newFlag s :=
  .stepGet (fun _ => Leads.aside (by constructor <;> rfl)) fun _ => trivial

/-- A new document is the same with both kernels. -/
theorem concur_newDocument (d : Document (Json → Program)) :
    Concur law Whatever (newDocument d) (newDocument d) s :=
  .stepGet (fun _ => Leads.aside (by constructor <;> rfl)) fun _ => trivial

/-- A step of the walk is the same with both kernels. -/
theorem concur_walking {α : Type} (step : WalkM (Json → Program) α) :
    Concur law Whatever (walking step) (walking step) s := by
  refine .look fun _ => ?_
  cases hd : s.drawings with
  | nil => exact .raise _
  | cons d rest =>
    simp only
    cases step.run { document := s.document d.document, report := s.report d.report,
                     unresolved := s.flag d.flag, cursor := d.cursor } with
    | error misuse => exact .raise _
    | ok r =>
      simp only [set_eq]
      exact .change (fun _ => Leads.aside (by constructor <;> rfl)) fun _ => .ret trivial

/-- Drawing with a drawing of its own is the same with both kernels. -/
theorem concur_drawing {α : Type} {d : Drawing} {x y : Run α}
    (h : ∀ s', s.Before s' → Concur law Whatever x y s') :
    Concur law Whatever (drawing d x) (drawing d y) s := by
  refine .change (fun _ => Leads.aside (by constructor <;> rfl)) fun hb => ?_
  refine Concur.guarding ?_ fun _ => Leads.aside (by constructor <;> rfl)
  refine (h _ hb).bind fun a _ _ _ => ?_
  exact (concur_walking _).bind fun _ _ _ _ => .ret trivial

/-- A new drawing is the same with both kernels. -/
theorem concur_newDrawing (document : DocumentId) (parent : DomId) (mode : Mode) :
    Concur law Whatever (newDrawing document parent mode) (newDrawing document parent mode) s :=
  concur_newReport.bind fun _ _ _ _ => concur_newFlag.bind fun _ _ _ _ =>
    .look fun _ => .ret trivial

/-- Finding the current drawing is the same with both kernels. -/
theorem concur_currentDrawing : Concur law Whatever currentDrawing currentDrawing s := by
  refine .look fun _ => ?_
  cases s.drawings with
  | nil => exact .raise _
  | cons d rest => exact .ret trivial

/-- Naming a node of the document is the same with both kernels. -/
theorem concur_bindNode (name : Option String) (node : DomId) :
    Concur law Whatever (bindNode name node) (bindNode name node) s :=
  concur_currentDrawing.bind fun d _ _ _ => concur_bindName (h := .node d.document node) trivial

/-- Claiming a node under a name is the same with both kernels. -/
theorem concur_claimAs (name : Option String) (step : WalkM (Json → Program) DomId) :
    Concur law Whatever (claimAs name step) (claimAs name step) s :=
  (concur_walking step).bind fun _ _ _ _ =>
    (concur_bindNode name _).bind fun _ _ _ _ => .ret trivial

include hκ in
/-- A text that follows a program is the same with both kernels. -/
theorem concur_dynText (name : Option String) (p : Program) :
    Concur law Whatever (dynText κ name p) (dynText κ' name p) s :=
  (concur_walking _).bind fun _ _ _ _ => concur_currentDrawing.bind fun _ _ _ _ =>
    (concur_createEffect hκ _ _ _).bind fun _ _ _ _ => concur_bindNode name _

/-- The check that a node is there is the same with both kernels. -/
theorem concur_ensureNode (document : DocumentId) (node : DomId) :
    Concur law Whatever (ensureNode document node) (ensureNode document node) s :=
  .look fun _ => .ite (fun _ => .ret trivial) fun _ => .raise _

include hκ in
/-- An attribute that follows a program is the same with both kernels. -/
theorem concur_bindAttr (node : DomId) (name : String) (p : Program) :
    Concur law Whatever (bindAttr κ node name p) (bindAttr κ' node name p) s :=
  concur_currentDrawing.bind fun _ _ _ _ => concur_createEffect hκ _ _ _

include hκ in
/-- A region that follows a program is the same with both kernels. -/
theorem concur_region (name : Option String) (p : Program) :
    Concur law Whatever (region κ name p) (region κ' name p) s :=
  (concur_walking _).bind fun _ _ _ _ => (concur_walking _).bind fun _ _ _ _ =>
    concur_currentDrawing.bind fun _ _ _ _ => .look fun _ =>
      (concur_createEffect hκ _ _ _).bind fun _ _ _ _ => concur_bindNode name _

include hκ in
/-- An insert that follows a program is the same with both kernels. -/
theorem concur_insert (name : Option String) (p : Program) :
    Concur law Whatever (insert κ name p) (insert κ' name p) s :=
  (concur_walking _).bind fun _ _ _ _ => (concur_walking _).bind fun _ _ _ _ =>
    concur_currentDrawing.bind fun _ _ _ _ =>
      (concur_createEffect hκ _ _ _).bind fun _ _ _ _ => concur_bindNode name _

/-- Listening to an event is the same with both kernels. -/
theorem concur_listen (node : DomId) (event : String) (action : Json → Program) :
    Concur law Whatever (listen node event action) (listen node event action) s := by
  refine concur_currentDrawing.bind fun d _ _ _ => ?_
  refine (concur_ensureNode _ _).bind fun _ s' _ _ => .stepGet (fun _ => ?_) fun _ => trivial
  simp only
  split
  · exact .refl
  · rename_i scopes hadded
    exact (Leads.one (.cleanup _ hadded)).trans (Leads.aside (by constructor <;> rfl))

/-! ## Boundaries -/

/-- Opening the scope of a boundary is the same with both kernels. -/
theorem concur_openBoundaryScope (id : BoundaryId) (b : Boundary) (catching : Bool) :
    Concur law Whatever (openBoundaryScope id b catching) (openBoundaryScope id b catching) s := by
  refine (concur_createScope b.owner).bind fun scope s' _ _ => ?_
  refine .ite (fun _ => ?_) fun _ => ?_
  · refine .change (fun _ => .one (.handler scope _)) fun _ => ?_
    exact .change (fun _ => Leads.aside (by constructor <;> rfl)) fun _ => .ret trivial
  · exact .change (fun _ => Leads.aside (by constructor <;> rfl)) fun _ => .ret trivial

include hκ in
/-- Drawing between the ends of a boundary is the same with both kernels. -/
theorem concur_drawBoundary (b : Boundary) (scope : ScopeId) (mode : Mode) (flag : FlagId)
    (p : Program) : Concur law Whatever (drawBoundary κ b scope mode flag p)
      (drawBoundary κ' b scope mode flag p) s :=
  concur_withScope fun _ => concur_withSupply fun _ _ => .look fun _ =>
    concur_drawing fun _ _ => concur_perform hκ p

/-- Clearing what a boundary shows is the same with both kernels. -/
theorem concur_clearBoundary (b : Boundary) :
    Concur law Whatever (clearBoundary b) (clearBoundary b) s :=
  .stepGet (fun _ => Leads.aside (by constructor <;> rfl)) fun _ => trivial

private theorem concur_holdingBoundary (id : BoundaryId) {x y : Run Unit}
    (h : ∀ s, Concur law Whatever x y s) :
    Concur law Whatever (holdingBoundary id x) (holdingBoundary id y) s := by
  refine .look fun _ => ?_
  cases s.boundaryClient? id with
  | none => exact h s
  | some client => exact concur_holdingClient h

include hκ in
/-- Showing the fallback of a boundary is the same with both kernels. -/
theorem concur_showFallback (id : BoundaryId) (error : String) :
    Concur law Whatever (showFallback κ id error) (showFallback κ' id error) s := by
  refine concur_holdingBoundary id fun s => .look fun _ => ?_
  cases s.boundary? id with
  | none => exact .ret trivial
  | some b =>
    simp only
    split
    · refine .ite (fun _ => .ret trivial) fun _ => ?_
      refine .change (fun _ => Leads.aside (by constructor <;> rfl)) fun _ => ?_
      refine (concur_callDispose hκ _).bind fun _ _ _ _ => ?_
      refine (concur_clearBoundary b).bind fun _ _ _ _ => ?_
      refine (concur_openBoundaryScope id b false).bind fun scope _ _ _ => ?_
      exact concur_newFlag.bind fun flag _ _ _ => concur_drawBoundary hκ b scope .create flag _
    · exact .ret trivial

include hκ in
/-- Mounting a boundary is the same with both kernels. -/
theorem concur_mountBoundary (id : BoundaryId) (b : Boundary) (mode : Mode) :
    Concur law Whatever (mountBoundary κ id b mode) (mountBoundary κ' id b mode) s := by
  refine (concur_openBoundaryScope id b true).bind fun scope _ _ _ => ?_
  refine concur_newFlag.bind fun flag _ _ _ => ?_
  refine (concur_drawBoundary hκ b scope mode flag b.content).bind fun _ s' _ _ => .look fun _ => ?_
  refine .ite (fun _ => ?_) fun _ => ?_
  -- What did not hydrate is drawn anew; what comes behind it is the same in both cases.
  on_goal 1 =>
    refine (concur_callDispose hκ scope).bind fun _ _ _ _ => ?_
    refine .change (fun _ => Leads.aside (by constructor <;> rfl)) fun _ => ?_
    refine (concur_clearBoundary b).bind fun _ _ _ _ => ?_
    refine .change (fun _ => Leads.aside (by constructor <;> rfl)) fun _ => ?_
    refine (concur_openBoundaryScope id b true).bind fun scope _ _ _ => ?_
    refine concur_newFlag.bind fun flag _ _ _ => ?_
    refine (concur_drawBoundary hκ b scope .create flag b.content).bind fun _ _ _ _ => ?_
  all_goals
    refine (Concur.stepGet (P := Whatever) (fun _ => Leads.aside (by constructor <;> rfl))
      fun _ => trivial).bind fun errors s' _ _ => ?_
    cases errors with
    | nil => exact .ret trivial
    | cons error rest => exact concur_showFallback hκ id error

include hκ in
/-- Creating a boundary is the same with both kernels. -/
theorem concur_boundary (content : Program) (fallback : Option (Json → Program)) :
    Concur law Whatever (boundary κ content fallback) (boundary κ' content fallback) s := by
  refine (concur_walking _).bind fun markers _ _ _ => ?_
  refine (concur_walking _).bind fun frame _ _ _ => ?_
  refine concur_currentDrawing.bind fun d _ _ _ => ?_
  refine (Concur.stepGet (P := Whatever) (fun _ => .refl) fun _ => trivial).bind fun b _ _ _ => ?_
  refine (Concur.stepGet (P := Whatever) (fun _ => Leads.aside (by constructor <;> rfl))
    fun _ => trivial).bind fun id _ _ _ => ?_
  exact (concur_mountBoundary hκ id b _).bind fun _ _ _ _ => concur_walking _

end

end Rivulet.Engine

namespace Rivulet.Engine

open Hydration

section

variable {law : Law} {κ κ' : Kernel} (hκ : Interchangeable law κ κ') {s : State}

private theorem leads_modifyReaction (s : State) (id : NodeId) (r : Reaction) :
    Leads s (s.modifyEffect id ({ · with reaction := r })) :=
  .one (.effect id _ fun _ => ⟨rfl, fun h => h⟩)

include hκ in
/-- Running the program of an effect is the same with both kernels. -/
theorem concur_react (id : NodeId) (e : Effect) :
    Concur law Whatever (react κ id e) (react κ' id e) s := by
  rw [react, react]
  cases e.reaction with
  | body p fallible => exact concur_exec hκ p
  | text document node p =>
    refine (concur_eval hκ p).bind fun v _ _ _ => ?_
    exact .change (fun _ => Leads.aside (by constructor <;> rfl)) fun _ => .ret trivial
  | attr document node name p =>
    refine (concur_eval hκ p).bind fun v _ _ _ => ?_
    refine (concur_ensureNode document node).bind fun _ _ _ _ => ?_
    cases v <;>
      exact .change (fun _ => Leads.aside (by constructor <;> rfl)) fun _ => .ret trivial
  | region document wrapper p first =>
    have hdraw (d : Drawing) (s : State) : Concur law Whatever
        (do drawing d (κ.perform p); return Outcome.value .null)
        (do drawing d (κ'.perform p); return Outcome.value .null) s :=
      (concur_drawing fun _ _ => concur_perform hκ p).bind fun _ _ _ _ => .ret trivial
    refine concur_withSupply fun s _ => ?_
    cases first with
    | none =>
      refine .change (fun _ => Leads.aside (by constructor <;> rfl)) fun _ => ?_
      exact (concur_newDrawing document wrapper .create).bind fun d s' _ _ => hdraw d s'
    | some h =>
      refine .change (fun _ => leads_modifyReaction s id _) fun _ => .look fun _ => ?_
      exact (Concur.ret (P := Whatever) trivial).bind fun d s' _ _ => hdraw d s'
  | insert document wrapper p first =>
    refine (concur_eval hκ p).bind fun v s' _ _ => ?_
    refine .change (fun _ => Leads.aside (by constructor <;> rfl)) fun _ => ?_
    cases first with
    | none => exact .ret trivial
    | some report =>
      refine .change (fun _ => leads_modifyReaction _ id _) fun _ => ?_
      exact .change (fun _ => Leads.aside (by constructor <;> rfl)) fun _ => .ret trivial

include hκ in
private theorem concur_finishReaction (id : NodeId) (e : Effect) (outcome : Outcome) :
    Concur law Whatever (finishReaction κ id e outcome) (finishReaction κ' id e outcome) s := by
  refine .change (fun _ => .one (.effect id _ fun _ => ⟨rfl, fun h => h⟩)) fun _ => ?_
  cases outcome with
  | value v => exact .ret trivial
  | failure error =>
    exact .ite (fun _ => concur_callReport hκ _ error) fun _ => .ret trivial

include hκ in
private theorem concur_runReaction {id : NodeId} (hid : MayRead s.kinds id) (e : Effect) :
    Concur law Whatever (runReaction κ id e) (runReaction κ' id e) s := by
  refine Concur.bind (P := Whatever) ?_ fun outcome _ _ _ => concur_finishReaction hκ id e outcome
  refine .change (fun _ => .one (.enterScope e.scope)) fun hb => ?_
  refine Concur.guarding ?_ fun _ => .one (.leaveScope e.scope)
  exact concur_tracked (hb.mayRead hid) fun _ _ => concur_react hκ id e

include hκ in
/-- Running an effect that is still active is the same with both kernels. -/
theorem concur_runEffect {id : NodeId} (hid : MayRead s.kinds id) :
    Concur law Whatever (runEffect κ id) (runEffect κ' id) s := by
  refine .look fun _ => ?_
  cases s.effect? id with
  | none => exact .ret trivial
  | some e =>
    refine .ite (fun _ => .ret trivial) fun _ => ?_
    exact (concur_resetScope hκ e.scope).bind fun _ _ hb _ =>
      concur_runReaction hκ (hb.mayRead hid) e

include hκ in
private theorem concur_runComputed {id : NodeId} (hid : MayRead s.kinds id) (p : Program) :
    Concur law Whatever (runComputed κ id p) (runComputed κ' id p) s :=
  (concur_tracked hid fun _ _ => concur_eval hκ p).bind fun _ _ _ _ =>
    .step fun _ => .one (.keep id _)

include hκ in
/-- Finding out whether something that was read has changed is the same with both kernels. -/
theorem concur_dependenciesChanged (l : List Graph.Observed) :
    Concur law Whatever (dependenciesChanged κ l) (dependenciesChanged κ' l) s := by
  induction l generalizing s with
  | nil => exact .ret trivial
  | cons seen rest ih =>
    refine .look fun _ => .ite (fun _ => ?_) fun _ => ?_
    · exact (concur_callRefresh hκ seen.node).bind fun _ _ _ _ =>
        .look fun _ => .ite (fun _ => ih) fun _ => .ret trivial
    · exact .look fun _ => .ite (fun _ => ih) fun _ => .ret trivial

/-- What lies behind a node was put there for it. -/
theorem mayRead_of_cell (hs : s.Typed) {id : NodeId} {c : Cell} (hc : s.cells[id]? = some c)
    (hkind : c.kind ≠ .source) : MayRead s.kinds id := ⟨c.kind, hs.cells id c hc, hkind⟩

include hκ in
/-- Running what lies behind a node is the same with both kernels. -/
theorem concur_runCell {id : NodeId} {cell : Option Cell}
    (h : ∀ c ∈ cell, c.kind ≠ .source → MayRead s.kinds id) :
    Concur law Whatever (runCell κ id cell) (runCell κ' id cell) s := by
  refine .change (fun _ => .one (.trust id)) fun hb => ?_
  cases cell with
  | none => exact .ret trivial
  | some c =>
    have hid := h c rfl
    cases c with
    | signal v => exact .ret trivial
    | query v => exact .ret trivial
    | computed p v => exact concur_runComputed hκ (hb.mayRead (hid (by simp [Cell.kind]))) p
    | effect e => exact concur_runEffect hκ (hb.mayRead (hid (by simp [Cell.kind])))

include hκ in
/-- Running a node again is the same with both kernels. -/
theorem concur_rerun (id : NodeId) : Concur law Whatever (rerun κ id) (rerun κ' id) s := by
  refine .look fun hs => ?_
  have hrun : Concur law Whatever
      (if s.graph.contains id then holding id (runCell κ id s.cells[id]?) else pure ())
      (if s.graph.contains id then holding id (runCell κ' id s.cells[id]?) else pure ()) s := by
    refine .ite (fun _ => concur_holding fun s' hb => concur_runCell hκ fun c hc hkind => ?_)
      fun _ => .ret trivial
    exact hb.mayRead (mayRead_of_cell (law.typed hs) hc hkind)
  refine .ite (fun _ => ?_) fun _ => hrun
  exact Concur.bind (P := fun _ _ => False) (.raise _) fun _ _ _ h => h.elim

include hκ in
/-- Bringing a node up to date is the same with both kernels. -/
theorem concur_refresh (id : NodeId) : Concur law Whatever (refresh κ id) (refresh κ' id) s := by
  refine .look fun _ => ?_
  cases s.graph.find? id with
  | none => exact .ret trivial
  | some n =>
    simp only
    cases n.mark with
    | clean => exact .ret trivial
    | dirty => exact concur_rerun hκ id
    | maybeDirty =>
      refine (concur_dependenciesChanged hκ _).bind fun changed _ _ _ => ?_
      exact .ite (fun _ => concur_rerun hκ id) fun _ => .step fun _ => .one (.trust id)

include hκ in
private theorem concur_ensureFresh {id : NodeId} (h : s.kinds[id.index]? = some .derived) :
    Concur law Whatever (ensureFresh κ id) (ensureFresh κ' id) s := by
  refine .look fun _ => .ite (fun _ => concur_callRefresh hκ id) fun _ => ?_
  split
  · rename_i p _
    refine (concur_untracked fun s' _ => concur_eval hκ p).bind fun v s' hb _ => ?_
    exact .step fun _ => .one (.compute id p v (hb.kinds _ _ h))
  · exact .ret trivial

private theorem concur_keptValue (id : NodeId) :
    Concur law Whatever (keptValue id) (keptValue id) s := by
  refine .look fun _ => ?_
  split
  · exact .ret trivial
  · exact .raise _

include hκ in
/-- Reading a computed value is the same with both kernels. -/
theorem concur_readComputed {id : NodeId} (h : s.kinds[id.index]? = some .derived) :
    Concur law Whatever (readComputed κ id) (readComputed κ' id) s := by
  refine concur_holding fun s' hb => ?_
  have hid : s'.kinds[id.index]? = some .derived := hb.kinds _ _ h
  refine .change (fun _ => .one (.record id ⟨_, hid, by simp⟩)) fun hb' => ?_
  exact (concur_ensureFresh hκ (hb'.kinds _ _ hid)).bind fun _ _ _ _ => concur_keptValue id

include hκ in
/-- Doing what was put off is the same with both kernels. -/
theorem concur_drain : Concur law Whatever (drain κ) (drain κ') s := by
  refine (Concur.stepGet (P := Whatever) (fun _ => ?_) fun _ => trivial).bind fun next _ _ _ => ?_
  · split
    · exact .refl
    · exact Leads.aside (by constructor <;> rfl)
  · cases next with
    | none => exact .ret trivial
    | some task =>
      cases task with
      | uncaught error =>
        exact (concur_surfaceUncaught hκ error).bind fun _ _ _ _ => concur_callDrain hκ
      | fallback b error =>
        refine (concur_showFallback hκ b error).bind fun _ s' _ _ => ?_
        exact .change (fun _ => State.leads_sweep s') fun _ => concur_callDrain hκ

end

end Rivulet.Engine
