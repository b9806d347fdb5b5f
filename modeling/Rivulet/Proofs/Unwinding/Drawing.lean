import Rivulet.Proofs.Unwinding.Running

/-!
# Closing what was opened for drawing

Regions, boundaries and applications are drawn with a scope current and a supply open, in the run of
an effect or outside of any. Whatever breaks down there, the scope and the supply are left, and so
are the cursor, the lock of a fetch and the use of a node.
-/

namespace Rivulet.Engine

open Hydration

section

variable {w : NodeId} {alarm : Interrupt} {κ κ' : Kernel} (hκ : CallsUnwind w alarm κ κ')
  {s : State}

private theorem unwinds_newReport : Unwinds w alarm newReport newReport s :=
  .stepGet (.same rfl rfl rfl rfl)

/-- A new flag ends alike with both kernels. -/
theorem unwinds_newFlag : Unwinds w alarm newFlag newFlag s := .stepGet (.same rfl rfl rfl rfl)

/-- A new document ends alike with both kernels. -/
theorem unwinds_newDocument (d : Document (Json → Program)) :
    Unwinds w alarm (newDocument d) (newDocument d) s := .stepGet (.same rfl rfl rfl rfl)

/-- A step of the walk ends alike with both kernels. -/
theorem unwinds_walking {α : Type} (step : WalkM (Json → Program) α) :
    Unwinds w alarm (walking step) (walking step) s := by
  refine .look ?_
  cases s.drawings with
  | nil => exact .raise _
  | cons d rest =>
    simp only
    cases step.run { document := s.document d.document, report := s.report d.report,
                     unresolved := s.flag d.flag, cursor := d.cursor } with
    | error misuse => exact .raise _
    | ok r =>
      simp only [set_eq]
      exact .change (.same rfl rfl rfl rfl) (.ret r.1)

/-- Drawing with a drawing of its own ends alike with both kernels. -/
theorem unwinds_drawing {α : Type} {d : Drawing} {x y : Run α} (h : ∀ s, Unwinds w alarm x y s) :
    Unwinds w alarm (drawing d x) (drawing d y) s := by
  refine .change (.same rfl rfl rfl rfl) (Unwinds.tidying ?_ fun u => ?_)
  · exact (h _).bind fun a _ => (unwinds_walking _).bind fun _ _ => .ret a
  · exact State.tidied_same rfl rfl rfl rfl rfl rfl rfl

/-- A new drawing ends alike with both kernels. -/
theorem unwinds_newDrawing (document : DocumentId) (parent : DomId) (mode : Mode) :
    Unwinds w alarm (newDrawing document parent mode) (newDrawing document parent mode) s :=
  unwinds_newReport.bind fun _ _ => unwinds_newFlag.bind fun _ _ => .look (.ret _)

/-- Finding the current drawing ends alike with both kernels. -/
theorem unwinds_currentDrawing : Unwinds w alarm currentDrawing currentDrawing s := by
  refine .look ?_
  cases s.drawings with
  | nil => exact .raise _
  | cons d rest => exact .ret d

/-- Naming a node of the document ends alike with both kernels. -/
theorem unwinds_bindNode (name : Option String) (node : DomId) :
    Unwinds w alarm (bindNode name node) (bindNode name node) s :=
  unwinds_currentDrawing.bind fun d _ => unwinds_bindName name (.node d.document node)

/-- Claiming a node under a name ends alike with both kernels. -/
theorem unwinds_claimAs (name : Option String) (step : WalkM (Json → Program) DomId) :
    Unwinds w alarm (claimAs name step) (claimAs name step) s :=
  (unwinds_walking step).bind fun id _ => (unwinds_bindNode name id).bind fun _ _ => .ret id

include hκ in
/-- A text that follows a program ends alike with both kernels. -/
theorem unwinds_dynText (name : Option String) (p : Program) :
    Unwinds w alarm (dynText κ name p) (dynText κ' name p) s :=
  (unwinds_walking _).bind fun id _ => unwinds_currentDrawing.bind fun _ _ =>
    (unwinds_createEffect hκ _ _ _).bind fun _ _ => unwinds_bindNode name id

/-- The check that a node is there ends alike with both kernels. -/
theorem unwinds_ensureNode (document : DocumentId) (node : DomId) :
    Unwinds w alarm (ensureNode document node) (ensureNode document node) s :=
  .look (.ite (fun _ => .ret ()) fun _ => .raise _)

include hκ in
/-- An attribute that follows a program ends alike with both kernels. -/
theorem unwinds_bindAttr (node : DomId) (name : String) (p : Program) :
    Unwinds w alarm (bindAttr κ node name p) (bindAttr κ' node name p) s :=
  unwinds_currentDrawing.bind fun _ _ => unwinds_createEffect hκ _ _ _

include hκ in
/-- A region that follows a program ends alike with both kernels. -/
theorem unwinds_region (name : Option String) (p : Program) :
    Unwinds w alarm (region κ name p) (region κ' name p) s :=
  (unwinds_walking _).bind fun wrapper _ => (unwinds_walking _).bind fun _ _ =>
    unwinds_currentDrawing.bind fun _ _ => .look
      ((unwinds_createEffect hκ _ _ _).bind fun _ _ => unwinds_bindNode name wrapper)

include hκ in
/-- An insert that follows a program ends alike with both kernels. -/
theorem unwinds_insert (name : Option String) (p : Program) :
    Unwinds w alarm (insert κ name p) (insert κ' name p) s :=
  (unwinds_walking _).bind fun wrapper _ => (unwinds_walking _).bind fun _ _ =>
    unwinds_currentDrawing.bind fun _ _ =>
      (unwinds_createEffect hκ _ _ _).bind fun _ _ => unwinds_bindNode name wrapper

theorem stack_addCleanup? {t t' : Scopes Cleanup Handler} {c : Cleanup}
    (h : t.addCleanup? c = some t') : t'.stack = t.stack := by
  obtain ⟨id, rfl⟩ := Scopes.addCleanup?_eq h
  rfl

/-- Listening to an event ends alike with both kernels. -/
theorem unwinds_listen (node : DomId) (event : String) (action : Json → Program) :
    Unwinds w alarm (listen node event action) (listen node event action) s := by
  refine unwinds_currentDrawing.bind fun d _ => (unwinds_ensureNode _ _).bind fun _ s' => ?_
  refine .stepGet ?_
  simp only
  split
  · exact .refl s'
  · rename_i scopes hadded
    exact .same rfl rfl (stack_addCleanup? hadded) rfl

theorem steady_modifyBoundary (s : State) (id : BoundaryId) (f : Boundary → Boundary) :
    s.Steady (s.modifyBoundary id f) := .same rfl rfl rfl rfl

/-- Opening the scope of a boundary ends alike with both kernels. -/
theorem unwinds_openBoundaryScope (id : BoundaryId) (b : Boundary) (catching : Bool) :
    Unwinds w alarm (openBoundaryScope id b catching) (openBoundaryScope id b catching) s := by
  refine (unwinds_createScope b.owner).bind fun scope s' => .ite (fun _ => ?_) fun _ => ?_
  · refine .change (.same rfl rfl rfl rfl) ?_
    exact .change (steady_modifyBoundary _ id _) (.ret scope)
  · exact .change (steady_modifyBoundary s' id _) (.ret scope)

include hκ in
/-- Drawing between the ends of a boundary ends alike with both kernels. -/
theorem unwinds_drawBoundary (b : Boundary) (scope : ScopeId) (mode : Mode) (flag : FlagId)
    (p : Program) : Unwinds w alarm (drawBoundary κ b scope mode flag p)
      (drawBoundary κ' b scope mode flag p) s :=
  unwinds_withScope fun _ => unwinds_withSupply fun _ => .look
    (unwinds_drawing fun _ => unwinds_perform hκ p)

/-- Clearing what a boundary shows ends alike with both kernels. -/
theorem unwinds_clearBoundary (b : Boundary) :
    Unwinds w alarm (clearBoundary b) (clearBoundary b) s := .stepGet (.same rfl rfl rfl rfl)

private theorem unwinds_holdingBoundary (id : BoundaryId) {x y : Run Unit}
    (h : ∀ s, Unwinds w alarm x y s) :
    Unwinds w alarm (holdingBoundary id x) (holdingBoundary id y) s := by
  refine .look ?_
  cases s.boundaryClient? id with
  | none => exact h s
  | some client => exact unwinds_holdingClient h

include hκ in
/-- Showing the fallback of a boundary ends alike with both kernels. -/
theorem unwinds_showFallback (id : BoundaryId) (error : String) :
    Unwinds w alarm (showFallback κ id error) (showFallback κ' id error) s := by
  refine unwinds_holdingBoundary id fun s => .look ?_
  cases s.boundary? id with
  | none => exact .ret ()
  | some b =>
    simp only
    split
    · refine .ite (fun _ => .ret ()) fun _ => .change (steady_modifyBoundary s id _) ?_
      refine (unwinds_callDispose hκ _).bind fun _ _ => ?_
      refine (unwinds_clearBoundary b).bind fun _ _ => ?_
      refine (unwinds_openBoundaryScope id b false).bind fun scope _ => ?_
      exact unwinds_newFlag.bind fun flag _ => unwinds_drawBoundary hκ b scope .create flag _
    · exact .ret ()

include hκ in
/-- Mounting a boundary ends alike with both kernels. -/
theorem unwinds_mountBoundary (id : BoundaryId) (b : Boundary) (mode : Mode) :
    Unwinds w alarm (mountBoundary κ id b mode) (mountBoundary κ' id b mode) s := by
  refine (unwinds_openBoundaryScope id b true).bind fun scope _ => ?_
  refine unwinds_newFlag.bind fun flag _ => ?_
  refine (unwinds_drawBoundary hκ b scope mode flag b.content).bind fun _ s' => .look ?_
  refine .ite (fun _ => ?_) fun _ => ?_
  -- What did not hydrate is drawn anew; what comes behind it is the same in both cases.
  on_goal 1 =>
    refine (unwinds_callDispose hκ scope).bind fun _ s' => ?_
    refine .change (steady_modifyBoundary s' id _) ((unwinds_clearBoundary b).bind fun _ _ => ?_)
    refine .change (.same rfl rfl rfl rfl) ?_
    refine (unwinds_openBoundaryScope id b true).bind fun scope _ => ?_
    refine unwinds_newFlag.bind fun flag _ => ?_
    refine (unwinds_drawBoundary hκ b scope .create flag b.content).bind fun _ _ => ?_
  all_goals
    refine (Unwinds.stepGet (.same rfl rfl rfl rfl)).bind fun errors _ => ?_
    cases errors with
    | nil => exact .ret ()
    | cons error rest => exact unwinds_showFallback hκ id error

include hκ in
/-- Creating a boundary ends alike with both kernels. -/
theorem unwinds_boundary (content : Program) (fallback : Option (Json → Program)) :
    Unwinds w alarm (boundary κ content fallback) (boundary κ' content fallback) s := by
  refine (unwinds_walking _).bind fun markers _ => (unwinds_walking _).bind fun frame _ => ?_
  refine unwinds_currentDrawing.bind fun d s' => ?_
  refine (Unwinds.stepGet (.refl s')).bind fun b _ => ?_
  refine (Unwinds.stepGet (.same rfl rfl rfl rfl)).bind fun id _ => ?_
  exact (unwinds_mountBoundary hκ id b _).bind fun _ _ => unwinds_walking _

include hκ in
/-- Running the program of an effect ends alike with both kernels. -/
theorem unwinds_react (id : NodeId) (e : Effect) :
    Unwinds w alarm (react κ id e) (react κ' id e) s := by
  unfold react
  cases e.reaction with
  | body p fallible => exact hκ (.exec p) s
  | text document node p =>
    exact (unwinds_eval hκ p).bind fun _ _ => .change (.same rfl rfl rfl rfl) (.ret _)
  | attr document node name p =>
    refine (unwinds_eval hκ p).bind fun v _ => (unwinds_ensureNode document node).bind fun _ _ => ?_
    cases v <;> exact .change (.same rfl rfl rfl rfl) (.ret _)
  | region document wrapper p first =>
    have hdraw (d : Drawing) (s : State) : Unwinds w alarm
        (do drawing d (κ.perform p); return Outcome.value .null)
        (do drawing d (κ'.perform p); return Outcome.value .null) s :=
      (unwinds_drawing fun _ => unwinds_perform hκ p).bind fun _ _ => .ret _
    refine unwinds_withSupply fun s => ?_
    cases first with
    | none =>
      refine .change (.same rfl rfl rfl rfl) ?_
      exact (unwinds_newDrawing document wrapper .create).bind hdraw
    | some h =>
      exact .change (steady_modifyEffect s id _) (.look ((Unwinds.ret _).bind hdraw))
  | insert document wrapper p first =>
    refine (unwinds_eval hκ p).bind fun _ _ => .change (.same rfl rfl rfl rfl) ?_
    cases first with
    | none => exact .ret _
    | some report =>
      exact .change (steady_modifyEffect _ id _) (.change (.same rfl rfl rfl rfl) (.ret _))

include hκ in
private theorem unwinds_finishReaction (id : NodeId) (e : Effect) (outcome : Outcome) :
    Unwinds w alarm (finishReaction κ id e outcome) (finishReaction κ' id e outcome) s := by
  refine .change (steady_modifyEffect s id _) ?_
  cases outcome with
  | value v => exact .ret ()
  | failure error => exact .ite (fun _ => unwinds_callReport hκ _ error) fun _ => .ret ()

include hκ in
private theorem unwinds_runReaction (id : NodeId) (e : Effect) :
    Unwinds w alarm (runReaction κ id e) (runReaction κ' id e) s :=
  (unwinds_withScope fun _ => unwinds_tracked fun _ => unwinds_react hκ id e).bind fun outcome _ =>
    unwinds_finishReaction hκ id e outcome

include hκ in
private theorem unwinds_runEffect (id : NodeId) :
    Unwinds w alarm (runEffect κ id) (runEffect κ' id) s := by
  refine .look ?_
  cases s.effect? id with
  | none => exact .ret ()
  | some e =>
    refine .ite (fun _ => .ret ()) fun _ => ?_
    exact (unwinds_resetScope hκ e.scope).bind fun _ _ => unwinds_runReaction hκ id e

private theorem steady_keepValue (s : State) (id : NodeId) (v : Json) :
    s.Steady (s.keepValue id v) := by
  unfold State.keepValue
  split
  · split
    · exact .refl s
    · exact .same rfl rfl rfl rfl
  · exact .refl s

include hκ in
private theorem unwinds_runComputed (id : NodeId) (p : Program) :
    Unwinds w alarm (runComputed κ id p) (runComputed κ' id p) s :=
  (unwinds_tracked fun _ => unwinds_eval hκ p).bind fun v s' => .step (steady_keepValue s' id v)

include hκ in
/-- Finding out whether something that was read has changed ends alike with both kernels. -/
theorem unwinds_dependenciesChanged (l : List Graph.Observed) :
    Unwinds w alarm (dependenciesChanged κ l) (dependenciesChanged κ' l) s := by
  induction l generalizing s with
  | nil => exact .ret false
  | cons seen rest ih =>
    refine .look (.ite (fun _ => ?_) fun _ => ?_)
    · exact (unwinds_callRefresh hκ seen.node).bind fun _ _ =>
        .look (.ite (fun _ => ih) fun _ => .ret true)
    · exact .look (.ite (fun _ => ih) fun _ => .ret true)

include hκ in
private theorem unwinds_runCell (id : NodeId) (cell : Option Cell) :
    Unwinds w alarm (runCell κ id cell) (runCell κ' id cell) s := by
  refine .change (.same rfl rfl rfl rfl) ?_
  split
  · exact unwinds_runComputed hκ id _
  · exact unwinds_runEffect hκ id
  · exact .ret ()

include hκ in
private theorem unwinds_rerun (id : NodeId) : Unwinds w alarm (rerun κ id) (rerun κ' id) s := by
  have hrun (s' : State) : Unwinds w alarm
      (if s.graph.contains id then holding id (runCell κ id s.cells[id]?) else pure ())
      (if s.graph.contains id then holding id (runCell κ' id s.cells[id]?) else pure ()) s' :=
    .ite (fun _ => unwinds_holding fun _ => unwinds_runCell hκ id _) fun _ => .ret ()
  exact .look (.ite (fun _ => (Unwinds.raise _).bind fun _ => hrun) fun _ => hrun s)

include hκ in
/-- Bringing a node up to date ends alike with both kernels. -/
theorem unwinds_refresh (id : NodeId) : Unwinds w alarm (refresh κ id) (refresh κ' id) s := by
  refine .look ?_
  cases s.graph.find? id with
  | none => exact .ret ()
  | some n =>
    simp only
    cases n.mark with
    | clean => exact .ret ()
    | dirty => exact unwinds_rerun hκ id
    | maybeDirty =>
      refine (unwinds_dependenciesChanged hκ _).bind fun changed _ => ?_
      exact .ite (fun _ => unwinds_rerun hκ id) fun _ => .step (.same rfl rfl rfl rfl)

include hκ in
private theorem unwinds_ensureFresh (id : NodeId) :
    Unwinds w alarm (ensureFresh κ id) (ensureFresh κ' id) s := by
  refine .look (.ite (fun _ => unwinds_callRefresh hκ id) fun _ => ?_)
  split
  · exact (unwinds_untracked fun _ => unwinds_eval hκ _).bind fun _ _ =>
      .step (.same rfl rfl rfl rfl)
  · exact .ret ()

private theorem unwinds_keptValue (id : NodeId) : Unwinds w alarm (keptValue id)
    (keptValue id) s := by
  refine .look ?_
  split
  · exact .ret _
  · exact .raise _

include hκ in
/-- Reading a computed value ends alike with both kernels. -/
theorem unwinds_readComputed (id : NodeId) :
    Unwinds w alarm (readComputed κ id) (readComputed κ' id) s :=
  unwinds_holding fun s => .change (State.steady_record s id)
    ((unwinds_ensureFresh hκ id).bind fun _ _ => unwinds_keptValue id)

include hκ in
/-- Doing what was put off ends alike with both kernels. -/
theorem unwinds_drain : Unwinds w alarm (drain κ) (drain κ') s := by
  refine (Unwinds.stepGet ?_).bind fun next _ => ?_
  · split <;> exact .same rfl rfl rfl rfl
  · cases next with
    | none => exact .ret ()
    | some task =>
      cases task with
      | uncaught error =>
        exact (unwinds_surfaceUncaught hκ error).bind fun _ _ => unwinds_callDrain hκ
      | fallback b error =>
        exact (unwinds_showFallback hκ b error).bind fun _ s' =>
          .change (State.tidied_sweep s').steady (unwinds_callDrain hκ)

end

end Rivulet.Engine
