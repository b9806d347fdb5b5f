import Rivulet.Proofs.Watching.Running

/-!
# Drawing and refreshing under observation

What is drawn is of no concern to the graph and the queue, but for the effects that draw it. A node
that is brought up to date counts as clean before it is computed; what comes behind that is a run
like any other.
-/

namespace Rivulet.Engine

open Hydration

section

variable {C : Conduct} {κ : Notes → Kernel} (hκ : CallsConduct C κ)
  {s : State}

private theorem conducts_newReport : Conducts C (fun _ => newReport) s :=
  .stepGet (C.aside rfl rfl rfl rfl) fun _ => rfl

/-- A new flag goes by the conduct. -/
theorem conducts_newFlag : Conducts C (fun _ => newFlag) s :=
  .stepGet (C.aside rfl rfl rfl rfl) fun _ => rfl

/-- A new document goes by the conduct. -/
theorem conducts_newDocument (d : Document (Json → Program)) :
    Conducts C (fun _ => newDocument d) s := .stepGet (C.aside rfl rfl rfl rfl) fun _ => rfl

/-- A step of the walk goes by the conduct. -/
theorem conducts_walking {α : Type} (step : WalkM (Json → Program) α) :
    Conducts C (fun _ => walking step) s := by
  cases hdrawings : s.drawings with
  | nil =>
    have hnone (log : List Json) : (s.relogged log).drawings = [] := hdrawings
    refine .breaks (.panic Misuse.finished.message) s [] (fun _ log => ?_) (C.loose (C.refl s))
    simp only [walking, run_get, hnone]
    rfl
  | cons d rest =>
    have hsome (log : List Json) : (s.relogged log).drawings = d :: rest := hdrawings
    let walk (u : State) : Walk (Json → Program) :=
      { document := u.document d.document, report := u.report d.report,
        unresolved := u.flag d.flag, cursor := d.cursor }
    cases hstep : step.run (walk s) with
    | error misuse =>
      have hbreaks (log : List Json) : step.run (walk (s.relogged log)) = .error misuse := hstep
      refine .breaks (.panic misuse.message) s [] (fun _ log => ?_) (C.loose (C.refl s))
      simp only [walking, run_get, hsome]
      rw [hbreaks]
      rfl
    | ok r =>
      have hends (log : List Json) : step.run (walk (s.relogged log)) = .ok r := hstep
      refine .ends r.1 { s with
        documents := s.documents.setIfInBounds d.document.index r.2.document
        reports := s.reports.setIfInBounds d.report.index r.2.report
        flags := s.flags.setIfInBounds d.flag.index r.2.unresolved
        drawings := { d with cursor := r.2.cursor } :: rest } [] (fun _ log => ?_)
        (C.aside rfl rfl rfl rfl)
      simp only [walking, run_get, hsome]
      rw [hends]
      rfl

/-- Drawing with a drawing of its own goes by the conduct. -/
theorem conducts_drawing {α : Type} {d : Drawing} {x : Watch α} (h : ∀ s, Conducts C x s) :
    Conducts C (fun notes => drawing d (x notes)) s := by
  refine .change (C.aside rfl rfl rfl rfl) (Conducts.guarding ?_
    (fun u => C.aside rfl rfl rfl rfl) fun _ _ => rfl) fun _ => rfl
  exact (h _).bind fun a _ => (conducts_walking _).bind fun _ _ => .ret a

/-- A new drawing goes by the conduct. -/
theorem conducts_newDrawing (document : DocumentId) (parent : DomId) (mode : Mode) :
    Conducts C (fun _ => newDrawing document parent mode) s :=
  conducts_newReport.bind fun _ _ => conducts_newFlag.bind fun _ _ => .look (.ret _) fun _ _ => rfl

/-- Finding the current drawing goes by the conduct. -/
theorem conducts_currentDrawing : Conducts C (fun _ => currentDrawing) s := by
  refine .look ?_ fun _ _ => rfl
  cases s.drawings with
  | nil => exact .raise _
  | cons d rest => exact .ret d

/-- Naming a node of the document goes by the conduct. -/
theorem conducts_bindNode (name : Option String) (node : DomId) :
    Conducts C (fun _ => bindNode name node) s :=
  conducts_currentDrawing.bind fun d _ => conducts_bindName name (.node d.document node)

/-- Claiming a node under a name goes by the conduct. -/
theorem conducts_claimAs (name : Option String) (step : WalkM (Json → Program) DomId) :
    Conducts C (fun _ => claimAs name step) s :=
  (conducts_walking step).bind fun id _ => (conducts_bindNode name id).bind fun _ _ => .ret id

include hκ in
/-- A text that follows a program goes by the conduct. -/
theorem conducts_dynText (name : Option String) (p : Program) :
    Conducts C (fun notes => dynText (κ notes) name p) s :=
  (conducts_walking _).bind fun id _ => conducts_currentDrawing.bind fun _ _ =>
    (conducts_createEffect hκ _ _ _).bind fun _ _ => conducts_bindNode name id

/-- The check that a node is there goes by the conduct. -/
theorem conducts_ensureNode (document : DocumentId) (node : DomId) :
    Conducts C (fun _ => ensureNode document node) s :=
  .look (.ite (fun _ => .ret ()) fun _ => .raise _) fun _ _ => rfl

include hκ in
/-- An attribute that follows a program goes by the conduct. -/
theorem conducts_bindAttr (node : DomId) (name : String) (p : Program) :
    Conducts C (fun notes => bindAttr (κ notes) node name p) s :=
  conducts_currentDrawing.bind fun _ _ => conducts_createEffect hκ _ _ _

include hκ in
/-- A region that follows a program goes by the conduct. -/
theorem conducts_region (name : Option String) (p : Program) :
    Conducts C (fun notes => region (κ notes) name p) s :=
  (conducts_walking _).bind fun wrapper _ => (conducts_walking _).bind fun _ _ =>
    conducts_currentDrawing.bind fun _ _ => .look
      ((conducts_createEffect hκ _ _ _).bind fun _ _ => conducts_bindNode name wrapper)
      fun _ _ => rfl

include hκ in
/-- An insert that follows a program goes by the conduct. -/
theorem conducts_insert (name : Option String) (p : Program) :
    Conducts C (fun notes => insert (κ notes) name p) s :=
  (conducts_walking _).bind fun wrapper _ => (conducts_walking _).bind fun _ _ =>
    conducts_currentDrawing.bind fun _ _ =>
      (conducts_createEffect hκ _ _ _).bind fun _ _ => conducts_bindNode name wrapper

/-- Listening to an event goes by the conduct. -/
theorem conducts_listen (node : DomId) (event : String) (action : Json → Program) :
    Conducts C (fun _ => listen node event action) s := by
  refine conducts_currentDrawing.bind fun d _ => (conducts_ensureNode _ _).bind fun _ s' => ?_
  refine .stepGet ?_ fun log => ?_
  · simp only
    split
    · exact C.refl s'
    · exact C.aside rfl rfl rfl rfl
  · have hscopes : (s'.relogged log).scopes = s'.scopes := rfl
    have hdocument : (s'.relogged log).document d.document = s'.document d.document := rfl
    simp only [hscopes, hdocument]
    split <;> rfl

/-- Opening the scope of a boundary goes by the conduct. -/
theorem conducts_openBoundaryScope (id : BoundaryId) (b : Boundary) (catching : Bool) :
    Conducts C (fun _ => openBoundaryScope id b catching) s := by
  refine (conducts_createScope b.owner).bind fun scope s' => .ite (fun _ => ?_) fun _ => ?_
  · refine .change (C.aside rfl rfl rfl rfl) ?_ fun _ => rfl
    exact .change (C.aside rfl rfl rfl rfl) (.ret scope) fun _ => rfl
  · exact .change (C.aside rfl rfl rfl rfl) (.ret scope) fun _ => rfl

include hκ in
/-- Drawing between the ends of a boundary goes by the conduct. -/
theorem conducts_drawBoundary (b : Boundary) (scope : ScopeId) (mode : Mode) (flag : FlagId)
    (p : Program) : Conducts C (fun notes => drawBoundary (κ notes) b scope mode flag p) s :=
  conducts_withScope fun _ => conducts_withSupply fun _ => .look
    (conducts_drawing fun _ => conducts_perform hκ p) fun _ _ => rfl

/-- Clearing what a boundary shows goes by the conduct. -/
theorem conducts_clearBoundary (b : Boundary) :
    Conducts C (fun _ => clearBoundary b) s := .stepGet (C.aside rfl rfl rfl rfl) fun _ => rfl

private theorem conducts_holdingBoundary (id : BoundaryId) {x : Watch Unit}
    (h : ∀ s, Conducts C x s) :
    Conducts C (fun notes => holdingBoundary id (x notes)) s := by
  refine .look ?_ fun _ _ => rfl
  cases s.boundaryClient? id with
  | none => exact h s
  | some client => exact conducts_holdingClient h

include hκ in
/-- Showing the fallback of a boundary goes by the conduct. -/
theorem conducts_showFallback (id : BoundaryId) (error : String) :
    Conducts C (fun notes => showFallback (κ notes) id error) s := by
  refine conducts_holdingBoundary id fun s => .look ?_ fun _ _ => rfl
  cases s.boundary? id with
  | none => exact .ret ()
  | some b =>
    simp only
    split
    · refine .ite (fun _ => .ret ()) fun _ => .change (C.aside rfl rfl rfl rfl) ?_ fun _ => rfl
      refine (conducts_callDispose hκ _).bind fun _ _ => ?_
      refine (conducts_clearBoundary b).bind fun _ _ => ?_
      refine (conducts_openBoundaryScope id b false).bind fun scope _ => ?_
      exact conducts_newFlag.bind fun flag _ => conducts_drawBoundary hκ b scope .create flag _
    · exact .ret ()

include hκ in
/-- Mounting a boundary goes by the conduct. -/
theorem conducts_mountBoundary (id : BoundaryId) (b : Boundary) (mode : Mode) :
    Conducts C (fun notes => mountBoundary (κ notes) id b mode) s := by
  refine (conducts_openBoundaryScope id b true).bind fun scope _ => ?_
  refine conducts_newFlag.bind fun flag _ => ?_
  refine (conducts_drawBoundary hκ b scope mode flag b.content).bind fun _ s' =>
    .look ?_ fun _ _ => rfl
  refine .ite (fun _ => ?_) fun _ => ?_
  -- What did not hydrate is drawn anew; what comes behind it is the same in both cases.
  on_goal 1 =>
    refine (conducts_callDispose hκ scope).bind fun _ s' => ?_
    refine .change (C.aside rfl rfl rfl rfl) ((conducts_clearBoundary b).bind fun _ _ => ?_)
      fun _ => rfl
    refine .change (C.aside rfl rfl rfl rfl) ?_ fun _ => rfl
    refine (conducts_openBoundaryScope id b true).bind fun scope _ => ?_
    refine conducts_newFlag.bind fun flag _ => ?_
    refine (conducts_drawBoundary hκ b scope .create flag b.content).bind fun _ _ => ?_
  all_goals
    refine (Conducts.stepGet (C.aside rfl rfl rfl rfl) fun _ => rfl).bind fun errors _ => ?_
    cases errors with
    | nil => exact .ret ()
    | cons error rest => exact conducts_showFallback hκ id error

include hκ in
/-- Creating a boundary goes by the conduct. -/
theorem conducts_boundary (content : Program) (fallback : Option (Json → Program)) :
    Conducts C (fun notes => boundary (κ notes) content fallback) s := by
  refine (conducts_walking _).bind fun markers _ => (conducts_walking _).bind fun frame _ => ?_
  refine conducts_currentDrawing.bind fun d s' => ?_
  refine (Conducts.stepGet (C.refl s') fun _ => rfl).bind fun b _ => ?_
  refine (Conducts.stepGet (C.aside rfl rfl rfl rfl) fun _ => rfl).bind fun id _ => ?_
  exact (conducts_mountBoundary hκ id b _).bind fun _ _ => conducts_walking _

/-! ## Bringing nodes up to date -/

include hκ in
/-- Running the program of an effect goes by the conduct. -/
theorem conducts_react (id : NodeId) (e : Effect) :
    Conducts C (fun notes => react (κ notes) id e) s := by
  unfold react
  cases e.reaction with
  | body p fallible => exact hκ.exec p s
  | text document node p =>
    exact (conducts_eval hκ p).bind fun _ _ =>
      .change (C.aside rfl rfl rfl rfl) (.ret _) fun _ => rfl
  | attr document node name p =>
    refine (conducts_eval hκ p).bind fun v _ =>
      (conducts_ensureNode document node).bind fun _ _ => ?_
    cases v <;> exact .change (C.aside rfl rfl rfl rfl) (.ret _) fun _ => rfl
  | region document wrapper p first =>
    have hdraw (d : Drawing) (s : State) : Conducts C (fun notes => do
        drawing d ((κ notes).perform p)
        return Outcome.value .null) s :=
      (conducts_drawing fun _ => conducts_perform hκ p).bind fun _ _ => .ret _
    refine conducts_withSupply fun s => ?_
    cases first with
    | none =>
      refine .change (C.aside rfl rfl rfl rfl) ?_ fun _ => rfl
      exact (conducts_newDrawing document wrapper .create).bind hdraw
    | some h =>
      exact .change (C.aside rfl rfl rfl rfl) (.look ((Conducts.ret _).bind hdraw)
        fun _ _ => rfl) fun _ => rfl
  | insert document wrapper p first =>
    refine (conducts_eval hκ p).bind fun _ _ => .change (C.aside rfl rfl rfl rfl) ?_ fun _ => rfl
    cases first with
    | none => exact .ret _
    | some report =>
      exact .change (C.aside rfl rfl rfl rfl) (.change (C.aside rfl rfl rfl rfl) (.ret _)
        fun _ => rfl) fun _ => rfl

include hκ in
private theorem conducts_finishReaction (id : NodeId) (e : Effect) (outcome : Outcome) :
    Conducts C (fun notes => finishReaction (κ notes) id e outcome) s := by
  refine .change (C.aside rfl rfl rfl rfl) ?_ fun _ => rfl
  cases outcome with
  | value v => exact .ret ()
  | failure error => exact .ite (fun _ => conducts_callReport hκ _ error) fun _ => .ret ()

include hκ in
private theorem conducts_runReaction (id : NodeId) (e : Effect) :
    Conducts C (fun notes => runReaction (κ notes) id e) s :=
  (conducts_withScope fun _ => conducts_tracked fun _ => conducts_react hκ id e).bind
    fun outcome _ => conducts_finishReaction hκ id e outcome

include hκ in
private theorem conducts_runEffect (id : NodeId) :
    Conducts C (fun notes => runEffect (κ notes) id) s := by
  refine .look ?_ fun _ _ => rfl
  cases s.effect? id with
  | none => exact .ret ()
  | some e =>
    refine .ite (fun _ => .ret ()) fun _ => ?_
    exact (conducts_resetScope hκ e.scope).bind fun _ _ => conducts_runReaction hκ id e

private theorem State.keepValue_relogged (s : State) (id : NodeId) (v : Json) (log : List Json) :
    (s.relogged log).keepValue id v = (s.keepValue id v).relogged log := by
  unfold State.keepValue
  rw [show (s.relogged log).cells = s.cells from rfl]
  split
  · split <;> rfl
  · rfl

theorem Conduct.rel_keepValue (C : Conduct) (s : State) (id : NodeId) (v : Json) :
    C.Rel s [] (s.keepValue id v) := by
  unfold State.keepValue
  split
  · rename_i p old _
    split
    · exact C.refl s
    · have hcell : C.Rel s [] (s.setCell id (.computed p (some v))) := C.aside rfl rfl rfl rfl
      exact C.after hcell (C.move (.bump id))
  · exact C.refl s

include hκ in
private theorem conducts_runComputed (id : NodeId) (p : Program) :
    Conducts C (fun notes => runComputed (κ notes) id p) s :=
  (conducts_tracked fun _ => conducts_eval hκ p).bind fun v s' =>
    .step (C.rel_keepValue s' id v) (s'.keepValue_relogged id v)

include hκ in
/-- Finding out whether something that was read has changed goes by the conduct. -/
theorem conducts_dependenciesChanged (l : List Graph.Observed) :
    Conducts C (fun notes => dependenciesChanged (κ notes) l) s := by
  induction l generalizing s with
  | nil => exact .ret false
  | cons seen rest ih =>
    refine .look (.ite (fun _ => ?_) fun _ => ?_) fun _ _ => rfl
    · exact (conducts_callRefresh hκ seen.node).bind fun _ _ =>
        .look (.ite (fun _ => ih) fun _ => .ret true) fun _ _ => rfl
    · exact .look (.ite (fun _ => ih) fun _ => .ret true) fun _ _ => rfl

include hκ in
theorem refreshes_runCell (id : NodeId) (cell : Option Cell) :
    Seen (C.Refreshed id s) (C.Loose s) (fun notes => runCell (κ notes) id cell) s := by
  have htrust : C.Loose s [] (s.modifyGraph (·.request id .clean)) := C.loose (C.move (.trust id))
  have hbehind {x : Watch Unit} (h : ∀ u, Conducts C x u) :
      Seen (C.Refreshed id s) (C.Loose s)
        (fun notes => modify (·.modifyGraph (·.request id .clean)) >>= fun _ => x notes) s :=
    .change ((h _).mono C.trusted (C.loose_after htrust)) fun _ => rfl
  cases cell with
  | none => exact hbehind fun _ => .ret ()
  | some c =>
    cases c with
    | signal | query => exact hbehind fun _ => .ret ()
    | computed p => exact hbehind fun _ => conducts_runComputed hκ id p
    | effect => exact hbehind fun _ => conducts_runEffect hκ id

include hκ in
theorem refreshes_rerun (id : NodeId) :
    Seen (C.Refreshed id s) (C.Loose s) (fun notes => rerun (κ notes) id) s := by
  have hhold : C.Rel s [] (s.hold (.node id)) := C.aside rfl rfl rfl rfl
  have hrun : Seen (C.Refreshed id s) (C.Loose s) (fun notes =>
      if s.graph.contains id then holding id (runCell (κ notes) id s.cells[id]?)
      else pure ()) s := by
    refine .ite (fun _ => .change ?_ fun _ => rfl) fun hgone => .ret (C.rested fun n hn => ?_)
    · refine (refreshes_runCell hκ id s.cells[id]?).guarding (fun h => ?_) (fun h => ?_)
        fun s log => s.unhold_relogged _ log
      · simpa using C.behind (C.before hhold h) (C.rel_unhold _ _)
      · exact C.loose_andThen (C.loose_after (C.loose hhold) h) (C.loose (C.rel_unhold _ _))
    · rw [Graph.contains_eq, hn] at hgone
      exact absurd rfl hgone
  refine .look (.ite (fun _ => ?_) fun _ => hrun) fun _ _ => rfl
  -- Nothing comes behind the breakdown.
  exact .bind (Q := fun _ _ => False) (.raise (C.loose (C.refl s))) (fun _ _ _ h => h.elim)
    fun h => h

include hκ in
theorem refreshes_refresh (id : NodeId) :
    Seen (C.Refreshed id s) (C.Loose s) (fun notes => refresh (κ notes) id) s := by
  refine .look ?_ fun _ _ => rfl
  cases hfind : s.graph.find? id with
  | none => exact .ret (C.rested fun n hn => by simp [hfind] at hn)
  | some n =>
    simp only
    cases hmark : n.mark with
    | clean =>
      refine .ret (C.rested fun m hm => ?_)
      obtain rfl : n = m := Option.some.inj (hfind.symm.trans hm)
      exact hmark
    | dirty => exact refreshes_rerun hκ id
    | maybeDirty =>
      refine .bind (conducts_dependenciesChanged hκ _) (fun changed u seen hseen => ?_) fun h => h
      refine .ite (fun _ => ?_) fun _ => .step (C.before hseen (C.trusted (C.refl _))) fun _ => rfl
      exact (refreshes_rerun hκ id).mono (C.before hseen) (C.loose_trans (C.loose hseen))

include hκ in
private theorem conducts_ensureFresh (id : NodeId) :
    Conducts C (fun notes => ensureFresh (κ notes) id) s := by
  refine .look (.ite (fun _ => conducts_callRefresh hκ id) fun _ => ?_) fun _ _ => rfl
  split
  · exact (conducts_untracked fun _ => conducts_eval hκ _).bind fun _ _ =>
      .step (C.aside rfl rfl rfl rfl) fun _ => rfl
  · exact .ret ()

private theorem conducts_keptValue (id : NodeId) : Conducts C (fun _ => keptValue id) s := by
  refine .look ?_ fun _ _ => rfl
  split
  · exact .ret _
  · exact .raise _

include hκ in
/-- Reading a computed value goes by the conduct. -/
theorem conducts_readComputed (id : NodeId) :
    Conducts C (fun notes => readComputed (κ notes) id) s :=
  conducts_holding fun _ => .change (C.aside rfl rfl rfl rfl)
    ((conducts_ensureFresh hκ id).bind fun _ _ => conducts_keptValue id) fun _ => rfl

/-- Does what was put off. -/
def carryOut (κ : Kernel) : Deferred → Run Unit
  | .uncaught error => surfaceUncaught κ error
  | .fallback b error => do
    showFallback κ b error
    modify State.sweep

theorem drain_nil (κ : Kernel) (h : s.deferred = []) : drain κ s = .ok () s := by
  rw [drain, run_bind_ok (run_modifyGet _ s), h]
  rfl

/-- The first of what was put off is done, and then the others. -/
theorem drain_cons (κ : Kernel) {task : Deferred} {rest : List Deferred}
    (h : s.deferred = task :: rest) :
    drain κ s = (carryOut κ task >>= fun _ => κ.drain) { s with deferred := rest } := by
  rw [drain, run_bind_ok (run_modifyGet _ s), h]
  cases task with
  | uncaught error => rfl
  | fallback b error =>
    show (showFallback κ b error >>= _) _ = ((showFallback κ b error >>= _) >>= _) _
    rw [bind_assoc]

include hκ in
private theorem conducts_carryOut (task : Deferred) :
    Conducts C (fun notes => carryOut (κ notes) task) s := by
  cases task with
  | uncaught error => exact conducts_surfaceUncaught hκ error
  | fallback b error =>
    exact (conducts_showFallback hκ b error).bind fun _ u =>
      .step (C.rel_sweep u) fun log => u.sweep_relogged log

include hκ in
/-- What was put off is done one after the other, while no flush is under way. -/
theorem conducts_drain (h : s.queue.flushing = false) :
    Conducts C (fun notes => do
      modify (·.noted notes .drain)
      drain (κ notes)) s := by
  cases hdeferred : s.deferred with
  | nil =>
    refine .ends () s [] (fun notes log => ?_) (C.refl s)
    have hsame : (s.relogged log).deferred = [] := hdeferred
    have hnoted : (s.relogged log).noted notes .drain = s.relogged log := by
      rw [State.noted, hsame]
      rfl
    show drain (κ notes) ((s.relogged log).noted notes .drain) = _
    rw [hnoted]
    exact drain_nil _ hsame
  | cons task rest =>
    have hdelivers := C.delivers hdeferred h
    have hrest : Conducts C (fun notes => carryOut (κ notes) task >>= fun _ => (κ notes).drain)
        { s with deferred := rest } :=
      (conducts_carryOut hκ task).bindLevel fun _ u hu => conducts_callDrain hκ (hu.trans h)
    refine Seen.sight (hrest.mono (C.trans hdelivers) (C.loose_trans (C.loose hdelivers)))
      fun notes log => ?_
    have hsame (log : List Json) : (s.relogged log).deferred = task :: rest := hdeferred
    have hnoted : (s.relogged log).noted notes .drain =
        s.relogged (notes.delivery ⟨task, s.queue⟩ ++ log) := by
      rw [State.noted, hsame]
      rfl
    show drain (κ notes) ((s.relogged log).noted notes .drain) = _
    rw [hnoted]
    exact drain_cons _ (hsame _)

end

end Rivulet.Engine
