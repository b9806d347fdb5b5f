import Rivulet.Proofs.Converging.Providing

/-!
# Boundaries in a drawing

Whatever markup the walk meets, a boundary whose content draws ends normally: what is drawn between
its ends holds, or it is removed, what came with it ends, and the content is drawn anew. Between its
ends stands what bears the skeletons of its content. What came with it ends without a trace in what
is drawn and in what templates read, as its scopes have no cleanups, and own only effects that came
with it.
-/

namespace Rivulet.Engine

open Hydration

/-- What came with a drawing has ended. -/
structure State.Sheds (s s' : State) : Prop where
  /-- The same is drawn. -/
  canvas : s'.canvas = s.canvas
  /-- The names stand for the same. -/
  names : s'.names = s.names
  /-- The same is put off. -/
  deferred : s'.deferred = s.deferred
  /-- The same runs. -/
  tracking : s'.tracking = s.tracking
  /-- The same is being fetched. -/
  starting : s'.starting = s.starting
  /-- The same scopes are current. -/
  stack : s'.scopes.stack = s.scopes.stack
  /-- No effect has come to wait. -/
  pending : s.queue.pending = [] → s'.queue.pending = []

namespace State.Sheds

variable {s s' s'' : State}

private theorem refl (s : State) : s.Sheds s := ⟨rfl, rfl, rfl, rfl, rfl, rfl, fun h => h⟩

theorem trans (h : s.Sheds s') (h' : s'.Sheds s'') : s.Sheds s'' where
  canvas := h'.canvas.trans h.canvas
  names := h'.names.trans h.names
  deferred := h'.deferred.trans h.deferred
  tracking := h'.tracking.trans h.tracking
  starting := h'.starting.trans h.starting
  stack := h'.stack.trans h.stack
  pending hs := h'.pending (h.pending hs)

/-- What nothing refers to is let go. -/
theorem letsGo (hidles : s.Idles s') (h : s.LetsGo s') : s.Sheds s' := by
  have hpending := hidles.pending
  obtain ⟨_, _, _, _, rfl⟩ := h
  exact ⟨rfl, rfl, rfl, rfl, rfl, rfl, hpending⟩

end State.Sheds

section

variable {W : World} {k n : Nat} {s s' : State} {x : ScopeId}

theorem sheds_retired (s : State) (id : NodeId) : s.Sheds (s.retired id) := by
  let gone := (s.hold (.node id)).detach id
  have hgone : s.Sheds gone := ⟨rfl, rfl, rfl, rfl, rfl, rfl, (State.idles_detach _ id).pending⟩
  have hunheld (u : State) : u.Sheds (u.unhold (.node id)) := by
    have hless : u.Sheds { u with held := u.held.erase (.node id) } :=
      ⟨rfl, rfl, rfl, rfl, rfl, rfl, fun h => h⟩
    exact hless.trans (.letsGo (State.idles_releaseNode _ id) (State.letsGo_releaseNode _ id))
  rw [State.retired]
  split
  · have hdisposed : gone.Sheds (gone.modifyEffect id ({ · with disposed := true })) :=
      ⟨rfl, rfl, rfl, rfl, rfl, rfl, fun h => h⟩
    exact (hgone.trans hdisposed).trans (hunheld _)
  · exact hgone.trans (hunheld _)

private theorem World.holds_retired (hs : W.holds s) {id : NodeId} (hid : W.base ≤ id.index) :
    W.holds (s.retired id) := by
  have hheld : W.holds (s.hold (.node id)) := W.drifts (.aside rfl) hs
  have hgone : W.holds ((s.hold (.node id)).detach id) := W.drifts (.detach id hid) hheld
  rw [State.retired]
  split
  · exact World.holds_unhold (W.drifts (.effect id hid _) hgone) _
  · exact World.holds_unhold hgone _

/-- Each piece of work lets go of what came with the drawing. -/
theorem Does.sheds {task : Scopes.Task Cleanup} (h : Does task s s') (hnone : task.cleanup? = none)
    (hretire : ∀ id, task = .retire id → W.base ≤ id.index) :
    s.Sheds s' ∧ (W.holds s → W.holds s') := by
  cases task with
  | start id =>
    rw [show s' = _ from h]
    exact ⟨⟨rfl, rfl, rfl, rfl, rfl, Scopes.stack_remove, fun hs => hs⟩, W.drifts (.aside rfl)⟩
  | cleanup c => cases hnone
  | retire id =>
    rw [show s' = _ from h]
    exact ⟨sheds_retired s id, fun hs => World.holds_retired hs (hretire id rfl)⟩
  | finish =>
    rw [show s' = _ from h]
    refine ⟨(State.Sheds.letsGo (State.idles_sweep s) (State.letsGo_sweep s)).trans
      ⟨rfl, rfl, rfl, rfl, rfl, rfl, fun hs => hs⟩, fun hs => ?_⟩
    exact W.drifts (.aside rfl) (World.holds_sweep hs)

theorem Performs.sheds {l : List (Scopes.Task Cleanup)} (h : Performs l s s')
    (hnone : ∀ task ∈ l, task.cleanup? = none)
    (hretire : ∀ id, .retire id ∈ l → W.base ≤ id.index) :
    s.Sheds s' ∧ (W.holds s → W.holds s') := by
  induction h with
  | nil => exact ⟨.refl _, fun hs => hs⟩
  | cons h _ ih =>
    obtain ⟨hfirst, hholds⟩ := h.sheds (hnone _ List.mem_cons_self) fun id hid =>
      hretire id (hid ▸ List.mem_cons_self)
    obtain ⟨hrest, hholds'⟩ := ih (fun task htask => hnone task (List.mem_cons_of_mem _ htask))
      fun id hid => hretire id (List.mem_cons_of_mem _ hid)
    exact ⟨hfirst.trans hrest, fun hs => hholds' (hholds hs)⟩

/-- What is on the agenda of a scope that came with the drawing. -/
theorem World.Stage.agenda (h : W.Stage k n s) (hx : k ≤ x.index) :
    (∀ task ∈ s.scopes.agenda x, task.cleanup? = none) ∧
      ∀ id, .retire id ∈ s.scopes.agenda x → W.base ≤ id.index := by
  have hforest := h.reached.owned.forest
  have hbare {y : ScopeId} (hy : y ∈ s.scopes.postorder x) {sy} (hsy : s.scopes.find? y = some sy) :
      sy.holdings.cleanups = [] ∧ ∀ i ∈ sy.holdings.computations, W.base ≤ i.index := by
    have hlive : s.scopes.find? x ≠ none := by
      intro hgone
      rw [Scopes.postorder_gone hgone] at hy
      cases hy
    exact h.bare y sy (Nat.le_trans hx (hforest.le_of_below ((hforest.mem_postorder hlive).1 hy)))
      hsy
  refine ⟨fun task htask => ?_, fun id hid => ?_⟩
  · cases hc : task.cleanup? with
    | none => rfl
    | some c =>
      have hmem : c ∈ (s.scopes.agenda x).filterMap Scopes.Task.cleanup? :=
        List.mem_filterMap.2 ⟨task, htask, hc⟩
      rw [hforest.cleanups_agenda, List.mem_flatMap] at hmem
      obtain ⟨y, hy, hc⟩ := hmem
      rw [Scopes.cleanupsOf] at hc
      cases hsy : s.scopes.find? y with
      | none => simp [hsy] at hc
      | some sy => simp [hsy, (hbare hy hsy).1] at hc
  · have hmem : id ∈ (s.scopes.agenda x).filterMap Scopes.Task.retired? :=
      List.mem_filterMap.2 ⟨_, hid, rfl⟩
    rw [hforest.retires_agenda, List.mem_flatMap] at hmem
    obtain ⟨y, hy, hi⟩ := hmem
    rw [Scopes.computationsOf] at hi
    cases hsy : s.scopes.find? y with
    | none => simp [hsy] at hi
    | some sy => exact (hbare hy hsy).2 id (by simpa [hsy] using hi)

/-- A scope that came with the drawing ends, and nothing else. -/
theorem gives_disposeDrawn (h : W.Stage k n s) (hx : k ≤ x.index) :
    Gives (fun κ => κ.dispose x) s fun _ s' =>
      Path s s' ∧ W.Stage k n s' ∧ s'.canvas = s.canvas := by
  obtain ⟨hnone, hretire⟩ := h.agenda hx
  have hspare : s.CleanupsSpare x := by
    intro done c left t heq _
    have hc := hnone (.cleanup c) (by rw [heq]; simp)
    cases hc
  obtain ⟨s₁, hperforms⟩ := hspare.performs
  have hfollows := follows_agenda h.reached.owned.forest x s s₁ h.reached (fun _ _ => rfl) hperforms
  obtain ⟨hsheds, hholds⟩ := hperforms.sheds (W := W) hnone hretire
  have hpath := hperforms.path h.reached.typed
  have hquiet : s₁.Quiet := by
    intro hflush
    obtain ⟨hpending, hdeferred⟩ := h.quiet (hfollows.onward.canFlush.symm.trans hflush)
    exact ⟨hsheds.pending hpending, hsheds.deferred.trans hdeferred⟩
  have hstage : W.Stage k n s₁ := {
    reached := h.reached.path hpath
    holds := hholds h.holds
    quiet := hquiet
    running := fun id hid => Nat.lt_of_lt_of_le (h.running id (hsheds.tracking ▸ hid))
      hpath.before.size
    current := fun y hy => Nat.lt_of_lt_of_le (h.current y (hsheds.stack ▸ hy))
      hpath.before.scopes.next
    bare := fun y sy hk hy => by
      by_cases hbelow : s.scopes.Below x y
      · rw [hfollows.gone y hbelow] at hy
        cases hy
      · rw [hfollows.others y hbelow] at hy
        obtain ⟨sp, hsp, rfl⟩ := Option.map_eq_some_iff.1 hy
        exact h.bare y sp hk hsp
    begun := Nat.le_trans h.begun hpath.before.scopes.next
    base := Nat.le_trans h.base hpath.before.size
    fetching := by
      rw [hsheds.starting]
      exact h.fetching
    names := by
      simp only [State.handle?, hsheds.names]
      exact h.names }
  have hends : Yields (fun κ => disposeScope κ x) s () s₁ := by
    obtain ⟨depth, hdepth⟩ := hfollows.run
    obtain ⟨⟨⟩, _, ⟨m, hm⟩, rfl⟩ := gives_settle_quiet hquiet
    refine ⟨max depth m, fun j hj => ?_⟩
    exact (hdepth j (by omega)).trans (hm j (by omega))
  have hanswer : Yields (fun κ => answer κ (.dispose x)) s (.value .null) s₁ :=
    hends.bind (.ret _ s₁)
  exact ⟨(), s₁, hanswer.call.bind (.ret () s₁), hpath, hstage, hsheds.canvas⟩

end

open Walk

variable {W : World} {k : Nat} {d : Drawing} {rest : List Drawing} {w w' : Sheet} {s₀ s s' : State}
  {id : BoundaryId} {b : Boundary} {p : DomId} {m : Markers} {content : Program}
  {us : List Markup.Skeleton} {done ahead tail : List DomId} {P : Sheet → Prop}

namespace World

/-- While a boundary is put, the walk at work has become another one, and templates may draw on. -/
structure Puts (W : World) (k : Nat) (d : Drawing) (rest : List Drawing) (s₀ : State)
    (id : BoundaryId) (w : Sheet) (s : State) : Prop where
  /-- It is reached from there. -/
  path : Path s₀ s
  /-- Templates may draw on. -/
  stage : W.Stage k w.document.nodes.size s
  /-- The boundary has met with no error. -/
  mounts : s₀.canvas.Mounts d rest id w s.canvas

namespace Puts

theorem arrives (h : W.Puts k d rest s₀ id w s) (h' : W.Arrives k d rest s w' s') :
    W.Puts k d rest s₀ id w' s' := ⟨h.path.trans h'.path, h'.stage, h.mounts.comes h'.comes⟩

private theorem idle (h : W.Puts k d rest s₀ id w s) (hidles : s.Idles s')
    (hstage : W.Stage k w.document.nodes.size s') : W.Puts k d rest s₀ id w s' :=
  h.arrives (.idle hidles hstage h.mounts.toShows)

private theorem modifyBoundary (h : W.Puts k d rest s₀ id w s) {f : Boundary → Boundary}
    (hf : ∀ b, b.errors = [] → (f b).errors = []) :
    W.Puts k d rest s₀ id w (s.modifyBoundary id f) where
  path := by
    have hsame : s.Preserves (s.modifyBoundary id f) :=
      State.preserves_aside ⟨rfl, rfl, rfl, rfl, rfl, rfl, rfl, rfl⟩ rfl rfl
    exact h.path.trans hsame.path
  stage := h.stage.aside rfl
  mounts := h.mounts.modifyBoundary hf

/-- A part of the drawing is part of putting the boundary. -/
theorem goes {α : Type} {x : Kernel → Run α} {Q : α → Sheet → Prop}
    (h : W.Puts k d rest s₀ id w s) (hx : Goes W k d rest x w Q) :
    Gives x s fun a s' => ∃ w', Q a w' ∧ W.Puts k d rest s₀ id w' s' :=
  (hx s h.stage h.mounts.toShows).imp fun _ _ ⟨w', hQ, harrives⟩ => ⟨w', hQ, h.arrives harrives⟩

/-- A scope for the boundary is opened. -/
theorem openScope (h : W.Puts k d rest s₀ id w s) (b : Boundary) (catching : Bool) :
    Gives (fun _ => openBoundaryScope id b catching) s fun scope s' =>
      W.Puts k d rest s₀ id w s' ∧ k ≤ scope.index ∧ scope.index < s'.scopes.next := by
  let scope : ScopeId := ⟨s.scopes.next⟩
  let u := s.withScope b.owner
  have hnext : u.scopes.next = s.scopes.next + 1 := Scopes.next_create b.owner
  have hmade : W.Puts k d rest s₀ id w u :=
    h.idle (State.idles_withScope s b.owner) (h.stage.withScope b.owner)
  have hrest {v : State} (hv : W.Puts k d rest s₀ id w v) (hlt : scope.index < v.scopes.next) :
      Gives (fun _ => (do
        modify (·.modifyBoundary id ({ · with scope := some scope }))
        return scope : Run ScopeId)) v fun scope s' =>
          W.Puts k d rest s₀ id w s' ∧ k ≤ scope.index ∧ scope.index < s'.scopes.next :=
    .change (.ret ⟨hv.modifyBoundary fun _ hb => hb, h.stage.begun, hlt⟩)
  have hlt : scope.index < u.scopes.next := hnext ▸ Nat.lt_succ_self _
  let make (s : State) : ScopeId × State :=
    (⟨s.scopes.next⟩, s.withScope b.owner)
  show Gives (fun _ => (modifyGet make : Run ScopeId) >>= fun scope => (do
    if catching && b.fallback.isSome then
      modify (·.modifyScopes (·.setHandler scope (.boundary id)))
    modify (·.modifyBoundary id ({ · with scope := some scope }))
    return scope)) s _
  refine .changeGet ?_
  show Gives (fun _ => (do
    if catching && b.fallback.isSome then
      modify (·.modifyScopes (·.setHandler scope (.boundary id)))
    modify (·.modifyBoundary id ({ · with scope := some scope }))
    return scope : Run ScopeId)) u _
  split
  · refine .change (hrest (hmade.idle (State.idles_setHandler u scope _)
      (hmade.stage.setHandler scope _)) hlt)
  · exact hrest hmade hlt

/-- What was drawn for a boundary ends. -/
theorem dispose (h : W.Puts k d rest s₀ id w s) {scope : ScopeId} (hk : k ≤ scope.index) :
    Gives (fun κ => κ.dispose scope) s fun _ s' => W.Puts k d rest s₀ id w s' :=
  (gives_disposeDrawn h.stage hk).imp fun _ _ ⟨hpath, hstage, hcanvas⟩ =>
    h.arrives (.beside hpath hstage hcanvas h.mounts.toShows)

end Puts

end World

/-! ## Drawing between the ends -/

/-- The cursor of a boundary, with a mark of its own. -/
def Boundary.drawing (b : Boundary) (flag : FlagId) (f : Hydration.Frame) : Drawing :=
  ⟨b.document, b.report, flag, ⟨[f], none⟩⟩

/-- Put between the ends of a fragment, a content turns a walk into one of which something holds:
when all of the content is claimed or created, and when it is drawn anew. -/
def World.Bounds (W : World) (content : Program) (w : Sheet) (p : DomId) (m : Markers)
    (P : Sheet → Prop) : Prop :=
  W.Draws content (w.amid p m) fun w₂ =>
    ((m.mode = .hydrate → w₂.finish.unresolved = false) → P (w₂.finish.beside w)) ∧
    (m.mode = .hydrate → w₂.finish.unresolved = true →
      W.Draws content (w₂.finish.anew w₂.finish.document p m) fun w₃ => P (w₃.finish.beside w))

theorem drawBoundary_eq (κ : Kernel) (b : Boundary) (scope : ScopeId) (mode : Mode) (flag : FlagId)
    (p : Program) : drawBoundary κ b scope mode flag p =
      withScope scope (withSupply b.supply (get >>= fun s =>
        drawing (b.drawing flag (.between (s.document b.document) b.parent b.opening
          b.closing mode))
          (κ.perform p))) := rfl

/-- The content of a boundary is drawn between the ends. -/
theorem gives_drawBoundary {f : Hydration.Frame} {mode : Mode} {scope : ScopeId} {flag : FlagId}
    {inner : Sheet} (hs : W.Stage k inner.document.nodes.size s)
    (hw : s.canvas.Holds (b.drawing flag f) inner) (hb : b.Belongs d p m content)
    (hf : f = .between inner.document p m.opening m.closing mode)
    (hcursor : inner.cursor = ⟨[f], none⟩) (hscope : scope.index < s.scopes.next)
    (hcontent : W.Draws content inner P) :
    Gives (fun κ => drawBoundary κ b scope mode flag b.content) s fun _ s' =>
      ∃ w', P w' ∧ W.Drawn k (b.drawing flag f) s w'.finish s' := by
  simp only [drawBoundary_eq]
  refine gives_drawnWithin hs hscope fun u hu hcanvas => ?_
  refine gives_drawnSupplied hu fun v hv hcanvas' => .look ?_
  have hheld : v.canvas.Holds (b.drawing flag f) inner := (hcanvas'.trans hcanvas).symm ▸ hw
  have hdocument : v.document b.document = inner.document := hheld.document_eq
  rw [hdocument, hb.parent, hb.opening, hb.closing, ← hf, hb.content]
  exact gives_drawing hv hheld hcursor.symm (hcontent k _ _)

namespace World.Puts

/-- A walk with a mark of its own was drawn in the document of the walk, on its account. -/
theorem drawn {f : Hydration.Frame} (h : W.Puts k d rest s₀ id w s) (hb : b.Belongs d p m content)
    (hdrawn : W.Drawn k (b.drawing ⟨s.flags.size⟩ f) { s with flags := s.flags.push false } w' s') :
    W.Puts k d rest s₀ id (w'.beside w) s' where
  path := by
    have hbegun : s.Preserves { s with flags := s.flags.push false } :=
      State.preserves_aside ⟨rfl, rfl, rfl, rfl, rfl, rfl, rfl, rfl⟩ rfl rfl
    exact h.path.trans (hbegun.path.trans hdrawn.path)
  stage := hdrawn.stage
  mounts := h.mounts.drawn hb.document hb.report hdrawn.holds hdrawn.drawings hdrawn.beside

/-- The content of a boundary is drawn between the ends with a mark of its own, which is told. -/
theorem drawMarked (mode : Mode) {scope : ScopeId} (h : W.Puts k d rest s₀ id w s)
    (hb : b.Belongs d p m content) (hscope : scope.index < s.scopes.next)
    (hcontent : W.Draws content ({ w with unresolved := false }.onLevel
      (.between w.document p m.opening m.closing mode)) P) :
    Gives (fun κ => drawMarked κ b scope mode b.content) s fun marked s' => ∃ w₂, P w₂ ∧
      marked = w₂.finish.unresolved ∧ W.Puts k d rest s₀ id (w₂.finish.beside w) s' := by
  let f := Frame.between w.document p m.opening m.closing mode
  let inner : Sheet := { w with unresolved := false }.onLevel f
  let u : State := { s with flags := s.flags.push false }
  have hheld : u.canvas.Holds (b.drawing ⟨s.flags.size⟩ f) inner :=
    h.mounts.toHolds.marked hb.document hb.report _ _
  have hstage : W.Stage k inner.document.nodes.size u := h.stage.aside rfl
  refine .changeGet ?_
  refine (gives_drawBoundary hstage hheld hb rfl rfl hscope hcontent).bind ?_
  rintro _ s' ⟨w₂, hw₂, hdrawn⟩
  have hmarked : s'.flag ⟨s.flags.size⟩ = w₂.finish.unresolved := by
    rw [State.flag, show s'.flags[s.flags.size]? = _ from hdrawn.holds.flag, Option.getD_some]
  exact .look (.ret ⟨w₂, hw₂, hmarked, h.drawn hb hdrawn⟩)

/-- The content of a boundary is drawn between the ends with a mark of its own. -/
theorem drawNew (mode : Mode) {scope : ScopeId} (h : W.Puts k d rest s₀ id w s)
    (hb : b.Belongs d p m content) (hscope : scope.index < s.scopes.next)
    (hcontent : W.Draws content ({ w with unresolved := false }.onLevel
      (.between w.document p m.opening m.closing mode)) P) :
    Gives (fun κ => do drawBoundary κ b scope mode (← newFlag) b.content) s fun _ s' =>
      ∃ w₂, P w₂ ∧ W.Puts k d rest s₀ id (w₂.finish.beside w) s' := by
  obtain ⟨_, s', ⟨depth, hdepth⟩, w₂, hw₂, -, hputs⟩ := h.drawMarked mode hb hscope hcontent
  refine ⟨(), s', ⟨depth, fun j hj => ?_⟩, w₂, hw₂, hputs⟩
  obtain ⟨flag, u, hflag, hrest⟩ := bind_ok_cases (hdepth j hj)
  obtain ⟨⟨⟩, v, hdraw, hlast⟩ := bind_ok_cases hrest
  cases hlast
  exact (run_bind_ok hflag).trans hdraw

/-- What is between the ends goes, and is counted. -/
theorem clearBoundary (h : W.Puts k d rest s₀ id w s) (hb : b.Belongs d p m content) :
    Gives (fun _ => Engine.clearBoundary b) s fun removed s' =>
      removed = (between w.document m.opening m.closing).length ∧
        W.Puts k d rest s₀ id
          (w.modifyDocument (·.removeAll (between w.document m.opening m.closing))) s' := by
  have hdocument : s.document b.document = w.document := by
    rw [hb.document, h.mounts.document_eq]
  have hremoved := h.goes (Goes.modifyDocument (W := W)
    (f := (·.removeAll (between w.document m.opening m.closing)))
    (Nat.le_of_eq (Document.size_removeAll ..).symm))
  obtain ⟨⟨⟩, s', hrun, w', rfl, hputs⟩ := hremoved
  obtain ⟨-, rfl⟩ := hrun.unique (Yields.of_eq fun _ => rfl)
  refine ⟨_, _, .of_eq fun _ => rfl, ?_, ?_⟩
  · rw [hdocument, hb.opening, hb.closing]
  · rw [hdocument, hb.opening, hb.closing, hb.document]
    exact hputs

/-- What was drawn between the ends is thrown away and drawn anew. -/
theorem redrawBoundary {outer : Sheet} {scope : ScopeId}
    (h : W.Puts k d rest s₀ id (w.beside outer) s) (hb : b.Belongs d p m content)
    (hscope : k ≤ scope.index) (hcontent : W.Draws content (w.anew w.document p m) P) :
    Gives (fun κ => Engine.redrawBoundary κ id b scope) s fun _ s' =>
      ∃ w', P w' ∧ W.Puts k d rest s₀ id (w'.finish.beside outer) s' := by
  refine (h.dispose hscope).bind fun _ s₁ h₁ => .change ?_
  refine ((h₁.modifyBoundary fun _ _ => rfl).clearBoundary hb).bind ?_
  rintro _ s₂ ⟨rfl, h₂⟩
  simp only [hb.report]
  refine (h₂.goes (Goes.modifyReport _)).bind ?_
  rintro _ s₃ ⟨_, rfl, h₃⟩
  refine (h₃.openScope b true).bind ?_
  rintro scope' s₄ ⟨h₄, -, hlt⟩
  exact h₄.drawNew .create hb hlt hcontent

/-- Without errors that is all. -/
theorem armBoundary (h : W.Puts k d rest s₀ id w s) :
    Gives (fun κ => Engine.armBoundary κ id) s fun _ s' => W.Puts k d rest s₀ id w s' := by
  obtain ⟨b', hb', herrors⟩ := h.mounts.boundary
  have hnone : ((s.boundary? id).map (·.errors)).getD [] = [] := by
    rw [State.boundary?, show s.boundaries[_]? = _ from hb']
    exact herrors
  refine .changeGet ?_
  simp only [hnone]
  exact .ret (h.modifyBoundary fun _ _ => rfl)

/-- A boundary is put between its ends. -/
theorem mountBoundary (h : W.Puts k d rest s₀ id w s) (hb : b.Belongs d p m content)
    (hcontent : W.Bounds content w p m P) :
    Gives (fun κ => Engine.mountBoundary κ id b m.mode) s fun _ s' =>
      ∃ w', P w' ∧ W.Puts k d rest s₀ id w' s' := by
  simp only [mountBoundary_eq]
  refine (h.openScope b true).bind ?_
  rintro scope s₁ ⟨h₁, hk, hlt⟩
  refine (h₁.drawMarked m.mode hb hlt hcontent).bind ?_
  rintro _ s₂ ⟨w₂, ⟨hheld, hanew⟩, rfl, h₂⟩
  split
  · rename_i hredraw
    refine (h₂.redrawBoundary hb hk (hanew hredraw.1 hredraw.2)).bind ?_
    rintro _ s₃ ⟨w₃, hw₃, h₃⟩
    exact h₃.armBoundary.imp fun _ _ h₄ => ⟨_, hw₃, h₄⟩
  · rename_i hkeep
    have hdone := hheld fun hmode => by simpa [hmode] using hkeep
    exact h₂.armBoundary.imp fun _ _ h₃ => ⟨_, hdone, h₃⟩

end World.Puts

/-- A boundary is made and put between its ends. -/
theorem goes_placeBoundary (hcontent : W.Bounds content w p m P)
    (fallback : Option (Json → Program)) {cursor : Cursor} :
    Goes W k d rest (fun κ => placeBoundary κ { d with cursor } p m content fallback) w
      fun _ w' => P w' := by
  intro s hs hw
  let b : Boundary := {
    document := d.document
    report := d.report
    parent := p
    opening := m.opening
    closing := m.closing
    owner := s.scopes.current?
    supply := s.supply?
    content, fallback }
  let s₁ : State := { s with boundaries := s.boundaries.push b }
  have hmade : s.Preserves s₁ := State.preserves_aside
    ⟨rfl, rfl, rfl, rfl, rfl, rfl, rfl, rfl⟩ rfl rfl
  have hmounts : s.canvas.Mounts d rest ⟨s.boundaries.size⟩ w s₁.canvas := .pushed hw rfl
  have hputs : W.Puts k d rest s ⟨s.boundaries.size⟩ w s₁ := ⟨hmade.path, hs.aside rfl, hmounts⟩
  refine .changeGet (.changeGet ?_)
  refine (hputs.mountBoundary (b := b) ⟨rfl, rfl, rfl, rfl, rfl, rfl⟩ hcontent).imp ?_
  rintro _ s' ⟨w', hw', hdone⟩
  exact ⟨w', hw', hdone.path, hdone.stage, hdone.mounts.toComes⟩

/-- A boundary is put behind its ends. -/
theorem goes_boundary {f : Hydration.Frame} (hmarkers : claimMarkers.run w = .ok (m, w'))
    (hsize : w.document.nodes.size ≤ w'.document.nodes.size)
    (hframe : Walk.frame.run w' = .ok (f, w')) (hcontent : W.Bounds content w' f.parent m P)
    (fallback : Option (Json → Program)) :
    Goes W k d rest (fun κ => boundary κ content fallback) w fun _ u =>
      ∃ v, P v ∧ u = v.setLast m.closing (m.mode = .create) := by
  simp only [boundary_eq]
  refine (Goes.walking hmarkers hsize).bind ?_
  rintro m w₁ ⟨rfl, rfl⟩
  refine (Goes.walking hframe (Nat.le_refl _)).bind ?_
  rintro _ w₁ ⟨rfl, rfl⟩
  refine Goes.currentDrawing.bind ?_
  rintro _ w₁ ⟨rfl, rfl⟩
  refine (goes_placeBoundary hcontent fallback).bind ?_
  rintro _ w₂ hw₂
  have hlast : (modify (·.setLast m.closing (m.mode = .create)) : WalkM (Json → Program) Unit).run
      w₂ = .ok ((), w₂.setLast m.closing (m.mode = .create)) := rfl
  refine (Goes.walking hlast (Nat.le_refl _)).mono ?_
  rintro _ _ ⟨-, rfl⟩
  exact ⟨w₂, hw₂, rfl⟩

/-- Between the ends of a fragment a content bears its skeletons, be it that all of it is claimed or
created, or that it is drawn anew. -/
theorem World.Renders.bounds {u : Sheet} {f f₁ : Hydration.Frame} {fs : List Hydration.Frame}
    {skipped inside used : List DomId} (h : W.Renders content us)
    (hends : u.Ends w f f₁ fs m done skipped inside used ahead tail) :
    W.Bounds content w f₁.parent m fun w' => u.Gains w' f fs done (used ++ ahead) tail
      (.marker .opening :: (us ++ [.marker .closing])) := by
  intro k d rest
  refine (h.draws hends.at_amid k d rest).mono ?_
  rintro _ w₂ ⟨g, new, taken, left, hsplit, hadds⟩
  refine ⟨fun hheld => (hends.adds_held hadds hsplit hheld).gains, fun _ _ k d rest => ?_⟩
  refine (h.draws (hends.at_anew hadds) k d rest).mono ?_
  rintro _ w₃ ⟨g', more, taken', left', hnone, hagain⟩
  obtain ⟨rfl, rfl⟩ := List.append_eq_nil_iff.1 hnone.symm
  exact (hends.adds_redrawn hadds hsplit hagain).gains

/-- A boundary is put, and draws for the first time. -/
theorem goes_boundary_renders {f : Hydration.Frame} {fs : List Hydration.Frame}
    (hcontent : W.Renders content us) (fallback : Option (Json → Program))
    (hat : w.At f fs done ahead tail) :
    Goes W k d rest (fun κ => boundary κ content fallback) w fun _ w' =>
      w.Gains w' f fs done ahead tail (.marker .opening :: (us ++ [.marker .closing])) := by
  obtain ⟨m, w₁, f₁, skipped, inside, used, left, hrun, rfl, hends⟩ := hat.claimMarkers_spec
  have hbounds : W.Bounds content w₁ f₁.parent m fun w' => w.Gains w' f fs done (used ++ left) tail
      (.marker .opening :: (us ++ [.marker .closing])) := hcontent.bounds hends
  refine (goes_boundary hrun hends.advances.moves.redrawn.size
    (frame_run hends.advances.there.frames) hbounds fallback).mono ?_
  rintro _ _ ⟨w₂, ⟨g, new, taken, rest, hsplit, hadds⟩, rfl⟩
  exact ⟨g, new, taken, rest, hsplit, hadds.remark rfl rfl rfl⟩

end Rivulet.Engine
