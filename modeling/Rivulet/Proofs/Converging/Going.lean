import Rivulet.Proofs.Converging.Standing

/-!
# Drawings that come to an end

A part of a drawing turns the walk at work into another one, and ends normally. The rules put such
parts together. The first run of an effect is such a part if what the effect does is one, whatever
the engine does around it.
-/

namespace Rivulet.Engine

open Hydration

variable {α β : Type} {W : World} {k n : Nat} {d : Drawing} {rest : List Drawing} {w w' w'' : Sheet}
  {s s' s'' u : State} {id : NodeId}

/-- The walk at work has made a step. -/
theorem Canvas.Shows.walked {c : Canvas} (h : c.Shows d rest w) (w' : Sheet) :
    c.Comes d rest w' { c with
      documents := c.documents.setIfInBounds d.document.index w'.document
      reports := c.reports.setIfInBounds d.report.index w'.report
      flags := c.flags.setIfInBounds d.flag.index w'.unresolved
      drawings := { d with cursor := w'.cursor } :: rest } := by
  refine ⟨⟨⟨?_, ?_, ?_⟩, rfl⟩, ⟨Array.size_setIfInBounds, fun i hi => ?_, ?_, fun i hi _ => ?_,
    Nat.le_refl _, fun _ _ => rfl⟩⟩
  · exact Array.getElem?_setIfInBounds_self_of_lt (Canvas.lt_of_getElem? h.document)
  · exact Array.getElem?_setIfInBounds_self_of_lt (Canvas.lt_of_getElem? h.report)
  · exact Array.getElem?_setIfInBounds_self_of_lt (Canvas.lt_of_getElem? h.flag)
  · exact Array.getElem?_setIfInBounds_ne (Ne.symm hi)
  · exact Nat.le_of_eq Array.size_setIfInBounds.symm
  · exact Array.getElem?_setIfInBounds_ne (Ne.symm hi)

namespace World

/-- The walk at work has become another one, and templates may draw on. -/
structure Arrives (W : World) (k : Nat) (d : Drawing) (rest : List Drawing) (s : State) (w' : Sheet)
    (s' : State) : Prop where
  /-- It is reached from there. -/
  path : Path s s'
  /-- Templates may draw on. -/
  stage : W.Stage k w'.document.nodes.size s'
  /-- The walk has become another one. -/
  comes : s.canvas.Comes d rest w' s'.canvas

namespace Arrives

/-- The new sheet is shown. -/
theorem shows (h : W.Arrives k d rest s w' s') : s'.canvas.Shows d rest w' := h.comes.toShows

theorem trans (h : W.Arrives k d rest s w' s') (h' : W.Arrives k d rest s' w'' s'') :
    W.Arrives k d rest s w'' s'' :=
  ⟨h.path.trans h'.path, h'.stage, h.comes.trans h'.comes⟩

/-- Something happens beside the walk. -/
theorem beside (hpath : Path s s') (hstage : W.Stage k w.document.nodes.size s')
    (hcanvas : s'.canvas = s.canvas) (hs : s.canvas.Shows d rest w) : W.Arrives k d rest s w s' :=
  ⟨hpath, hstage, hcanvas ▸ hs.comes⟩

/-- Nothing is drawn. -/
theorem idle (hidles : s.Idles s') (hstage : W.Stage k w.document.nodes.size s')
    (hs : s.canvas.Shows d rest w) : W.Arrives k d rest s w s' :=
  beside hidles.path hstage hidles.canvas hs

/-- The engine goes on beside the walk. -/
theorem onward (h : W.Arrives k d rest s w' s') (hidles : s'.Idles s'')
    (hstage : W.Stage k w'.document.nodes.size s'') : W.Arrives k d rest s w' s'' :=
  h.trans (idle hidles hstage h.shows)

/-- What the engine did before does not concern the walk either. -/
theorem behind (h : W.Arrives k d rest u w' s') (hidles : s.Idles u) :
    W.Arrives k d rest s w' s' :=
  ⟨hidles.path.trans h.path, h.stage, hidles.canvas ▸ h.comes⟩

end Arrives

end World

/-- Wherever it starts with a walk, a run turns it into another one of which something holds, and
ends normally. -/
def Goes (W : World) (k : Nat) (d : Drawing) (rest : List Drawing) (x : Kernel → Run α) (w : Sheet)
    (Q : α → Sheet → Prop) : Prop :=
  ∀ s : State, W.Stage k w.document.nodes.size s → s.canvas.Shows d rest w →
    Gives x s fun a s' => ∃ w', Q a w' ∧ W.Arrives k d rest s w' s'

namespace Goes

variable {x : Kernel → Run α} {P P' : α → Sheet → Prop} {Q : β → Sheet → Prop}

/-- What becomes of a sheet may be described more weakly. -/
theorem mono (h : Goes W k d rest x w P) (hP : ∀ a w', P a w' → P' a w') :
    Goes W k d rest x w P' := fun s hs hw =>
  (h s hs hw).imp fun a _ ⟨w', hw', harrives⟩ => ⟨w', hP a w' hw', harrives⟩

/-- A run that only gives a result. -/
theorem ret {a : α} (h : P a w) : Goes W k d rest (fun _ => pure a) w P := fun s hs hw =>
  .ret ⟨w, h, .idle (.refl s) hs hw⟩

/-- Two runs one after the other. -/
theorem bind {y : Kernel → α → Run β} (h : Goes W k d rest x w P)
    (h' : ∀ a w', P a w' → Goes W k d rest (fun κ => y κ a) w' Q) :
    Goes W k d rest (fun κ => x κ >>= y κ) w Q := fun s hs hw =>
  (h s hs hw).bind fun a s' ⟨w', hP, harrives⟩ =>
    (h' a w' hP s' harrives.stage harrives.shows).imp fun _ _ ⟨w'', hQ, harrives'⟩ =>
      ⟨w'', hQ, harrives.trans harrives'⟩

/-- A look at a state in which the sheet is shown. -/
theorem look {f : Kernel → State → Run β} (h : ∀ s : State, W.Stage k w.document.nodes.size s →
    s.canvas.Shows d rest w → Goes W k d rest (fun κ => f κ s) w Q) :
    Goes W k d rest (fun κ => get >>= f κ) w Q := fun s hs hw => .look (h s hs hw s hs hw)

/-- A change that does not concern the walk. -/
theorem step {f : State → State} (h : ∀ s : State, W.Stage k w.document.nodes.size s →
    s.Idles (f s) ∧ W.Stage k w.document.nodes.size (f s)) :
    Goes W k d rest (fun _ => (modify f : Run Unit)) w fun _ w' => w' = w := fun s hs hw =>
  .step ⟨w, rfl, .idle (h s hs).1 (h s hs).2 hw⟩

/-- A change of what is drawn. -/
theorem draw {f : State → State} (hsize : w.document.nodes.size ≤ w'.document.nodes.size)
    (h : ∀ s : State, s.canvas.Shows d rest w → f s = { s with
        documents := (f s).documents
        reports := (f s).reports
        flags := (f s).flags
        drawings := (f s).drawings
        boundaries := (f s).boundaries } ∧ s.canvas.Comes d rest w' (f s).canvas) :
    Goes W k d rest (fun _ => (modify f : Run Unit)) w fun _ u => u = w' := fun s hs hw => by
  obtain ⟨hsame, hcomes⟩ := h s hw
  have hpreserves : s.Preserves (f s) := by
    rw [hsame]
    exact State.preserves_aside ⟨rfl, rfl, rfl, rfl, rfl, rfl, rfl, rfl⟩ rfl rfl
  have hstage : W.Stage k w.document.nodes.size (f s) := hs.aside (by rw [hsame])
  exact .step ⟨w', rfl, hpreserves.path, hstage.mono hsize, hcomes⟩

/-- A step of the walk at work. -/
theorem walking {step : WalkM (Json → Program) α} {a : α} (hrun : step.run w = .ok (a, w'))
    (hsize : w.document.nodes.size ≤ w'.document.nodes.size) :
    Goes W k d rest (fun _ => Engine.walking step) w fun b u => b = a ∧ u = w' := by
  intro s hs hw
  have hreport : s.report d.report = w.report := by
    rw [State.report, show s.reports[_]? = _ from hw.report, Option.getD_some]
  have hflag : s.flag d.flag = w.unresolved := by
    rw [State.flag, show s.flags[_]? = _ from hw.flag, Option.getD_some]
  have hdrawings : s.drawings = { d with cursor := w.cursor } :: rest := hw.drawings
  let s' : State := { s with
    documents := s.documents.setIfInBounds d.document.index w'.document
    reports := s.reports.setIfInBounds d.report.index w'.report
    flags := s.flags.setIfInBounds d.flag.index w'.unresolved
    drawings := { d with cursor := w'.cursor } :: rest }
  have hpreserves : s.Preserves s' :=
    State.preserves_aside ⟨rfl, rfl, rfl, rfl, rfl, rfl, rfl, rfl⟩ rfl rfl
  have hok : Engine.walking step s = .ok a s' := by
    have hget : (get : Run State) s = .ok s s := rfl
    refine (run_bind_ok hget).trans ?_
    rw [hdrawings]
    simp only [hw.toHolds.document_eq, hreport, hflag]
    rw [show step.run _ = _ from hrun]
    rfl
  exact ⟨a, s', .of_eq fun _ => hok, w', ⟨rfl, rfl⟩, hpreserves.path, (hs.aside rfl).mono hsize,
    hw.walked w'⟩

/-- The document of the walk at work changes. -/
theorem modifyDocument {f : Document (Json → Program) → Document (Json → Program)}
    (hsize : w.document.nodes.size ≤ (f w.document).nodes.size) :
    Goes W k d rest (fun _ => (modify (·.modifyDocument d.document f) : Run Unit)) w
      fun _ w' => w' = w.modifyDocument f := by
  refine draw hsize fun s hw => ⟨rfl, hw.withDocument ?_⟩
  show (s.documents.modify d.document.index f)[_]? = some (f w.document)
  rw [Array.getElem?_modify, if_pos rfl, show s.documents[_]? = _ from hw.document, Option.map_some]

/-- The account of the walk at work changes. -/
theorem modifyReport (f : Report → Report) :
    Goes W k d rest (fun _ => (modify (·.modifyReport d.report f) : Run Unit)) w
      fun _ w' => w' = w.modifyReport f :=
  draw (Nat.le_refl _) fun _ hw => ⟨rfl, hw.withReport f⟩

/-- The current drawing is found with its cursor. -/
theorem currentDrawing : Goes W k d rest (fun _ => Engine.currentDrawing) w
    fun e w' => e = { d with cursor := w.cursor } ∧ w' = w := by
  refine look fun s _ hw => ?_
  have hdrawings : s.drawings = { d with cursor := w.cursor } :: rest := hw.drawings
  rw [hdrawings]
  exact ret ⟨rfl, rfl⟩

/-- A name is given to a node of the document that is drawn. -/
theorem bindNode {name : Option String} (hname : ∀ x ∈ name, W.free x) {node : DomId}
    (hnode : node.index < w.document.nodes.size) :
    Goes W k d rest (fun _ => Engine.bindNode name node) w fun _ w' => w' = w := by
  refine currentDrawing.bind ?_
  rintro e _ ⟨-, rfl⟩
  exact step fun s hs => ⟨State.idles_bindName (h := .node e.document node) trivial name,
    hs.bindName hname _ hnode⟩

/-! ## Sections -/

/-- A sheet is drawn on with query data at hand. -/
theorem withSupply {supply : Option Supply} (h : Goes W k d rest x w P) :
    Goes W k d rest (fun κ => Engine.withSupply supply (x κ)) w P := by
  intro s hs hw
  cases supply with
  | none => exact h s hs hw
  | some supply =>
    have hgiven := h { s with supplies := supply :: s.supplies } (hs.aside rfl) hw
    refine .change (.guarding (hgiven.imp ?_))
    rintro a s' ⟨w', hP, harrives⟩
    refine ⟨w', hP, ?_, harrives.stage.leaveSupply, ?_⟩
    · exact (State.path_enterSupply s supply).trans
        (harrives.path.trans (State.path_leaveSupply s'))
    · rw [State.canvas_leaveSupply]
      exact harrives.comes

end Goes

namespace World.Stage

/-- Stripping a scope. -/
theorem strip (h : W.Stage k n s) (x : ScopeId) :
    W.Stage k n { s with scopes := (s.scopes.strip x).2 } :=
  have hidles := State.idles_stripScope s x
  { h with
    reached := h.reached.path hidles.path
    holds := W.drifts (.aside rfl) h.holds
    quiet := hidles.quiet h.quiet
    current := by
      have hsame : (s.scopes.strip x).2.stack = s.scopes.stack ∧
          (s.scopes.strip x).2.next = s.scopes.next := by
        rw [Scopes.strip]
        split
        · exact ⟨rfl, rfl⟩
        · exact ⟨rfl, rfl⟩
      intro y hy
      rw [hsame.1] at hy
      rw [hsame.2]
      exact h.current y hy
    bare := fun y sy hk hy => by
      rw [Scopes.find?_strip] at hy
      split at hy
      · obtain ⟨sp, -, rfl⟩ := Option.map_eq_some_iff.1 hy
        exact ⟨rfl, by simp⟩
      · exact h.bare y sy hk hy
    begun := Nat.le_trans h.begun hidles.path.before.scopes.next }

/-- The scope of a new effect owns nothing. -/
theorem isBare_withReaction (h : W.Stage k n s) (reaction : Reaction) (supply : Option Supply) :
    (s.withReaction reaction supply).IsBare ⟨s.scopes.next⟩ := by
  let u := (s.withScope s.scopes.current?).withNode .effect
    (.effect { reaction, scope := ⟨s.scopes.next⟩, supply })
  have hfind : u.scopes.find? ⟨s.scopes.next⟩ =
      some { parent := s.scopes.parentFor s.scopes.current? } := by
    show (s.scopes.create s.scopes.current?).2.find? _ = _
    rw [Scopes.find?_create, if_pos rfl]
  show (u.adopted ⟨s.kinds.size⟩).IsBare ⟨s.scopes.next⟩
  intro sx hsx
  change (u.adopted ⟨s.kinds.size⟩).scopes.find? ⟨s.scopes.next⟩ = some sx at hsx
  rw [State.adopted] at hsx
  split at hsx
  · rename_i owner howner
    have hstack : u.scopes.stack = s.scopes.stack := by
      show (s.scopes.create s.scopes.current?).2.stack = _
      rw [Scopes.create]
      split <;> rfl
    have hlt : owner.index < s.scopes.next := by
      rw [Scopes.current?, hstack] at howner
      exact h.current owner (List.mem_of_mem_head? howner)
    have hne : (⟨s.scopes.next⟩ : ScopeId) ≠ owner := by
      rintro rfl
      exact Nat.lt_irrefl _ hlt
    change (u.scopes.adopt owner _).find? _ = some sx at hsx
    rw [Scopes.adopt, Scopes.find?_modifyHoldings, if_neg hne, hfind] at hsx
    cases hsx
    rfl
  · rw [hfind] at hsx
    cases hsx
    rfl

end World.Stage

/-- What an effect does is part of the drawing, and so is its run. -/
theorem gives_runDrawing {e : Effect} {P : Sheet → Prop} (hs : W.Stage k w.document.nodes.size s)
    (hw : s.canvas.Shows d rest w) (hbase : W.base ≤ id.index) (hmay : MayRead s.kinds id)
    (hscope : e.scope.index < s.scopes.next)
    (h : Goes W k d rest (fun κ => react κ id e) w fun o w' => (∃ v, o = .value v) ∧ P w') :
    Gives (fun κ => runReaction κ id e) s fun _ s' => ∃ w', P w' ∧ W.Arrives k d rest s w' s' := by
  have hscoped := State.idles_enterScope s e.scope
  have hentered := hscoped.trans (State.idles_enter (s.modifyScopes (·.enter e.scope)) (.effect id))
  have hlt := State.lt_of_mayRead hmay
  have hstage := (hs.enterScope hscope).enter hbase hlt
  have hreact := h _ hstage (hentered.canvas.symm ▸ hw)
  have hrun : Gives (fun κ => withScope e.scope (tracked id (.effect id) (react κ id e))) s
      fun o s' => (∃ v, o = .value v) ∧ ∃ w', P w' ∧ W.Arrives k d rest s w' s' := by
    refine .withScope (.tracked (hreact.imp ?_))
    rintro o u ⟨w', ⟨hvalue, hP⟩, harrives⟩
    have hmay' : MayRead u.kinds id := harrives.path.before.mayRead hmay
    have hended := harrives.onward (State.idles_endRun hmay') (harrives.stage.endRun hbase hmay')
    have hleft := hended.onward (State.idles_leaveScope _ e.scope) (hended.stage.leaveScope e.scope)
    exact ⟨hvalue, w', hP, hleft.behind hentered⟩
  refine hrun.bind ?_
  rintro _ u ⟨⟨v, rfl⟩, w', hP, harrives⟩
  have hcount (e : Effect) : ({ e with runs := e.runs + 1 } : Effect).scope = e.scope ∧
      (e.disposed = true → ({ e with runs := e.runs + 1 } : Effect).disposed = true) :=
    ⟨rfl, fun h => h⟩
  have hdone := harrives.onward (State.idles_modifyEffect u id hcount)
    (harrives.stage.effect hbase hcount)
  exact .change (.ret ⟨w', hP, hdone⟩)

/-- A new effect runs when it is brought up to date. -/
theorem gives_refreshDrawing {e : Effect} {P : Sheet → Prop}
    (hs : W.Stage k w.document.nodes.size s) (hw : s.canvas.Shows d rest w) (hnew : s.Starts id e)
    (hbase : W.base ≤ id.index) (hrest : s.tracking.isRunning id = false)
    (hbare : s.IsBare e.scope) (hscope : e.scope.index < s.scopes.next)
    (h : Goes W k d rest (fun κ => react κ id e) w fun o w' => (∃ v, o = .value v) ∧ P w') :
    Gives (fun κ => refresh κ id) s fun _ s' => ∃ w', P w' ∧ W.Arrives k d rest s w' s' := by
  have hcontains : s.graph.contains id = true := by
    rw [Graph.contains_eq, hnew.node]
    rfl
  have hkind := hs.reached.typed.cells id _ hnew.effect
  have hmay : MayRead s.kinds id := ⟨_, hkind, by simp [Cell.kind]⟩
  let u := (s.hold (.node id)).modifyGraph (·.request id .clean)
  let v : State := { u with scopes := (u.scopes.strip e.scope).2 }
  have hbegun : s.Idles u := (State.idles_hold s (.node id)).trans (State.idles_trust _ id)
  have hstage : W.Stage k w.document.nodes.size u :=
    World.Stage.trust (s := s.hold (.node id)) (hs.aside rfl) hbase
  have hready : s.Idles v := hbegun.trans (State.idles_stripScope u e.scope)
  have hrun : Gives (fun κ => runCell κ id s.cells[id]?) (s.hold (.node id))
      fun _ s' => ∃ w', P w' ∧ W.Arrives k d rest s w' s' := by
    rw [hnew.effect]
    refine .change ?_
    have hcell : u.effect? id = some e := State.effect?_eq_some.2 hnew.effect
    show Gives (fun κ => runEffect κ id) u _
    refine .look ?_
    simp only [hcell, hnew.enabled, Bool.false_eq_true, if_false]
    refine (gives_resetScope (s := u) hbare).bind ?_
    rintro _ _ rfl
    have hscope' : e.scope.index < v.scopes.next :=
      Nat.lt_of_lt_of_le hscope hready.path.before.scopes.next
    refine (gives_runDrawing (hstage.strip e.scope) (hready.canvas.symm ▸ hw) hbase hmay hscope'
      h).imp ?_
    rintro _ s' ⟨w', hP, harrives⟩
    exact ⟨w', hP, harrives.behind hready⟩
  refine .look ?_
  rw [hnew.node]
  refine .look ?_
  simp only [hcontains, hrest, Bool.false_eq_true, if_false, if_true]
  refine .holding (hrun.imp ?_)
  rintro _ s' ⟨w', hP, harrives⟩
  exact ⟨w', hP, harrives.onward (State.idles_unhold s' _) (harrives.stage.unhold _)⟩

/-- A new effect does what it is there for. -/
theorem goes_createEffect {reaction : Reaction} {supply : Option Supply} {P : Sheet → Prop}
    (h : ∀ id e, e.reaction = reaction → e.supply = supply → W.base ≤ id.index →
      Goes W k d rest (fun κ => react κ id e) w fun o w' => (∃ v, o = .value v) ∧ P w') :
    Goes W k d rest (fun κ => createHiddenEffect κ reaction supply) w fun _ w' => P w' := by
  intro s hs hw
  let id : NodeId := ⟨s.kinds.size⟩
  let e : Effect := { reaction, scope := ⟨s.scopes.next⟩, supply }
  let u := (s.withReaction reaction supply).hold (.node id)
  have hmade := State.idles_withReaction s reaction supply
  have hbegun : s.Idles u := hmade.trans (State.idles_hold _ (.node id))
  have hstage : W.Stage k w.document.nodes.size u := (hs.withReaction reaction supply).aside rfl
  have hnew := starts_withReaction s reaction supply
  have hkind : u.kinds[id.index]? = some .effect := kinds_created ..
  obtain ⟨scopes, heq⟩ := adopted_eq ((s.withScope s.scopes.current?).withNode .effect
    (.effect e)) id
  have hrest : u.tracking.isRunning id = false := by
    have hsame := congrArg State.tracking heq
    rw [show u.tracking = s.tracking from hsame, Bool.eq_false_iff]
    exact fun hid => Nat.lt_irrefl _ (hs.running id hid)
  have hscope : e.scope.index < u.scopes.next := hstage.reached.owned.effects
    (State.effect?_eq_some.2 hnew.effect)
  have hbare : u.IsBare e.scope := hs.isBare_withReaction reaction supply
  have hrefresh := gives_refreshDrawing hstage (hbegun.canvas.symm ▸ hw)
    (show u.Starts id e from ⟨hnew.node, hnew.effect, hnew.enabled, hnew.scope⟩) hs.base hrest hbare
    hscope (h id e rfl rfl hs.base)
  have hstart : Gives (fun κ => startEffect κ id none) u fun _ s' =>
      ∃ w', P w' ∧ W.Arrives k d rest u w' s' := by
    refine .bind (.callRefresh hrefresh) ?_
    rintro _ v ⟨w', hP, harrives⟩
    refine (gives_settle_quiet harrives.stage.quiet).bind ?_
    rintro _ v' rfl
    have hnamed : v'.Idles (v'.bindName none (.effect id)) := State.idles_releaseNode v' id
    exact .step ⟨w', hP, harrives.onward hnamed (harrives.stage.releaseNode id)⟩
  have hheld : Gives (fun κ => holding id (startEffect κ id none))
      (s.withReaction reaction supply) fun _ s' => ∃ w', P w' ∧ W.Arrives k d rest s w' s' := by
    refine .holding (hstart.imp ?_)
    rintro _ v ⟨w', hP, harrives⟩
    exact ⟨w', hP,
      (harrives.onward (State.idles_unhold v _) (harrives.stage.unhold _)).behind hbegun⟩
  let make (s : State) : NodeId × State := (⟨s.kinds.size⟩, s.withReaction reaction supply)
  show Gives (fun κ => (modifyGet make : Run NodeId) >>= fun id =>
    holding id (startEffect κ id none)) s _
  exact .changeGet hheld

end Rivulet.Engine
