import Rivulet.Proofs.Converging.Laying
import Rivulet.Proofs.Drafting.Mounting

/-!
# Mounting over any markup

A template that is mounted over the markup of a document claims what fits and creates the rest, or
it is given up and drawn anew. Either way the mount ends normally, and what stands below the node
afterwards bears the skeletons of the template, just as if it had been drawn below an empty node.
Only what stands below an end of a fragment is not looked at: markup never puts anything there.
-/

namespace Rivulet

open Hydration

/-- A document of nodes that form trees, where what stands below a node bears some skeletons. -/
structure Document.Carries {α : Type} (d : Document α) (target : DomId)
    (us : List Markup.Skeleton) : Prop where
  /-- The nodes form trees. -/
  treelike : d.Treelike
  /-- What stands below the node. -/
  bears : d.Bears (d.children target) us

private theorem Document.Carries.outline {α : Type} {d : Document α} {target : DomId}
    {us : List Markup.Skeleton} (h : d.Carries target us) :
    d.outline false target = Markup.skeletonTrees us := h.bears.outline h.treelike

/-- The end of a walk over all that stands below a node. -/
theorem Hydration.Walk.Gains.finished {α : Type} {d : Document α} {target : DomId} {mode : Mode}
    {w : Walk α} {us : List Markup.Skeleton} (h : (Walk.start d target mode).Gains w
      (.open d target mode) [] [] (d.children target) [] us) :
    (mode = .create → w.finish.unresolved = false) ∧
      (w.finish.unresolved = false → w.finish.document.Carries target us) := by
  obtain ⟨g, new, used, rest, -, hadds⟩ := h
  obtain ⟨-, hcreate, hbears⟩ := hadds.finished
  refine ⟨fun hmode => hcreate hmode, fun hresolved => ?_⟩
  rw [finish_document]
  have hchildren := hadds.there.children
  rw [hadds.same.parent] at hchildren
  refine ⟨hadds.there.treelike, ?_⟩
  rw [show w.document.children target = new ++ rest by simpa [Frame.open] using hchildren]
  exact hbears hresolved

namespace Engine

open Walk

variable {W : World} {k n : Nat} {s s' : State} {app : Program} {us : List Markup.Skeleton}
  {document : DocumentId} {d : Document (Json → Program)} {target : DomId} {mode : Mode} {v : Json}
  {client : ClientId}

/-- Forgetting what is pending for a new application. -/
theorem gives_clearPending (hs : W.Stage k n s) (hclient : W.clients ≤ client.index) :
    Gives (fun _ => clearPending client) s fun _ s' => s.Idles s' ∧ W.Stage k n s' := by
  have hunlocked : s.starting.contains (.client client) = false := by
    rw [Bool.eq_false_iff, Ne, List.contains_iff_mem]
    exact fun hmem => Nat.not_lt.2 hclient (hs.fetching client hmem)
  have hcleared : s.Idles (s.modifyClient client ({ · with pending := [] })) := by
    refine State.idles_clients fun j c' hc' id hid => ?_
    rw [Std.HashMap.getElem?_modify] at hc'
    split at hc'
    · obtain ⟨c, -, rfl⟩ := Option.map_eq_some_iff.1 hc'
      simp [Client.waiting] at hid
    · exact ⟨c', hc', hid⟩
  have hdropped (l : List NodeId) {u : State} (hu : W.Stage k n u) :
      W.Stage k n (l.foldl State.dropNode u) := by
    induction l generalizing u with
    | nil => exact hu
    | cons id l ih => exact ih (hu.dropNode id)
  have hlook : Gives (fun _ => ensureUnlocked (.client client) lockedForChange) s
      fun _ s' => s' = s := by
    refine .look ?_
    rw [hunlocked]
    exact .ret rfl
  refine hlook.bind ?_
  rintro _ _ rfl
  exact .step ⟨hcleared.trans (.foldl State.idles_dropNode _ _),
    hdropped _ (hs.withClients hcleared rfl)⟩

/-- A new drawing starts at a node of a document. -/
theorem gives_newDrawing (hs : W.Stage k n s) (hd : s.documents[document.index]? = some d)
    (mode : Mode) : Gives (fun _ => newDrawing document target mode) s fun e s' =>
      e.document = document ∧ e.cursor = (Walk.start d target mode).cursor ∧
        Path s s' ∧ W.Stage k n s' ∧ s'.canvas.Holds e (Walk.start d target mode) ∧
        s'.scopes = s.scopes := by
  let u : State := { s with reports := s.reports.push {}, flags := s.flags.push false }
  have hmade : s.Preserves u := State.preserves_aside
    ⟨rfl, rfl, rfl, rfl, rfl, rfl, rfl, rfl⟩ rfl rfl
  have hdocument : u.document document = d := by
    rw [State.document, show u.documents[_]? = _ from hd, Option.getD_some]
  refine ⟨_, u, .of_eq fun _ => rfl, rfl, ?_, hmade.path, hs.aside rfl, ⟨hd, ?_, ?_⟩, rfl⟩
  · show (⟨[Frame.open (u.document document) target mode], none⟩ : Cursor) = _
    rw [hdocument]
    rfl
  · show (s.reports.push {})[s.reports.size]? = _
    rw [Array.getElem?_push, if_pos rfl]
    rfl
  · show (s.flags.push false)[s.flags.size]? = _
    rw [Array.getElem?_push, if_pos rfl]
    rfl

private theorem gives_clearBelow (hs : W.Stage k n s) (hd : s.documents[document.index]? = some d)
    (target : DomId) :
    Gives (fun _ => clearBelow document target) s fun _ s' =>
      W.Stage k n s' ∧ s'.documents[document.index]? = some (d.clear target) :=
  ⟨_, _, .of_eq fun _ => rfl, hs.aside rfl, documents_modifyDocument hd _⟩

/-- An application is drawn in a new scope, over what stands below a node. -/
theorem gives_drawApp {P : Sheet → Prop} (hs : W.Stage k d.nodes.size s)
    (hd : s.documents[document.index]? = some d) (mode : Mode)
    (happ : W.Draws app (Walk.start d target mode) P) :
    Gives (fun κ => drawApp κ app document target mode) s fun r s' => k ≤ r.1.index ∧ ∃ w, P w ∧
      W.Stage k w.finish.document.nodes.size s' ∧ s'.canvas.Holds r.2 w.finish ∧
        r.2.document = document := by
  let u := s.withScope none
  have hnext : u.scopes.next = s.scopes.next + 1 := Scopes.next_create none
  refine .changeGet ?_
  refine (gives_newDrawing (hs.withScope none) hd mode).bind ?_
  rintro e s₁ ⟨hplace, hcursor, -, hstage, hholds, hscopes⟩
  have hscope : (⟨s.scopes.next⟩ : ScopeId).index < s₁.scopes.next := by
    rw [hscopes]
    exact hnext ▸ Nat.lt_succ_self _
  refine (gives_drawnWithin (d := e) hstage hscope fun u hu hcanvas =>
    gives_drawing hu (hcanvas.symm ▸ hholds) hcursor (happ k _ _)).bind ?_
  rintro _ s₂ ⟨w, hw, hdrawn⟩
  exact .ret ⟨hs.begun, w, hw, hdrawn.stage, hdrawn.holds, hplace⟩

/-- What becomes of a walk that could be repaired, and what is told of it. -/
structure Claiming.Keeps (c : Claiming) (w : Sheet) (canvas : Canvas) : Prop where
  /-- All could be repaired. -/
  resolved : w.unresolved = false
  /-- The account. -/
  report : canvas.reports[c.report.index]? = some w.report
  /-- The state that was reached. -/
  phase : c.phase = if w.report.agrees then .claimed else .partiallyClaimed

/-- An application is drawn over the markup that is there, or anew when that is not claimed. -/
theorem gives_claimApp {P Q : Sheet → Prop} (hs : W.Stage k d.nodes.size s)
    (hd : s.documents[document.index]? = some d)
    (happ : W.Draws app (Walk.start d target .hydrate) P)
    (hanew : ∀ w, P w → w.finish.unresolved = true →
      W.Draws app (Walk.start (w.finish.document.clear target) target .create) Q)
    (client : ClientId) (hclient : W.clients ≤ client.index) :
    Gives (fun κ => claimApp κ app document target client) s fun c s' =>
      ∃ w, (P w ∧ c.Keeps w.finish s'.canvas ∨ Q w) ∧
        s'.canvas.documents[document.index]? = some w.finish.document := by
  refine (gives_drawApp hs hd .hydrate happ).bind ?_
  rintro ⟨scope, e⟩ s₁ ⟨hk, w, hw, hstage, hholds, hplace⟩
  have hflag : s₁.flag e.flag = w.finish.unresolved := by
    rw [State.flag, show s₁.flags[e.flag.index]? = _ from hholds.flag, Option.getD_some]
  have hdocument : s₁.documents[document.index]? = some w.finish.document :=
    hplace ▸ hholds.document
  refine .look ?_
  cases hunresolved : w.finish.unresolved with
  | false =>
    have hreport : s₁.report e.report = w.finish.report := by
      rw [State.report, show s₁.reports[e.report.index]? = _ from hholds.report, Option.getD_some]
    simp only [hflag, hunresolved, Bool.false_eq_true, if_false]
    exact .ret ⟨w, .inl ⟨hw, hunresolved, hholds.report, by rw [hreport]⟩, hdocument⟩
  | true =>
    simp only [hflag, hunresolved, if_true]
    refine (gives_disposeDrawn hstage hk).bind ?_
    rintro _ s₂ ⟨-, hstage₂, hcanvas⟩
    refine (gives_clearPending hstage₂ hclient).bind ?_
    rintro _ s₃ ⟨hidles, hstage₃⟩
    have hdocument₃ : s₃.documents[document.index]? = some w.finish.document := by
      rw [← hdocument, show s₃.documents = s₁.documents from
        congrArg Canvas.documents (hidles.canvas.trans hcanvas)]
    refine (gives_clearBelow hstage₃ hdocument₃ target).bind ?_
    rintro removed s₄ ⟨hstage₄, hdocument₄⟩
    have hsize : (w.finish.document.clear target).nodes.size = w.finish.document.nodes.size :=
      Document.size_removeAll ..
    refine (gives_drawApp (hsize.symm ▸ hstage₄) hdocument₄ .create
      (hanew w hw hunresolved)).bind ?_
    rintro _ s₅ ⟨-, w', hw', -, hholds', hplace'⟩
    exact .change (.ret ⟨w', .inr hw', hplace' ▸ hholds'.document⟩)

/-- What stands below a node of a document bears some skeletons. -/
def Canvas.Carries (c : Canvas) (document : DocumentId) (target : DomId)
    (us : List Markup.Skeleton) : Prop :=
  ∃ d, c.documents[document.index]? = some d ∧ d.Carries target us

/-- The state in which an application is drawn that is mounted: there is new query data, which is at
hand. -/
def State.mounting (s : State) (payload : Query.Payload) : State :=
  let u : State := { s with
    nextClient := s.nextClient + 1
    clients := s.clients.insert ⟨s.nextClient⟩ { payload } }
  { u.hold (.client ⟨s.nextClient⟩) with supplies := .client ⟨s.nextClient⟩ :: s.supplies }

/-- The start of a mount is a chain of steps. -/
theorem State.path_mounting (s : State) (payload : Query.Payload) :
    Path s (s.mounting payload) := by
  have hclients : s.Idles { s with clients := s.clients.insert ⟨s.nextClient⟩ { payload } } := by
    refine State.idles_clients fun j c' hc' id hid => ?_
    rw [Std.HashMap.getElem?_insert] at hc'
    split at hc'
    · obtain rfl := Option.some.inj hc'
      simp [Client.waiting] at hid
    · exact ⟨c', hc', hid⟩
  exact hclients.path.tail (.inl (.aside ⟨rfl, rfl, rfl, rfl, rfl, rfl, rfl, rfl⟩))

/-- The start of a mount is a stage. -/
theorem World.Opens.mounting (h : W.Opens s) (n : Nat) (payload : Query.Payload) :
    W.Stage s.scopes.next n (s.mounting payload) := by
  have hholds : W.holds (s.mounting payload) := W.drifts (.aside (s := s) rfl) h.holds
  exact { h.stage n with
    reached := h.reached.path (State.path_mounting s payload)
    holds := hholds
    quiet := h.quiet }

/-- What becomes of a mount over the markup that is there. -/
def Claiming.mount (c : Claiming) (document : DocumentId) (target : DomId) (client : ClientId) :
    Mount where
  document
  target
  scope := c.scope
  client
  report := c.report
  phases := [.idle, .claiming, c.phase, .interactive]

/-- The state in which a mounted application is shown. -/
def State.mounted (s : State) (name : Option String) (m : Mount) : State :=
  s.leaveSupply.bindName name (.mount m)

private theorem State.canvas_mounted (s : State) (name : Option String) (m : Mount) (hold : Hold) :
    ((s.mounted name m).unhold hold).canvas = s.canvas := by
  have hnamed := State.idles_bindName (s := s.leaveSupply) (h := .mount m) trivial name
  rw [(State.idles_unhold _ _).canvas, State.mounted, hnamed.canvas,
    State.canvas_leaveSupply]

/-- A mount draws the application, and shows it. -/
theorem mount_ok {κ : Kernel} {c : Claiming} {payload : Query.Payload}
    (h : claimApp κ app document target ⟨s.nextClient⟩ (s.mounting payload) = .ok c s')
    (name : Option String) :
    let m := c.mount document target ⟨s.nextClient⟩
    mount κ name document target (some .tolerant) payload app s =
      .ok ((s'.mounted name m).mountValue m) ((s'.mounted name m).unhold
          (.client ⟨s.nextClient⟩)) := by
  intro m
  have hclaim : (do
      let c ← claimApp κ app document target ⟨s.nextClient⟩
      return c.mount document target ⟨s.nextClient⟩) (s.mounting payload) = .ok m s' :=
    (run_bind_ok h).trans rfl
  have hshow := run_bind_ok (y := fun m => do
    modify (·.bindName name (.mount m))
    return (← get).mountValue m) (guarding_ok hclaim State.leaveSupply)
  exact guarding_ok (hshow.trans rfl) (·.unhold (.client ⟨s.nextClient⟩))

/-- A mount ends as it should if the application is drawn. -/
theorem gives_mount {P : Claiming → Canvas → Prop} (h : Gives (fun κ =>
      claimApp κ app document target ⟨s.nextClient⟩) (s.mounting payload) fun c s' => P c s'.canvas)
    (name : Option String) :
    Gives (fun κ => mount κ name document target (some .tolerant) payload app) s fun v s' =>
      ∃ (c : Claiming) (u : State), P c s'.canvas ∧ u.canvas = s'.canvas ∧
        v = u.mountValue (c.mount document target ⟨s.nextClient⟩) := by
  obtain ⟨c, s', ⟨depth, hdepth⟩, hP⟩ := h
  refine ⟨_, _, ⟨depth, fun n hn => mount_ok (hdepth n hn) name⟩, c, _, ?_,
    (State.idles_unhold _ _).canvas.symm, rfl⟩
  rwa [State.canvas_mounted]

/-! ## What is drawn -/

/-- An application is drawn over any markup, or anew. -/
theorem gives_claimed (hs : W.Stage k d.nodes.size s) (hd : s.documents[document.index]? = some d)
    (htree : d.Treelike) (htarget : target.index < d.nodes.size) (happ : W.Renders app us)
    (client : ClientId) (hclient : W.clients ≤ client.index) :
    Gives (fun κ => claimApp κ app document target client) s fun _ s' =>
      s'.canvas.Carries document target us := by
  have hat : (Walk.start d target .hydrate).At (.open d target .hydrate) [] [] (d.children target)
      [] := at_open rfl htree htarget (by simp)
  refine (gives_claimApp (Q := fun w => w.finish.document.Carries target us) hs hd (happ.draws hat)
    (fun w hgains _ => ?_) client hclient).imp ?_
  · obtain ⟨_, _, _, _, -, hadds⟩ := hgains
    rw [finish_document]
    obtain ⟨hcleared, hnone, -⟩ := hadds.there.treelike.clear target
    have hheld : target.index < (w.document.clear target).nodes.size :=
      Nat.lt_of_lt_of_le htarget (Nat.le_trans hadds.size hcleared.size)
    have hanew : (Walk.start (w.document.clear target) target .create).At
        (.open (w.document.clear target) target .create) [] []
          ((w.document.clear target).children target) [] :=
      at_open rfl hcleared.treelike hheld fun _ => hnone
    exact fun k d rest => (happ.draws hanew k d rest).mono fun _ w' hgains =>
      hgains.finished.2 (hgains.finished.1 rfl)
  · rintro _ s' ⟨w, ⟨hgains, hkeeps⟩ | hcarries, hdocument⟩
    · exact ⟨_, hdocument, hgains.finished.2 hkeeps.resolved⟩
    · exact ⟨_, hdocument, hcarries⟩

/-- A template is drawn on a new walk. -/
theorem gives_walk {P : Sheet → Prop} (hs : W.Opens s) {name : String}
    (hname : s.handle? name = some (.node document target))
    (hd : s.documents[document.index]? = some d) (mode : Mode)
    (happ : ∀ k d' rest, Goes W k d' rest (fun κ => exec κ app) (Walk.start d target mode)
      fun _ w => P w) :
    Gives (fun κ => enclose κ (.walk mode name) app) s fun _ s' =>
      ∃ w, P w ∧ s'.canvas.documents[document.index]? = some w.finish.document := by
  refine .look ?_
  simp only [hname, Option.bind_some, Handle.domNode?]
  refine (gives_newDrawing (hs.stage d.nodes.size) hd mode).bind ?_
  rintro e s₁ ⟨hplace, hcursor, -, hstage, hholds, -⟩
  refine (gives_drawing hstage hholds hcursor (goes_callExec (happ _ _ _))).bind ?_
  rintro o s₂ ⟨w, hw, hdrawn⟩
  exact .look (.ret ⟨w, hw, hplace ▸ hdrawn.holds.document⟩)

/-- A template is drawn where nothing stands. -/
theorem gives_drawn (hs : W.Opens s) {name : String}
    (hname : s.handle? name = some (.node document target))
    (hd : s.documents[document.index]? = some d) (htree : d.Treelike)
    (htarget : target.index < d.nodes.size) (hempty : d.children target = [])
    (happ : W.Renders app us) : Gives (fun κ => enclose κ (.walk .create name) app) s fun _ s' =>
      s'.canvas.Carries document target us := by
  have hat : (Walk.start d target .create).At (.open d target .create) [] []
      (d.children target) [] :=
    at_open rfl htree htarget fun _ => hempty
  refine (gives_walk hs hname hd .create fun k d' rest =>
    (happ k d' rest _ _ _ _ _ hat).mono fun _ _ h => h.2).imp ?_
  rintro _ s' ⟨w, hgains, hdocument⟩
  exact ⟨_, hdocument, hgains.finished.2 (hgains.finished.1 rfl)⟩

/-- The document of a state is the one on its canvas. -/
theorem State.document_of_canvas (h : s.canvas.documents[document.index]? = some d) :
    s.document document = d := by
  rw [State.document, show s.documents[_]? = _ from h, Option.getD_some]

private theorem Canvas.Carries.outline (h : s.canvas.Carries document target us) :
    (s.document document).outline false target = Markup.skeletonTrees us := by
  obtain ⟨d, hd, hcarries⟩ := h
  rw [State.document_of_canvas hd]
  exact hcarries.outline

/-- Mounting over any markup comes to the same as drawing where nothing stands: it returns, its last
phase is the interactive one, and what stands below the node has the outline that the template has
where it is drawn below a node without children. -/
theorem mount_converges (hs : W.Opens s) (happ : app.Lays W us (.stop (.value v)))
    (hd : s.documents[document.index]? = some d) (htree : d.Treelike)
    (htarget : target.index < d.nodes.size) (name : Option String) (payload : Query.Payload)
    {blank : String} {place : DocumentId} {bare : DomId} {d' : Document (Json → Program)}
    (hblank : s.handle? blank = some (.node place bare))
    (hd' : s.documents[place.index]? = some d') (htree' : d'.Treelike)
    (hbare : bare.index < d'.nodes.size) (hempty : d'.children bare = []) :
    ∃ (m : Mount) (u s₁ s₂ : State) (r : Outcome × Option Json),
      Yields (fun κ => mount κ name document target (some .tolerant) payload app) s (u.mountValue m)
        s₁ ∧ m.phases.getLastD .idle = .interactive ∧
      Yields (fun κ => enclose κ (.walk .create blank) app) s r s₂ ∧
      (s₁.document document).outline false target = (s₂.document place).outline false bare ∧
      (s₂.document place).outline false bare = Markup.skeletonTrees us := by
  have hrenders : W.Renders app us := World.Leads.renders (leads_of_lays happ)
  have hclaimed := gives_claimed (hs.mounting d.nodes.size payload) hd htree htarget hrenders
    ⟨s.nextClient⟩ hs.clients
  obtain ⟨_, s₁, hmount, c, u, hshown, -, rfl⟩ :=
    gives_mount (P := fun _ canvas => canvas.Carries document target us) hclaimed name
  obtain ⟨r, s₂, hcreate, hdrawn⟩ := gives_drawn hs hblank hd' htree' hbare hempty hrenders
  exact ⟨c.mount document target ⟨s.nextClient⟩, u, s₁, s₂, r, hmount, rfl, hcreate,
    hshown.outline.trans hdrawn.outline.symm, hdrawn.outline⟩

open Markup World

/-- A paragraph of others, an end of a fragment that has no other end, and a heading. -/
def littered : Document (Json → Program) :=
  ({} : Document (Json → Program)).plantUnder Document.root [.node (.element "p" []) [],
    .node (.marker .opening) [], .node (.element "H1" [(keyAttribute, "")])
      [.node (.text "old") []]]

/-- The document with the litter and an empty one, whose root has a name, and a signal. -/
def counting : State :=
  ((({ documents := #[littered, {}] } : State).withNode .source (.signal (.int 3))).named "n"
    (.signal ⟨0⟩)).named "blank" (.node ⟨1⟩ Document.root)

/-- What the signal holds. -/
def countProgram : Program := .op (.get "n") fun a => .ret (.orNull a)

/-- A heading with an attribute and a text that follow a signal, a region and a boundary. -/
def tallied : Program :=
  .op (.claim (.element "h1") [] (some "head")) fun _ => .op .enter fun _ =>
    .install (.attr "head" "title") (fun _ => countProgram) fun _ =>
    .install (.dynText none) (fun _ => countProgram) fun _ =>
    .install (.region none) (fun _ => .op (.staticText "inside" none) fun _ => .done) fun _ =>
    .op .exit fun _ => .install .boundary (fun _ => .op (.claim (.element "p") [] none) fun _ =>
      .op .enter fun _ => .op .exit fun _ => .done) fun _ => .done

/-- The sample counts three, whenever it is asked. -/
theorem steady_count : (signals counting).Steady countProgram (.int 3) := by
  have hname : counting.handle? "n" = some (.signal ⟨0⟩) := rfl
  have hcell : counting.cells[(⟨0⟩ : NodeId)]? = some (.signal (.int 3)) :=
    Std.HashMap.getElem?_insert_self
  exact .op (answers_get hname hcell) (.ret _)

/-- The sample lays an element with a region in it, and a boundary. -/
theorem lays_tallied : tallied.Lays (signals counting)
    [.element "h1".toList [.wrapper .region []], .marker .opening, .element "p".toList [],
      .marker .closing] (.stop (.value .null)) := by
  have hpart : (Program.op (.claim (.element "p") [] none) fun _ => .op .enter fun _ =>
      .op .exit fun _ => .done).Lays (signals counting) [.element "p".toList []]
        (.stop (.value .null)) := .element (by simp) rfl .here .here
  have hbehind : (Program.install .boundary (fun _ => .op (.claim (.element "p") [] none) fun _ =>
      .op .enter fun _ => .op .exit fun _ => .done) fun _ => .done).Lays (signals counting)
        [.marker .opening, .element "p".toList [], .marker .closing] (.stop (.value .null)) :=
    .boundary rfl hpart .here
  have hhead : (signals counting).free "head" := rfl
  refine .element (by simpa using hhead) rfl (.attr hhead (by decide) steady_count
    (.dynText (by simp) steady_count (.region (by simp) (.staticText (by simp) .here) .here)))
      hbehind

/-- The signals of the sample are known where it is mounted. -/
theorem opens_counting : (signals counting).Opens counting := by
  have hfirst : Leads {} { documents := #[littered, {}] } :=
    Leads.aside (by constructor <;> rfl)
  have hleads : Leads {} counting :=
    .tail (.tail (.tail hfirst (.newSource (.signal (.int 3)) rfl)) (.name "n" (.signal ⟨0⟩) rfl))
      (.name "blank" (.node ⟨1⟩ Document.root) trivial)
  exact opens_signals ⟨∅, Leads.path hleads⟩ (fun _ => ⟨rfl, rfl⟩)
    (fun _ h => nomatch (show false = true from h)) (fun _ h => absurd h List.not_mem_nil)
      (fun _ h => absurd h List.not_mem_nil)

/-- The heading is claimed, and the boundary is put behind it. -/
theorem mount_converges_counting : (signals counting).Opens counting ∧
    tallied.Lays (signals counting) [.element "h1".toList [.wrapper .region []], .marker .opening,
      .element "p".toList [], .marker .closing] (.stop (.value .null)) ∧
    littered.Treelike ∧ counting.handle? "blank" = some (.node ⟨1⟩ Document.root) ∧
    ∃ (m : Mount) (u s₁ s₂ : State) (r : Outcome × Option Json),
      Yields (fun κ => mount κ (some "app") ⟨0⟩ Document.root (some .tolerant) {} tallied) counting
        (u.mountValue m) s₁ ∧ m.phases.getLastD .idle = .interactive ∧
      Yields (fun κ => enclose κ (.walk .create "blank") tallied) counting r s₂ ∧
      (s₁.document ⟨0⟩).outline false Document.root =
        (s₂.document ⟨1⟩).outline false Document.root ∧
      (s₂.document ⟨1⟩).outline false Document.root =
        skeletonTrees [.element "h1".toList [.wrapper .region []], .marker .opening,
          .element "p".toList [], .marker .closing] := by
  have htree : littered.Treelike :=
    (Document.plantUnder_grafted Document.Treelike.empty (by decide) _).treelike
  exact ⟨opens_counting, lays_tallied, htree, rfl,
    mount_converges opens_counting lays_tallied rfl htree (by decide +kernel)
      (some "app") {} rfl rfl
      Document.Treelike.empty (by decide) rfl⟩

/-- A document with a keyed paragraph below an end of a fragment, where no markup puts one. -/
def pinned : Document (Json → Program) :=
  ({} : Document (Json → Program)).plantUnder Document.root
    [.node (.marker .opening) [.node (.element "p" [(keyAttribute, "")]) []],
      .node (.marker .closing) []]

/-- The document and an empty one, whose root has a name. -/
def pinning : State :=
  ({ documents := #[pinned, {}] } : State).named "blank" (.node ⟨1⟩ Document.root)

/-- The ends of a fragment, with trees below the first of them. -/
def fenced (below : List Tree) : List Tree :=
  [.node (.marker .opening) below, .leaf (.marker .closing)]

/-- A boundary without content. -/
def fence : Program := .install .boundary (fun _ => .done) fun _ => .done

/-- The document with an element below a marker can be drawn in. -/
theorem opens_pinning : (signals pinning).Opens pinning := by
  have hfirst : Leads {} { documents := #[pinned, {}] } :=
    Leads.aside (by constructor <;> rfl)
  have hleads : Leads {} pinning := .tail hfirst (.name "blank" (.node ⟨1⟩ Document.root) trivial)
  exact opens_signals ⟨∅, Leads.path hleads⟩ (fun _ => ⟨rfl, rfl⟩)
    (fun _ h => nomatch (show false = true from h)) (fun _ h => absurd h List.not_mem_nil)
      (fun _ h => absurd h List.not_mem_nil)

/-- The boundary without content changes nothing between its ends. -/
theorem goes_fence {W : World} {k : Nat} {d : Drawing} {rest : List Drawing} {w w' : Sheet}
    {m : Markers} {f : Hydration.Frame} (hmarkers : claimMarkers.run w = .ok (m, w'))
    (hsize : w.document.nodes.size ≤ w'.document.nodes.size)
    (hframe : Walk.frame.run w' = .ok (f, w'))
    (hheld : m.mode = .hydrate → (w'.amid f.parent m).finish.unresolved = false) :
    Goes W k d rest (fun κ => exec κ fence) w fun _ u =>
      u = ((w'.amid f.parent m).finish.beside w').setLast m.closing (m.mode = .create) := by
  have hdone {w : Sheet} : W.Draws .done w fun u => u = w := by
    intro k d rest
    refine (goes_callExec (Q := fun _ u => u = w) ?_).bind fun _ _ h => .ret h
    simp only [Program.done, Program.ret, exec]
    exact .ret rfl
  have hbounds : W.Bounds .done w' f.parent m fun u =>
      u = (w'.amid f.parent m).finish.beside w' := by
    intro k d rest
    refine (hdone k d rest).mono ?_
    rintro _ _ rfl
    refine ⟨fun _ => rfl, fun hmode hunresolved => ?_⟩
    rw [hheld hmode] at hunresolved
    cases hunresolved
  simp only [fence, exec, performInstall]
  refine (goes_noAnswer (goes_boundary hmarkers hsize hframe hbounds none)).bind ?_
  rintro _ _ ⟨-, _, rfl, rfl⟩
  simp only [Program.done, Program.ret, exec]
  exact .ret rfl

/-- Over the paragraph the ends of the boundary are claimed. -/
theorem goes_fence_pinned {W : World} {k : Nat} {d : Drawing} {rest : List Drawing} :
    Goes W k d rest (fun κ => exec κ fence) (Walk.start pinned Document.root .hydrate) fun _ w =>
      w.finish.unresolved = false ∧
        w.finish.document.outline true Document.root = fenced [.node (.element "p" []) []] := by
  have hmarkers : claimMarkers.run (Walk.start pinned Document.root .hydrate) =
      .ok (⟨⟨1⟩, ⟨3⟩, .hydrate⟩, { Walk.start pinned Document.root .hydrate with
        report := ({} : Report).addClaimed 2
        cursor := ⟨[{ Frame.open pinned Document.root .hydrate with next := none }], none⟩ }) := rfl
  refine (goes_fence hmarkers (Nat.le_refl _) rfl fun _ => rfl).mono ?_
  rintro _ _ rfl
  exact ⟨rfl, rfl⟩

/-- Where nothing stands they are created. -/
theorem goes_fence_blank {W : World} {k : Nat} {d : Drawing} {rest : List Drawing} :
    Goes W k d rest (fun κ => exec κ fence) (Walk.start {} Document.root .create) fun _ w =>
      w.finish.document.outline true Document.root = fenced [] := by
  obtain ⟨w₁, hmarkers, rfl⟩ : ∃ w₁ : Sheet, claimMarkers.run
    (Walk.start {} Document.root .create) =
      .ok (⟨⟨1⟩, ⟨2⟩, .create⟩, w₁) ∧ w₁ = _ := ⟨_, rfl, rfl⟩
  refine (goes_fence hmarkers (by decide) rfl (by simp)).mono ?_
  rintro _ _ rfl
  rfl

/-- The element below a marker is kept when the fence is mounted. -/
theorem gives_mount_pinned :
    Gives (fun κ => mount κ none ⟨0⟩ Document.root (some .tolerant) {} fence) pinning fun _ s' =>
      (s'.document ⟨0⟩).outline true Document.root = fenced [.node (.element "p" []) []] := by
  have hfirst : (signals pinning).Draws fence (Walk.start pinned Document.root .hydrate) fun w =>
      w.finish.unresolved = false ∧
        w.finish.document.outline true Document.root = fenced [.node (.element "p" []) []] :=
    fun k d rest => (goes_callExec goes_fence_pinned).bind fun _ _ h => .ret h
  have hdocument : (pinning.mounting {}).documents[(⟨0⟩ : DocumentId).index]? = some pinned := rfl
  have hclaimed : Gives (fun κ => claimApp κ fence ⟨0⟩ Document.root ⟨pinning.nextClient⟩)
      (pinning.mounting {}) fun _ s' =>
        (s'.document ⟨0⟩).outline true Document.root = fenced [.node (.element "p" []) []] := by
    refine (gives_claimApp (Q := fun _ => False) (opens_pinning.mounting _ {}) hdocument hfirst
      (fun w hw hunresolved => ?_) ⟨pinning.nextClient⟩ (Nat.le_refl _)).imp ?_
    · rw [hw.1] at hunresolved
      cases hunresolved
    · rintro _ s' ⟨w, ⟨hw, -⟩ | hw, hs'⟩
      · rw [State.document_of_canvas hs']
        exact hw.2
      · cases hw
  have hmount := gives_mount (P := fun _ canvas =>
    ((canvas.documents[0]?).getD default).outline true Document.root =
      fenced [.node (.element "p" []) []]) hclaimed none
  exact hmount.imp fun _ _ ⟨_, _, hshown, _⟩ => hshown

private theorem gives_walk_pinned :
    Gives (fun κ => enclose κ (.walk .create "blank") fence) pinning fun _ s' =>
      (s'.document ⟨1⟩).outline true Document.root = fenced [] := by
  have hname : pinning.handle? "blank" = some (.node ⟨1⟩ Document.root) := rfl
  have hdocument : pinning.documents[(⟨1⟩ : DocumentId).index]? = some {} := rfl
  refine (gives_walk opens_pinning hname hdocument .create fun _ _ _ => goes_fence_blank).imp ?_
  rintro _ s' ⟨w, hw, hs'⟩
  rw [State.document_of_canvas hs']
  exact hw

/-- What stands below an end of a fragment stays there when the end is claimed, and nothing is
created there. -/
theorem mount_keeps_pinned : (signals pinning).Opens pinning ∧ pinned.Treelike ∧
    fence.Lays (signals pinning) [.marker .opening, .marker .closing] (.stop (.value .null)) ∧
    ∃ (v : Json) (r : Outcome × Option Json) (s₁ s₂ : State),
      Yields (fun κ => mount κ none ⟨0⟩ Document.root (some .tolerant) {} fence) pinning v s₁ ∧
      Yields (fun κ => enclose κ (.walk .create "blank") fence) pinning r s₂ ∧
      (s₁.document ⟨0⟩).outline true Document.root = fenced [.node (.element "p" []) []] ∧
      (s₂.document ⟨1⟩).outline true Document.root = fenced [] ∧
      (s₁.document ⟨0⟩).outline true Document.root ≠
        (s₂.document ⟨1⟩).outline true Document.root := by
  obtain ⟨v, s₁, hmount, hpinned⟩ := gives_mount_pinned
  obtain ⟨r, s₂, hwalk, hblank⟩ := gives_walk_pinned
  have htree : pinned.Treelike :=
    (Document.plantUnder_grafted Document.Treelike.empty (by decide) _).treelike
  refine ⟨opens_pinning, htree, .boundary rfl .here .here, v, r, s₁, s₂, hmount, hwalk, hpinned,
    hblank, ?_⟩
  rw [hpinned, hblank]
  exact nofun

end Engine

end Rivulet
