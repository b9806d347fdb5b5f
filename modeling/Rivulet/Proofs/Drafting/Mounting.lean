import Rivulet.Proofs.Drafting.Following
import Rivulet.Proofs.Drafting.Onward

/-!
# What the account of a mount tells

An application that is mounted draws below a node, over the markup that is there or anew, and maybe
once more when the markup could not be claimed. The account that is shown at the end tells how many
nodes the arena has gained by all that, and, unless something was drawn anew, how many different
nodes of the markup are used again.
-/

namespace Rivulet.Engine

open Hydration

section

variable {α : Type} {R : State → State → Prop} [Bearing R] {k n : Nat} {s : State}
  {q : α → Canvas → Prop} {rules : Rules} {app : Program} {document : DocumentId}
  {d : Document (Json → Program)} {target : DomId}

/-- Query data for which no one newly waits. -/
theorem State.idles_clients {clients : Std.HashMap ClientId Client}
    (h : ∀ (j : ClientId) (c' : Client), clients[j]? = some c' → ∀ id ∈ c'.waiting,
      ∃ c, s.clients[j]? = some c ∧ id ∈ c.waiting) : s.Idles { s with clients } :=
  .of_same (.single (.inl (.clients clients fun j c' hc' id hid => .inl (h j c' hc' id hid))))
    rfl rfl rfl rfl rfl rfl

/-- New query data. -/
theorem brings_newClient (payload : Query.Payload) :
    Brings R k (newClient payload) s fun _ s' => s.Idles s' := by
  have hnew : s.Idles { s with clients := s.clients.insert ⟨s.nextClient⟩ { payload } } := by
    refine State.idles_clients fun j c' hc' id hid => ?_
    rw [Std.HashMap.getElem?_insert] at hc'
    split at hc'
    · obtain rfl := Option.some.inj hc'
      simp [Client.waiting] at hid
    · exact ⟨c', hc', hid⟩
  have hall : s.Idles { s with
      nextClient := s.nextClient + 1
      clients := s.clients.insert ⟨s.nextClient⟩ { payload } } :=
    hnew.trans (State.idles_aside ⟨rfl, rfl, rfl, rfl, rfl, rfl, rfl, rfl⟩ rfl rfl rfl)
  exact .stepGet (fun _ => Bearing.idles hall) fun _ => hall

/-- Forgetting what is pending. -/
theorem brings_clearPending (client : ClientId) :
    Brings R k (clearPending client) s fun _ s' => s.Idles s' := by
  refine Brings.bind (P := fun _ s' => s' = s) (.look fun _ => .ite (fun _ => .raise _)
    fun _ => .ret rfl) ?_
  rintro _ _ - - rfl
  have hclear (s : State) : s.Idles (s.modifyClient client ({ · with pending := [] })) := by
    refine State.idles_clients fun j c' hc' id hid => ?_
    rw [Std.HashMap.getElem?_modify] at hc'
    split at hc'
    · obtain ⟨c, -, rfl⟩ := Option.map_eq_some_iff.1 hc'
      simp [Client.waiting] at hid
    · exact ⟨c', hc', hid⟩
  have hall (s : State) := (hclear s).trans (.foldl State.idles_dropNode
    (((s.clients[client]?).map (·.waiting)).getD []) _)
  exact .stepGet (fun _ => Bearing.idles (hall _)) fun _ => hall _

private theorem brings_holdingClient {client : ClientId} {x : Run α}
    (h : ∀ u, s.Idles u → Brings R k x u fun a s' => q a s'.canvas) :
    Brings R k (holdingClient client x) s fun a s' => q a s'.canvas := by
  have hheld := State.idles_hold s (.client client)
  refine .change (fun _ => Bearing.idles hheld) fun _ => ?_
  exact (h _ hheld).guarding (fun s' => Bearing.idles (State.idles_unhold s' _)) fun _ s' _ ha =>
    (State.idles_unhold s' _).canvas ▸ ha

/-- There is a walk over a document with an account that was not there before. -/
structure Canvas.Opens (c : Canvas) (place : DocumentId) (e : Drawing) (w : Sheet) (c' : Canvas) :
    Prop extends c'.Holds e w where
  /-- It is a walk over the document. -/
  place : e.document = place
  /-- The same is drawn otherwise. -/
  drawings : c'.drawings = c.drawings
  /-- The account is new. -/
  fresh : c.reports.size ≤ e.report.index
  /-- The accounts that were there are the same. -/
  reports : ∀ i < c.reports.size, c'.reports[i]? = c.reports[i]?

/-- A new drawing starts at a node of a document. -/
theorem brings_newDrawing (hd : s.documents[document.index]? = some d) (mode : Mode) :
    Brings State.Preserves k (newDrawing document target mode) s fun e s' =>
      s.canvas.Opens document e (Walk.start d target mode) s'.canvas ∧
        e.cursor = (Walk.start d target mode).cursor := by
  refine Brings.bind (P := fun r u => r = ⟨s.reports.size⟩ ∧
    u = { s with reports := s.reports.push {} }) (.stepGet (fun _ => State.preserves_aside
      ⟨rfl, rfl, rfl, rfl, rfl, rfl, rfl, rfl⟩ rfl rfl) fun _ => ⟨rfl, rfl⟩) ?_
  rintro _ _ - - ⟨rfl, rfl⟩
  refine Brings.bind (P := fun f u => f = ⟨s.flags.size⟩ ∧
    u = { s with reports := s.reports.push {}, flags := s.flags.push false })
      (.stepGet (fun _ => State.preserves_aside ⟨rfl, rfl, rfl, rfl, rfl, rfl, rfl, rfl⟩ rfl rfl)
        fun _ => ⟨rfl, rfl⟩) ?_
  rintro _ _ - - ⟨rfl, rfl⟩
  refine .look fun _ => .ret ⟨⟨⟨hd, ?_, ?_⟩, rfl, rfl, Nat.le_refl _, fun i hi => ?_⟩, ?_⟩
  · show (s.reports.push {})[s.reports.size]? = _
    rw [Array.getElem?_push, if_pos rfl]
    rfl
  · show (s.flags.push false)[s.flags.size]? = _
    rw [Array.getElem?_push, if_pos rfl]
    rfl
  · have hne : i ≠ s.reports.size := Nat.ne_of_lt hi
    show (s.reports.push {})[i]? = _
    rw [Array.getElem?_push, if_neg hne]
    rfl
  · show (⟨[Frame.open (State.document _ document) target mode], none⟩ : Cursor) = _
    have hdocument : ({ s with
        reports := s.reports.push {}
        flags := s.flags.push false } : State).document document = d := by
      rw [State.document, hd, Option.getD_some]
    rw [hdocument]
    rfl

/-- What is drawn on a new walk. -/
theorem brings_drawNew {c : Canvas} {e : Drawing} {w : Sheet} {x : Run α} {P : α → Sheet → Prop}
    (hs : c.Opens document e w s.canvas) (hclient : s.OnClient) (hcursor : e.cursor = w.cursor)
    (h : ∀ rest, Turns k e rest x w P) : Brings State.Preserves k (drawing e x) s fun a s' =>
      ∃ w', P a w' ∧ c.Opens document e w'.finish s'.canvas := by
  refine (brings_drawing hs.toHolds hclient hcursor (h s.drawings)).imp ?_
  rintro a s' - ⟨w', hP, hholds, hdrawings, hbeside⟩
  refine ⟨w', hP, hholds, hs.place, hdrawings.trans hs.drawings, hs.fresh, fun i hi => ?_⟩
  exact (hbeside.reports i (Nat.ne_of_lt (Nat.lt_of_lt_of_le hi hs.fresh))).trans (hs.reports i hi)

/-- A walk has gone as the draft of a program says, from the start to the end. -/
def Drew (p : Program) (w : Sheet) (ids : List DomId) (w' : Sheet) : Prop :=
  ∃ v u, Draft p w ids (.stop (.value v)) u ∧ w' = u.finish

/-- An application is drawn: its sheet is the one that its template leads to. -/
theorem brings_drawApp (happ : app.Draws rules false 0)
    (hd : s.documents[document.index]? = some d) (hclient : s.OnClient) (mode : Mode) :
    Brings State.Preserves k (drawApp (kernel n) app document target mode) s fun r s' =>
      k ≤ r.1.index ∧ ∃ ids w, Drew app (Walk.start d target mode) ids w ∧
        s.canvas.Opens document r.2 w s'.canvas := by
  refine Brings.bind (P := fun scope u => k ≤ scope.index ∧ u = s.withScope none) (.stepGet
    (fun _ => (State.idles_withScope s none).toPreserves) fun hs => ⟨hs.begun, rfl⟩) ?_
  rintro scope _ - - ⟨hk, rfl⟩
  refine (brings_newDrawing (s := s.withScope none) hd mode).bind ?_
  rintro e u hpreserves - ⟨hopens, hcursor⟩
  have hclient' : u.OnClient := hpreserves.onClient hclient
  have hbody : Brings State.Preserves k
      (withScope scope (drawing e ((kernel n).perform app))) u fun _ s' =>
        ∃ ids w, Drew app (Walk.start d target mode) ids w ∧
          s.canvas.Opens document e w s'.canvas := by
    refine brings_withScope (q := fun _ c => ∃ ids w, Drew app (Walk.start d target mode) ids w ∧
      s.canvas.Opens document e w c) ?_
    refine (brings_drawNew (s := u.modifyScopes (·.enter scope)) hopens hclient' hcursor fun rest =>
      turns_perform (follows_kernel n) happ).imp ?_
    rintro _ s' - ⟨w, ⟨v, ids, hdraft⟩, hdone⟩
    exact ⟨ids, w.finish, ⟨v, w, hdraft, rfl⟩, hdone⟩
  refine hbody.bind ?_
  rintro _ s' - - hdone
  exact .ret ⟨hk, hdone⟩

/-- Drawing counts what it adds to the arena. -/
theorem Drew.accounts {w w' : Sheet} {ids : List DomId} (h : Drew app w ids w') :
    w.Accounts w' := by
  obtain ⟨v, u, hdraft, rfl⟩ := h
  exact hdraft.accounts.trans (Walk.steps_finish u).accounts

/-- An application claims no node twice and counts each that it claims, unless the content of a
boundary is drawn anew. -/
theorem Drew.sweeps {mode : Mode} {w : Sheet} {ids : List DomId}
    (h : Drew app (Walk.start d target mode) ids w) (hagain : rules.again = false)
    (happ : app.Draws rules false 0) (hd : d.Treelike) (htarget : target.index < d.nodes.size)
    (hfallbacks : w.report.fallbacks = 0) : ids.Nodup ∧ (∀ x ∈ ids, x.index < d.nodes.size) ∧
      w.report.claimed = ids.length := by
  obtain ⟨v, u, hdraft, rfl⟩ := h
  have hnone : u.report.fallbacks = 0 :=
    Nat.le_zero.1 (hfallbacks ▸ (Walk.steps_finish u).accounts.fallbacks)
  obtain ⟨done, ahead, hat, -⟩ :=
    Walk.at_level (w := Walk.start d target mode) rfl hd htarget
  obtain ⟨f, new, used, rest, rfl, hsweeps⟩ :=
    hdraft.sweeps hagain happ hat (by simp [Walk.entered]) hnone
  refine ⟨hsweeps.nodup, fun x hx => (hsweeps.claims x hx).1, ?_⟩
  rw [hsweeps.there.finished.2, hsweeps.count]
  exact Nat.zero_add _

/-! ## Mounting it -/

/-- What an account tells of a walk at the end of which there is another document, unless it was
given up. -/
structure Tallies (app : Program) (w : Sheet) (abandoned : Prop) (report : Report)
    (d : Document (Json → Program)) : Prop where
  /-- As many nodes were created as have come into the arena. -/
  created : d.nodes.size = w.document.nodes.size + report.created
  /-- As many are used again as were claimed, each of them once. -/
  claimed : ¬abandoned → report.fallbacks = 0 → ∃ ids w', Drew app w ids w' ∧ w'.document = d ∧
    ids.Nodup ∧ (∀ x ∈ ids, x.index < w.document.nodes.size) ∧ report.claimed = ids.length

/-- An account that tells of a walk is found among the others. -/
def Canvas.Shown (c : Canvas) (app : Program) (w : Sheet) (abandoned : Prop) (report : ReportId)
    (document : DocumentId) : Prop :=
  ∃ r d, c.reports[report.index]? = some r ∧ c.documents[document.index]? = some d ∧
    Tallies app w abandoned r d

/-- All below a node is cleared. -/
theorem brings_clearBelow :
    Brings State.Preserves k (clearBelow document target) s
      fun _ s' => s' = s.modifyDocument document (·.clear target) :=
  .stepGet (fun _ => State.preserves_aside ⟨rfl, rfl, rfl, rfl, rfl, rfl, rfl, rfl⟩ rfl rfl)
    fun _ => rfl

/-- A document that was changed is found changed. -/
theorem documents_modifyDocument (hd : s.documents[document.index]? = some d)
    (f : Document (Json → Program) → Document (Json → Program)) :
    (s.modifyDocument document f).documents[document.index]? = some (f d) := by
  show (s.documents.modify document.index f)[document.index]? = _
  rw [Array.getElem?_modify, if_pos rfl, hd, Option.map_some]

/-- An account that was changed is found changed. -/
theorem reports_modifyReport {report : ReportId} {r : Report}
    (hr : s.canvas.reports[report.index]? = some r) (f : Report → Report) :
    (s.modifyReport report f).canvas.reports[report.index]? = some (f r) := by
  show (s.reports.modify report.index f)[report.index]? = _
  rw [Array.getElem?_modify, if_pos rfl, show s.reports[report.index]? = _ from hr,
    Option.map_some]

/-- How it ends that markup is claimed: with a walk over it, or, if that is left unresolved, with
one more below the emptied node. -/
inductive Claiming.Ends (app : Program) (d : Document (Json → Program)) (target : DomId) :
    Phase → Report → Document (Json → Program) → Prop where
  /-- The walk has come to an end. -/
  | held {ids : List DomId} {w : Sheet} (drew : Drew app (Walk.start d target .hydrate) ids w)
      (held : w.unresolved = false) :
      Ends app d target (if w.report.agrees then .claimed else .partiallyClaimed)
        w.report w.document
  /-- It was given up. -/
  | anew {ids ids' : List DomId} {w w' : Sheet} {d₁ : Document (Json → Program)} (removed : Nat)
      (drew : Drew app (Walk.start d target .hydrate) ids w) (failed : w.unresolved = true)
      (same : w.document.SameNodes d₁)
      (again : Drew app (Walk.start (d₁.clear target) target .create) ids' w') :
      Ends app d target .aborted ((w.report.addDiscarded removed).addCreated w'.report.created)
        w'.document

/-- What is drawn over the markup that is there, or anew if that fails. -/
theorem claimApp_ends (happ : app.Draws rules false 0)
    (hd : s.documents[document.index]? = some d) (hclient : s.OnClient) (client : ClientId) :
    Brings State.Preserves k (claimApp (kernel n) app document target client) s fun c s' =>
      ∃ r d', s'.canvas.reports[c.report.index]? = some r ∧
        s'.canvas.documents[document.index]? = some d' ∧
            Claiming.Ends app d target c.phase r d' := by
  refine (brings_drawApp happ hd hclient .hydrate).bind ?_
  rintro ⟨scope, e⟩ u hdrawn - ⟨hk, ids, w, hdrew, hopens⟩
  have hreport := hopens.report
  have hdocument := hopens.document
  have hflag : u.flag e.flag = w.unresolved := by
    rw [State.flag, show u.flags[e.flag.index]? = _ from hopens.flag, Option.getD_some]
  rw [hopens.place] at hdocument
  refine .look fun _ => .ite (fun hfailed => ?_) fun hheld => .ret ⟨w.report, w.document, hreport,
    hdocument, ?_⟩
  · refine Brings.bind ((fades_kernel n (.inl hk)).mono State.Fades.toPreserves
      fun _ u' hfades _ => hfades) ?_
    rintro _ u₁ hdisposed - hfades
    obtain ⟨d₁, hd₁, hsame⟩ := hfades.documents hdocument
    obtain ⟨documents, hcanvas⟩ := hfades.canvas
    refine (brings_clearPending client).bind ?_
    rintro _ u₂ - - hidles
    have hclient₂ : u₂.OnClient :=
      hidles.toPreserves.onClient ((hdrawn.trans hdisposed).onClient hclient)
    have hd₂ : u₂.documents[document.index]? = some d₁ :=
      (congrArg (·.documents[document.index]?) hidles.canvas).trans hd₁
    refine brings_clearBelow.bind ?_
    rintro removed _ - - rfl
    refine (brings_drawApp happ (documents_modifyDocument hd₂ _) hclient₂ .create).bind ?_
    rintro ⟨scope', e'⟩ u₃ - - ⟨-, ids', w', hdrew', hopens'⟩
    have hreport' : u₃.canvas.reports[e.report.index]? = some w.report := by
      have hkept : (u₂.modifyDocument document (·.clear target)).canvas.reports =
          u.canvas.reports := by
        show u₂.canvas.reports = _
        rw [hidles.canvas, hcanvas]
      rw [hopens'.reports _ (hkept ▸ Canvas.lt_of_getElem? hreport), hkept, hreport]
    have hanew : u₃.report e'.report = w'.report := by
      rw [State.report, show u₃.reports[e'.report.index]? = _ from hopens'.report, Option.getD_some]
    refine .change (fun _ => State.preserves_aside ⟨rfl, rfl, rfl, rfl, rfl, rfl, rfl, rfl⟩ rfl rfl)
      fun _ => .ret ⟨_, w'.document, reports_modifyReport hreport' _, ?_, ?_⟩
    · rw [← hopens'.place]
      exact hopens'.document
    · rw [hanew]
      exact .anew removed hdrew (hflag ▸ hfailed) hsame hdrew'
  · have hfound : u.report e.report = w.report := by
      rw [State.report, show u.reports[e.report.index]? = _ from hreport, Option.getD_some]
    rw [hfound]
    exact .held hdrew (by simpa [hflag] using hheld)

variable (hagain : rules.again = false) (happ : app.Draws rules false 0)
  (hd : s.documents[document.index]? = some d) (hclient : s.OnClient) (htree : d.Treelike)
  (htarget : target.index < d.nodes.size)

include hagain happ htree htarget in
/-- However it ends, the account tallies. -/
theorem Claiming.Ends.tallies {phase : Phase} {r : Report} {d' : Document (Json → Program)}
    (h : Claiming.Ends app d target phase r d') :
    Tallies app (Walk.start d target .hydrate) (phase = .aborted) r d' := by
  cases h with
  | held hdrew _ =>
    exact ⟨hdrew.accounts.created, fun _ hnone =>
      ⟨_, _, hdrew, rfl, hdrew.sweeps hagain happ htree htarget hnone⟩⟩
  | @anew ids ids' w w' d₁ removed hdrew _ hsame hdrew' =>
    refine ⟨?_, fun h => absurd rfl h⟩
    have hsize : (d₁.clear target).nodes.size = w.document.nodes.size := by
      rw [Document.clear, Document.size_removeAll, hsame.size]
    have hfirst : w.document.nodes.size + 0 = d.nodes.size + w.report.created :=
      hdrew.accounts.created
    have hsecond : w'.document.nodes.size + 0 = (d₁.clear target).nodes.size + w'.report.created :=
      hdrew'.accounts.created
    show w'.document.nodes.size = d.nodes.size + (w.report.created + w'.report.created)
    omega

include hagain happ hd hclient htree htarget

private theorem brings_claimApp (client : ClientId) :
    Brings State.Preserves k (claimApp (kernel n) app document target client) s fun c s' =>
      s'.canvas.Shown app (Walk.start d target .hydrate) (c.phase = .aborted) c.report document :=
  (claimApp_ends happ hd hclient client).imp fun _ _ _ ⟨r, d', hr, hd', hends⟩ =>
    ⟨r, d', hr, hd', hends.tallies hagain happ htree htarget⟩

/-- What is drawn in place of the markup that is there. -/
theorem brings_replaceApp :
    Brings State.Preserves k (replaceApp (kernel n) app document target) s fun r s' =>
      s'.canvas.Shown app (Walk.start (d.clear target) target .create) False r.2 document := by
  refine brings_clearBelow.bind ?_
  rintro removed _ - - rfl
  refine (brings_drawApp happ (documents_modifyDocument hd _) hclient .create).bind ?_
  rintro ⟨scope, e⟩ u - - ⟨-, ids, w, hdrew, hopens⟩
  have hclear := (htree.clear target).1
  refine .change (fun _ => State.preserves_aside ⟨rfl, rfl, rfl, rfl, rfl, rfl, rfl, rfl⟩ rfl rfl)
    fun _ => .ret ⟨_, w.document, reports_modifyReport hopens.report _, ?_, ⟨?_, fun _ hnone => ?_⟩⟩
  · rw [← hopens.place]
    exact hopens.document
  · exact hdrew.accounts.created
  · exact ⟨ids, w, hdrew, rfl, hdrew.sweeps hagain happ hclear.treelike
      (Nat.lt_of_lt_of_le htarget hclear.size) hnone⟩

/-- What a mounted application is, and what its account tells. -/
structure Mount.Tells (m : Mount) (app : Program) (document : DocumentId)
    (target : DomId) (w : Sheet)
    (c : Canvas) : Prop where
  /-- It is in the document. -/
  place : m.document = document
  /-- It is below the node. -/
  target : m.target = target
  /-- Its account tells of the walk. -/
  shown : c.Shown app w (.aborted ∈ m.phases) m.report document

/-- The walk that a mount starts with. -/
def mountStart (d : Document (Json → Program)) (target : DomId) : MountMode → Sheet
  | .tolerant => Walk.start d target .hydrate
  | .replace => Walk.start (d.clear target) target .create

omit [Bearing R] hagain happ hd hclient htree htarget in
/-- Draws an application in one of two modes. -/
def placeApp (κ : Kernel) (app : Program) (document : DocumentId) (target : DomId)
    (client : ClientId) : MountMode → Run Mount
  | .tolerant => do
    let c ← claimApp κ app document target client
    pure { document, target, scope := c.scope, client, report := c.report,
           phases := [.idle, .claiming, c.phase, .interactive] }
  | .replace => do
    let (scope, report) ← replaceApp κ app document target
    pure { document, target, scope, client, report, phases := [.idle, .interactive] }

/-- An application is placed, and the mount tells how. -/
theorem brings_placeApp (client : ClientId) (mode : MountMode) :
    Brings State.Preserves k (placeApp (kernel n) app document target client mode) s fun m s' =>
      m.Tells app document target (mountStart d target mode) s'.canvas := by
  cases mode with
  | tolerant =>
    refine (brings_claimApp hagain happ hd hclient htree htarget client).bind ?_
    rintro c s' - - hshown
    refine .ret ⟨rfl, rfl, ?_⟩
    have hphases : (Phase.aborted ∈ [Phase.idle, .claiming, c.phase, .interactive]) =
        (c.phase = .aborted) := by
      simp [eq_comm]
    show s'.canvas.Shown app _ (Phase.aborted ∈ [Phase.idle, .claiming, c.phase, .interactive])
      c.report document
    rw [hphases]
    exact hshown
  | replace =>
    refine (brings_replaceApp hagain happ hd hclient htree htarget).bind ?_
    rintro ⟨scope, report⟩ s' - - hshown
    refine .ret ⟨rfl, rfl, ?_⟩
    show s'.canvas.Shown app _ (Phase.aborted ∈ [Phase.idle, .interactive]) report document
    rw [show (Phase.aborted ∈ [Phase.idle, .interactive]) = False by simp]
    exact hshown

omit hagain happ hclient htree htarget in
/-- A mount makes an application and shows it; what holds of the application behind its making holds
of it then. -/
theorem brings_mountOf {P : Mount → Canvas → Prop} {mode : Option MountMode}
    (hplace : ∀ client (s₁ : State), s₁.documents[document.index]? = some d → s₁.OnClient →
      Brings State.Preserves k (placeApp (kernel n) app document target client
        (mode.getD (automaticMode s document target))) s₁ fun m s' => P m s'.canvas)
    (name : Option String) (payload : Query.Payload) :
    Brings State.Preserves k (mount (kernel n) name document target mode payload app) s fun v s' =>
      ∃ (m : Mount) (u : State), v = u.mountValue m ∧ u.canvas = s'.canvas ∧ P m s'.canvas := by
  refine .look fun _ => Brings.bind (brings_newClient payload) ?_
  rintro client s₁ - - hnew
  refine brings_holdingClient (q := fun v c => ∃ (m : Mount) (u : State), v = u.mountValue m ∧
    u.canvas = c ∧ P m c) fun s₂ hheld => ?_
  refine Brings.bind (P := fun (m : Mount) s₃ => P m s₃.canvas)
    (brings_withSupply (q := fun (m : Mount) c => P m c) fun s₃ hsupply hcanvas => ?_) ?_
  · have hd₃ : s₃.documents[document.index]? = some d := by
      rw [← hd, show s₃.documents = s.documents from congrArg Canvas.documents
        (hcanvas.trans (hnew.trans hheld).canvas)]
    have hclient₃ : s₃.OnClient := fun pass hpass => by cases hsupply.symm.trans hpass
    exact hplace client s₃ hd₃ hclient₃
  · rintro m s₃ - - hmade
    have hnamed := State.idles_bindName (s := s₃) (h := .mount m) trivial name
    refine .change (fun _ => hnamed.toPreserves) fun _ => .look fun _ => .ret ?_
    exact ⟨m, _, rfl, rfl, hnamed.canvas.symm ▸ hmade⟩

omit hclient in
/-- A mount has made an application that shows. -/
theorem brings_mount (name : Option String) (mode : Option MountMode) (payload : Query.Payload) :
    Brings State.Preserves k (mount (kernel n) name document target mode payload app) s fun v s' =>
      ∃ (m : Mount) (u : State), v = u.mountValue m ∧ u.canvas = s'.canvas ∧ m.Tells app document
        target (mountStart d target (mode.getD (automaticMode s document target))) s'.canvas :=
  brings_mountOf hd (fun client _ hd' hclient =>
    brings_placeApp hagain happ hd' hclient htree htarget client _) name payload

end

/-- Where nothing waits that could be done at once and computed values only look, templates may be
drawn, in scopes that are still to be created. -/
theorem State.Reached.placid {s : State} (hs : s.Reached) (hquiet : s.Quiet)
    (hcomputed : ∀ (id : NodeId) (p : Program) (old : Option Json),
      s.cells[id]? = some (.computed p old) → p.Quiet) : s.Placid s.scopes.next := by
  refine ⟨hs, ⟨fun h => hcomputed _ _ _ h, fun hk hx => ?_⟩, hquiet, Nat.le_refl _⟩
  exact absurd (hs.owned.forest.created hx) (Nat.not_lt.2 hk)

/-- What a mount shows: the account that it ends with tells as many created nodes as the arena has
gained, and, unless the walk was given up or the content of a boundary was drawn anew, as many
claimed nodes as different nodes of the markup were claimed. -/
theorem mount_tallies {n : Nat} {s s' : State} {name : Option String} {document : DocumentId}
    {target : DomId} {mode : Option MountMode} {payload : Query.Payload} {app : Program} {v : Json}
    {rules : Rules} {d : Document (Json → Program)} (hs : s.Reached) (hquiet : s.Quiet)
    (hcomputed : ∀ (id : NodeId) (p : Program) (old : Option Json),
      s.cells[id]? = some (.computed p old) → p.Quiet)
    (hd : s.documents[document.index]? = some d) (htree : d.Treelike)
    (htarget : target.index < d.nodes.size) (hagain : rules.again = false)
    (happ : app.Draws rules false 0)
    (hrun : mount (kernel n) name document target mode payload app s = .ok v s') :
    ∃ (m : Mount) (u : State), v = u.mountValue m ∧ u.canvas = s'.canvas ∧ m.document = document ∧
      m.target = target ∧
      Tallies app (mountStart d target (mode.getD (automaticMode s document target)))
        (.aborted ∈ m.phases) (s'.report m.report) (s'.document document) := by
  have hplacid : s.Placid s.scopes.next := by
    refine ⟨hs, ⟨fun h => hcomputed _ _ _ h, fun hk hx => ?_⟩, hquiet, Nat.le_refl _⟩
    exact absurd (hs.owned.forest.created hx) (Nat.not_lt.2 hk)
  obtain ⟨m, u, hv, hu, hm, hm', r, d', hr, hd', htallies⟩ :=
    (brings_mount hagain happ hd htree htarget name mode payload hplacid v s' hrun).2
  refine ⟨m, u, hv, hu, hm, hm', ?_⟩
  rw [State.report, State.document, show s'.reports[_]? = _ from hr,
    show s'.documents[_]? = _ from hd', Option.getD_some, Option.getD_some]
  exact htallies

/-- A paragraph that was rendered on the server, alone in a document. -/
def paragraph : Document (Json → Program) :=
  ({} : Document (Json → Program)).plantUnder Document.root
    [.node (.element "p" [(Markup.keyAttribute, "")]) []]

/-- The paragraph in the engine. -/
def engrossed : State := { documents := #[paragraph] }

/-- A template for a paragraph with a text. -/
def greeting : Program :=
  .op (.claim (.element "p") [] none) fun _ => .op .enter fun _ =>
    .op (.staticText "hello" none) fun _ => .op .exit fun _ => .done

/-- Whether a run has ended normally. -/
def ended {α : Type} : EStateM.Result Interrupt State α → Bool
  | .ok _ _ => true
  | .error _ _ => false

/-- The paragraph is claimed, and a text is put inside of it. -/
theorem mount_tallies_paragraph :
    engrossed.Reached ∧ engrossed.Quiet ∧ paragraph.Treelike ∧
      greeting.Draws ⟨false, true⟩ false 0 ∧ ∃ v s',
        mount (kernel 1) none ⟨0⟩ Document.root (some .tolerant) {} greeting engrossed = .ok v s' ∧
        ∃ (m : Mount) (u : State), v = u.mountValue m ∧ u.canvas = s'.canvas ∧
          m.document = ⟨0⟩ ∧ m.target = Document.root ∧
          Tallies greeting (Walk.start paragraph Document.root .hydrate) (.aborted ∈ m.phases)
            (s'.report m.report) (s'.document ⟨0⟩) := by
  have hreached : engrossed.Reached :=
    ⟨∅, Leads.path (Leads.aside (s := {}) (by constructor <;> rfl))⟩
  have hquiet : engrossed.Quiet := fun _ => ⟨rfl, rfl⟩
  have htree : paragraph.Treelike :=
    (Document.plantUnder_grafted Document.Treelike.empty (by decide) _).treelike
  have hdraws : greeting.Draws ⟨false, true⟩ false 0 :=
    .provide rfl (.enter (.provide rfl (.exit (.stop .null))))
  have hended : ended (mount (kernel 1) none ⟨0⟩ Document.root (some .tolerant) {} greeting
      engrossed) = true := by decide +kernel
  cases hrun : mount (kernel 1) none ⟨0⟩ Document.root (some .tolerant) {} greeting engrossed with
  | error e s' => rw [hrun] at hended; cases hended
  | ok v s' =>
    exact ⟨hreached, hquiet, htree, hdraws, v, s', rfl, mount_tallies hreached hquiet
      (fun id p old h => nomatch (Std.HashMap.getElem?_empty (a := id)).symm.trans h) rfl htree
      (by decide) rfl hdraws hrun⟩

end Rivulet.Engine
