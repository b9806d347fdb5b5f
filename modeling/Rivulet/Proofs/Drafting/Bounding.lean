import Rivulet.Proofs.Drafting.Turning

/-!
# Putting a boundary

The content of a boundary is drawn between its ends with a mark of its own. If the mark says
afterwards that something was not claimed, what was drawn ends, everything between the ends goes,
and the content is drawn anew. Without errors that is all that happens, and the mark of the walk
around stays what it was.
-/

namespace Rivulet.Engine

open Hydration

/-- A kernel by which templates turn walks as their drafts say. -/
def Kernel.Follows (κ : Kernel) : Prop :=
  ∀ {rules : Rules} {ready : Bool} {p : Program}, p.Draws rules ready 0 →
    ∀ {k : Nat} {d : Drawing} {rest : List Drawing} {w : Sheet},
      Turns k d rest (κ.exec p) w fun o w' =>
        ∃ v ids, o = .value v ∧ Draft p w ids (.stop (.value v)) w'

/-- What a template is run for is the drawing. -/
theorem turns_perform {κ : Kernel} (hκ : κ.Follows) {rules : Rules} {ready : Bool} {p : Program}
    (hp : p.Draws rules ready 0) {k : Nat} {d : Drawing} {rest : List Drawing} {w : Sheet} :
    Turns k d rest (κ.perform p) w fun _ w' => ∃ v ids, Draft p w ids (.stop (.value v)) w' := by
  refine (hκ hp).bind ?_
  rintro _ w' ⟨v, ids, rfl, hdraft⟩
  exact .ret ⟨v, ids, hdraft⟩

/-- Behind a call of a template the rest of it follows. -/
def Draft.Starts (p : Program) (w : Sheet) (ids : List DomId) (p' : Program) (w' : Sheet) : Prop :=
  ∀ {ids' q w''}, Draft p' w' ids' q w'' → Draft p w (ids ++ ids') q w''

/-- The walk at work has become another one while a boundary was put that has met with no error. -/
structure Canvas.Mounts (c : Canvas) (d : Drawing) (rest : List Drawing) (id : BoundaryId)
    (w : Sheet) (c' : Canvas) : Prop extends c.Comes d rest w c' where
  /-- The mark of the walk was there. -/
  marked : d.flag.index < c.flags.size
  /-- The boundary is new. -/
  new : c.boundaries.size ≤ id.index
  /-- It has met with no error. -/
  boundary : ∃ b, c'.boundaries[id.index]? = some b ∧ b.errors = []

namespace Canvas.Mounts

variable {c c' c'' : Canvas} {d : Drawing} {rest : List Drawing} {id : BoundaryId} {w w' : Sheet}

/-- A boundary is mounted, and drawing goes on. -/
theorem comes (h : c.Mounts d rest id w c') (h' : c'.Comes d rest w' c'') :
    c.Mounts d rest id w' c'' where
  toComes := h.toComes.trans h'
  marked := h.marked
  new := h.new
  boundary := by
    obtain ⟨b, hb, herrors⟩ := h.boundary
    exact ⟨b, (h'.boundaries _ (lt_of_getElem? hb)).trans hb, herrors⟩

variable {s : State}

/-- A boundary is made, and has met with no error. -/
theorem pushed (h : s.canvas.Shows d rest w) {b : Boundary} (hb : b.errors = []) :
    s.canvas.Mounts d rest ⟨s.boundaries.size⟩ w
      { s with boundaries := s.boundaries.push b }.canvas where
  document := h.document
  report := h.report
  flag := h.flag
  drawings := h.drawings
  size_reports := rfl
  reports _ _ := rfl
  size_flags := Nat.le_refl _
  flags _ _ _ := rfl
  size_boundaries := by
    show s.boundaries.size ≤ (s.boundaries.push b).size
    rw [Array.size_push]
    exact Nat.le_succ _
  boundaries i hi := by
    show (s.boundaries.push b)[i]? = s.boundaries[i]?
    exact (Array.getElem?_push_lt hi).trans (Array.getElem?_eq_getElem hi).symm
  marked := lt_of_getElem? h.flag
  new := Nat.le_refl _
  boundary := by
    refine ⟨b, ?_, hb⟩
    show (s.boundaries.push b)[s.boundaries.size]? = some b
    rw [Array.getElem?_push, if_pos rfl]

/-- The boundary changes, but meets with no error. -/
theorem modifyBoundary (h : c.Mounts d rest id w s.canvas) {f : Boundary → Boundary}
    (hf : ∀ b, b.errors = [] → (f b).errors = []) :
    c.Mounts d rest id w (s.modifyBoundary id f).canvas where
  document := h.document
  report := h.report
  flag := h.flag
  drawings := h.drawings
  size_reports := h.size_reports
  reports := h.reports
  size_flags := h.size_flags
  flags := h.flags
  size_boundaries := by
    show _ ≤ (s.boundaries.modify id.index f).size
    rw [Array.size_modify]
    exact h.size_boundaries
  boundaries i hi := by
    have hne : id.index ≠ i := by
      have := h.new
      omega
    show (s.boundaries.modify id.index f)[i]? = _
    rw [Array.getElem?_modify, if_neg hne]
    exact h.boundaries i hi
  marked := h.marked
  new := h.new
  boundary := by
    obtain ⟨b, hb, herrors⟩ := h.boundary
    refine ⟨f b, ?_, hf b herrors⟩
    show (s.boundaries.modify id.index f)[id.index]? = _
    rw [Array.getElem?_modify, if_pos rfl, show s.boundaries[_]? = _ from hb, Option.map_some]

/-- A walk with a new mark was drawn in the document of the walk at work, on its account. -/
theorem drawn (h : c.Mounts d rest id w s.canvas) {b : Boundary} {cursor : Cursor}
    (hdocument : b.document = d.document) (hreport : b.report = d.report)
    (hheld : c'.Holds ⟨b.document, b.report, ⟨s.flags.size⟩, cursor⟩ w')
    (hdrawings : c'.drawings = s.drawings)
    (hbeside : { s with flags := s.flags.push false }.canvas.Beside b.report ⟨s.flags.size⟩ c') :
    c.Mounts d rest id (w'.beside w) c' := by
  have hsize : (s.flags.push false).size = s.flags.size + 1 := Array.size_push ..
  have hflags (i : Nat) (hi : i < s.flags.size) : c'.flags[i]? = s.flags[i]? := by
    refine (hbeside.flags i (Nat.ne_of_lt hi) (hsize ▸ Nat.lt_succ_of_lt hi)).trans ?_
    show (s.flags.push false)[i]? = _
    rw [Array.getElem?_push, if_neg (Nat.ne_of_lt hi)]
  exact
    { document := hdocument ▸ hheld.document
      report := hreport ▸ hheld.report
      flag := (hflags _ (lt_of_getElem? h.flag)).trans h.flag
      drawings := hdrawings.trans h.drawings
      size_reports := hbeside.size_reports.trans h.size_reports
      reports := fun i hi => (hbeside.reports i (hreport ▸ hi)).trans (h.reports i hi)
      size_flags :=
        Nat.le_trans h.size_flags (Nat.le_trans (hsize ▸ Nat.le_succ _) hbeside.size_flags)
      flags := fun i hi hlt =>
        (hflags i (Nat.lt_of_lt_of_le hlt h.size_flags)).trans (h.flags i hi hlt)
      size_boundaries := Nat.le_trans h.size_boundaries hbeside.size_boundaries
      boundaries := fun i hi =>
        (hbeside.boundaries i (Nat.lt_of_lt_of_le hi h.size_boundaries)).trans (h.boundaries i hi)
      marked := h.marked
      new := h.new
      boundary := by
        obtain ⟨b', hb', herrors⟩ := h.boundary
        exact ⟨b', (hbeside.boundaries _ (lt_of_getElem? hb')).trans hb', herrors⟩ }

end Canvas.Mounts

/-- The walk at work, with a new mark that is not set. -/
theorem Canvas.Holds.marked {s : State} {d : Drawing} {w : Sheet} (h : s.canvas.Holds d w)
    {b : Boundary} (hdocument : b.document = d.document) (hreport : b.report = d.report)
    (cursor : Cursor) (f : Frame) : { s with flags := s.flags.push false }.canvas.Holds
      ⟨b.document, b.report, ⟨s.flags.size⟩, cursor⟩
      ({ w with unresolved := false }.onLevel f) where
  document := by
    rw [hdocument]
    exact h.document
  report := by
    rw [hreport]
    exact h.report
  flag := by
    show (s.flags.push false)[s.flags.size]? = some false
    rw [Array.getElem?_push, if_pos rfl]

/-- While a boundary is put, a run turns a walk into another one of which something holds. -/
def Puts {α : Type} (k : Nat) (c : Canvas) (d : Drawing) (rest : List Drawing) (id : BoundaryId)
    (x : Run α) (w : Sheet) (Q : α → Sheet → Prop) : Prop :=
  ∀ s : State, c.Mounts d rest id w s.canvas → s.OnClient → Brings State.Preserves k x s fun a s' =>
    ∃ w', Q a w' ∧ c.Mounts d rest id w' s'.canvas

namespace Puts

variable {α β : Type} {k : Nat} {c : Canvas} {d : Drawing} {rest : List Drawing} {id : BoundaryId}
  {w w' : Sheet} {x : Run α} {P P' : α → Sheet → Prop} {Q : β → Sheet → Prop}

/-- What becomes of a sheet may be described more weakly. -/
theorem mono (h : Puts k c d rest id x w P) (hP : ∀ a w', P a w' → P' a w') :
    Puts k c d rest id x w P' := fun s hs hclient =>
  (h s hs hclient).imp fun a _ _ ⟨w', hw', hmounts⟩ => ⟨w', hP a w' hw', hmounts⟩

private theorem ret {a : α} (h : P a w) : Puts k c d rest id (pure a) w P := fun _ hs _ =>
  .ret ⟨w, h, hs⟩

/-- Two runs one after the other. -/
theorem bind {f : α → Run β} (h : Puts k c d rest id x w P)
    (hf : ∀ a w', P a w' → Puts k c d rest id (f a) w' Q) :
    Puts k c d rest id (x >>= f) w Q := by
  intro s hs hclient
  refine (h s hs hclient).bind ?_
  rintro a s' hpreserves - ⟨w', hP, hmounts⟩
  exact hf a w' hP s' hmounts (hpreserves.onClient hclient)

/-- A run that mounts no boundary. -/
theorem of_turns (h : Turns k d rest x w P) : Puts k c d rest id x w P := fun s hs hclient =>
  (h s hs.toShows hclient).imp fun _ _ _ ⟨w', hP, hcomes⟩ => ⟨w', hP, hs.comes hcomes⟩

/-- The boundary changes, but meets with no error. -/
theorem modifyBoundary {f : Boundary → Boundary} (hf : ∀ b, b.errors = [] → (f b).errors = []) :
    Puts k c d rest id (modify (·.modifyBoundary id f)) w fun _ w' => w' = w := by
  intro s hs _
  refine (Brings.step fun _ => State.preserves_aside ⟨rfl, rfl, rfl, rfl, rfl, rfl, rfl, rfl⟩
    rfl rfl).imp ?_
  rintro _ _ - rfl
  exact ⟨w, rfl, hs.modifyBoundary hf⟩

/-- A scope for the boundary is opened. -/
theorem openBoundaryScope (b : Boundary) (catching : Bool) :
    Puts k c d rest id (Engine.openBoundaryScope id b catching) w
      fun scope w' => k ≤ scope.index ∧ w' = w := by
  have hscope : Puts k c d rest id (createScope b.owner) w
      fun scope w' => k ≤ scope.index ∧ w' = w := fun s hs _ =>
    .stepGet (fun _ => (State.idles_withScope s b.owner).toPreserves)
      fun hplacid => ⟨w, ⟨hplacid.begun, rfl⟩, hs⟩
  refine hscope.bind ?_
  rintro scope u ⟨hk, rfl⟩
  have hrest : Puts k c d rest id (do
      modify (·.modifyBoundary id ({ · with scope := some scope }))
      return scope) u fun scope w' => k ≤ scope.index ∧ w' = u := by
    refine (modifyBoundary fun _ h => ?_).bind fun _ w' hw' => .ret ⟨hk, hw'⟩
    exact h
  split
  · refine (of_turns (Turns.step fun s => State.idles_setHandler s scope _)).bind ?_
    rintro _ _ rfl
    exact hrest
  · exact hrest

/-- What was drawn for a boundary ends. -/
theorem dispose (n : Nat) {scope : ScopeId} (hk : k ≤ scope.index) :
    Puts k c d rest id ((kernel n).dispose scope) w
      fun _ w' => ∃ document, w.document.SameNodes document ∧ w' = { w with document } := by
  intro s hs _
  refine (fades_kernel n (.inl hk)).mono State.Fades.toPreserves fun _ s' hfades _ => ?_
  obtain ⟨document, hdocument, hsame⟩ := hfades.documents hs.document
  obtain ⟨documents, hcanvas⟩ := hfades.canvas
  have hfound : documents[d.document.index]? = some document := by
    rw [← hdocument, show s'.documents = s'.canvas.documents from rfl, hcanvas]
  refine ⟨{ w with document }, ⟨document, hsame, rfl⟩, ?_⟩
  rw [hcanvas]
  exact hs.comes (hs.toShows.withDocument hfound)

end Puts

/-! ## Drawing with a new mark -/

open Walk in
/-- A look at the level changes nothing. -/
theorem frame_run_eq {w w' : Sheet} {f : Frame} (h : frame.run w = .ok (f, w')) : w' = w := by
  rw [frame, bind_ok (x := get) (b := w) rfl] at h
  split at h
  · cases h
    rfl
  · cases h

/-- Draws between the ends of a boundary with a new mark, and tells the mark. -/
def drawMarked (κ : Kernel) (b : Boundary) (scope : ScopeId) (mode : Mode) (p : Program) :
    Run Bool := do
  let flag ← newFlag
  drawBoundary κ b scope mode flag p
  return (← get).flag flag

/-- Throws away what was drawn between the ends of a boundary, and draws it anew. -/
def redrawBoundary (κ : Kernel) (id : BoundaryId) (b : Boundary) (scope : ScopeId) : Run Unit := do
  κ.dispose scope
  modify (·.modifyBoundary id ({ · with errors := [] }))
  let removed ← clearBoundary b
  modify (·.modifyReport b.report fun r => r.addFallback.addDiscarded removed)
  let scope ← openBoundaryScope id b true
  drawBoundary κ b scope .create (← newFlag) b.content

/-- Ends the first drawing of a boundary: the first error that was collected meanwhile brings the
fallback on. -/
def armBoundary (κ : Kernel) (id : BoundaryId) : Run Unit := do
  let errors ← modifyGet fun s =>
    (((s.boundary? id).map (·.errors)).getD [],
      s.modifyBoundary id ({ · with armed := true, errors := [] }))
  match errors with
  | [] => return
  | error :: _ => showFallback κ id error

/-- A boundary is mounted by drawing its content, and once more if that does not fit. -/
theorem mountBoundary_eq (κ : Kernel) (id : BoundaryId) (b : Boundary) (mode : Mode) :
    mountBoundary κ id b mode = (do
      let scope ← openBoundaryScope id b true
      let marked ← drawMarked κ b scope mode b.content
      if mode = .hydrate ∧ marked then redrawBoundary κ id b scope
      armBoundary κ id) := by
  simp only [mountBoundary, redrawBoundary, drawMarked, bind_assoc, pure_bind]
  rfl

/-- A boundary of a walk, with its ends and its content. -/
structure Boundary.Belongs (b : Boundary) (d : Drawing) (p : DomId) (m : Walk.Markers)
    (content : Program) : Prop where
  /-- It is in the document of the walk. -/
  document : b.document = d.document
  /-- It shares the account of the walk. -/
  report : b.report = d.report
  /-- Its ends stand below a node. -/
  parent : b.parent = p
  /-- It starts there. -/
  opening : b.opening = m.opening
  /-- It ends there. -/
  closing : b.closing = m.closing
  /-- What it shows. -/
  content : b.content = content

/-- A boundary that was put while no query data of a server render was at hand. -/
def Boundary.OnClient (b : Boundary) : Prop := ∀ pass, b.supply ≠ some (.server pass)

open Walk in
/-- The content is drawn between the ends, with a mark that is told. -/
theorem puts_drawMarked {n : Nat} (hκ : (kernel n).Follows) {rules : Rules} {content : Program}
    (hcontent : content.Draws rules false 0) {k : Nat} {c : Canvas} {d : Drawing}
    {rest : List Drawing} {id : BoundaryId} {w : Sheet} {b : Boundary} {p : DomId} {m : Markers}
    (hb : b.Belongs d p m content) (hsupply : b.OnClient) (scope : ScopeId) (mode : Mode) :
    Puts k c d rest id (drawMarked (kernel n) b scope mode b.content) w fun marked w' =>
      ∃ v ids w₂, Draft content ({ w with unresolved := false }.onLevel
        (.between w.document p m.opening m.closing mode)) ids (.stop (.value v)) w₂ ∧
          marked = w₂.finish.unresolved ∧ w' = w₂.finish.beside w := by
  intro s hs hclient
  let flag : FlagId := ⟨s.flags.size⟩
  let u : State := { s with flags := s.flags.push false }
  let d' : Drawing := ⟨b.document, b.report, flag,
    ⟨[.between w.document p m.opening m.closing mode], none⟩⟩
  let w₁ : Sheet := { w with unresolved := false }.onLevel
    (.between w.document p m.opening m.closing mode)
  have hholds : u.canvas.Holds d' w₁ := hs.toHolds.marked hb.document hb.report _ _
  refine Brings.bind (P := fun f u' => f = flag ∧ u' = u) (.stepGet (fun _ =>
    State.preserves_aside ⟨rfl, rfl, rfl, rfl, rfl, rfl, rfl, rfl⟩ rfl rfl) fun _ => ⟨rfl, rfl⟩) ?_
  rintro _ _ - - ⟨rfl, rfl⟩
  have hdraw : Brings State.Preserves k (drawBoundary (kernel n) b scope mode flag b.content) u
      fun _ s' => ∃ w₂, (∃ v ids, Draft content w₁ ids (.stop (.value v)) w₂) ∧
        s'.canvas.Holds d' w₂.finish ∧ s'.drawings = s.drawings ∧
          u.canvas.Beside b.report flag s'.canvas := by
    refine brings_withScope (q := fun _ c' => ∃ w₂, (∃ v ids, Draft content w₁ ids
      (.stop (.value v)) w₂) ∧ c'.Holds d' w₂.finish ∧ c'.drawings = s.drawings ∧
        u.canvas.Beside b.report flag c') ?_
    refine brings_withSupply (q := fun _ c' => ∃ w₂, (∃ v ids, Draft content w₁ ids
      (.stop (.value v)) w₂) ∧ c'.Holds d' w₂.finish ∧ c'.drawings = s.drawings ∧
        u.canvas.Beside b.report flag c') fun u' hgiven hcanvas => .look fun _ => ?_
    have hcanvas : u'.canvas = u.canvas := hcanvas
    have hclient' : u'.OnClient := hclient.or hsupply hgiven
    have hdocument : u'.document b.document = w.document := by
      have hfound : u'.documents[b.document.index]? = some w.document :=
        (congrArg (·.documents[b.document.index]?) hcanvas).trans hholds.document
      rw [State.document, hfound, Option.getD_some]
    have hdrawings : u'.drawings = s.drawings := congrArg Canvas.drawings hcanvas
    have hframe : Frame.between (u'.document b.document) b.parent b.opening b.closing mode =
        .between w.document p m.opening m.closing mode := by
      rw [hdocument, hb.parent, hb.opening, hb.closing]
    have hdone := brings_drawing (d := d') (hcanvas ▸ hholds) hclient' rfl
      (turns_perform (k := k) hκ hcontent)
    rw [hdrawings, hcanvas] at hdone
    show Brings State.Preserves k (drawing ⟨b.document, b.report, flag,
      ⟨[.between (u'.document b.document) b.parent b.opening b.closing mode], none⟩⟩ _) u' _
    rw [hframe, hb.content]
    exact hdone
  refine hdraw.bind ?_
  rintro _ s' - - ⟨w₂, ⟨v, ids, hdraft⟩, hdone, hdrawings, hbeside⟩
  have hmarked : s'.flag flag = w₂.finish.unresolved := by
    rw [State.flag, show s'.flags[flag.index]? = _ from hdone.flag, Option.getD_some]
  have hmounts := hs.drawn hb.document hb.report hdone hdrawings hbeside
  exact .look fun _ => .ret ⟨w₂.finish.beside w, ⟨v, ids, w₂, hdraft, hmarked, rfl⟩, hmounts⟩

open Walk in
/-- The content is drawn between the ends with a mark of its own. -/
theorem puts_drawNew {n : Nat} (hκ : (kernel n).Follows) {rules : Rules} {content : Program}
    (hcontent : content.Draws rules false 0) {k : Nat} {c : Canvas} {d : Drawing}
    {rest : List Drawing} {id : BoundaryId} {w : Sheet} {b : Boundary} {p : DomId} {m : Markers}
    (hb : b.Belongs d p m content) (hsupply : b.OnClient) (scope : ScopeId) (mode : Mode) :
    Puts k c d rest id (do drawBoundary (kernel n) b scope mode (← newFlag) b.content) w fun _ w' =>
      ∃ v ids w₂, Draft content ({ w with unresolved := false }.onLevel
        (.between w.document p m.opening m.closing mode)) ids (.stop (.value v)) w₂ ∧
          w' = w₂.finish.beside w := by
  intro s hs hclient hplacid _ s' hrun
  obtain ⟨flag, s₁, hflag, hdraw⟩ := bind_ok_cases hrun
  have hmarked : drawMarked (kernel n) b scope mode b.content s = .ok (s'.flag flag) s' := by
    rw [drawMarked, run_bind_ok hflag, run_bind_ok hdraw]
    rfl
  obtain ⟨hpreserves, w', ⟨v, ids, w₂, hdraft, -, rfl⟩, hmounts⟩ :=
    puts_drawMarked hκ hcontent hb hsupply scope mode s hs hclient hplacid _ s' hmarked
  exact ⟨hpreserves, _, ⟨v, ids, w₂, hdraft, rfl⟩, hmounts⟩

open Walk in
/-- What becomes of a walk when a boundary is put behind its ends. -/
inductive Bounded (content : Program) (w : Sheet) (p : DomId) (m : Markers) :
    List DomId → Sheet → Prop where
  /-- All between the ends is claimed, or created. -/
  | held {v : Json} {ids : List DomId} {w₂ : Sheet}
      (inside : Draft content (w.amid p m) ids (.stop (.value v)) w₂)
      (held : m.mode = .hydrate → w₂.finish.unresolved = false) :
      Bounded content w p m ids (w₂.finish.beside w)
  /-- Something is not, and all is drawn anew. -/
  | redrawn {v u : Json} {ids ids' : List DomId} {w₂ w₃ : Sheet}
      {document : Document (Json → Program)} (hydrates : m.mode = .hydrate)
      (inside : Draft content (w.amid p m) ids (.stop (.value v)) w₂)
      (failed : w₂.finish.unresolved = true) (same : w₂.finish.document.SameNodes document)
      (again : Draft content (w₂.finish.anew document p m) ids' (.stop (.value u)) w₃) :
      Bounded content w p m (ids ++ ids') (w₃.finish.beside w)

section

open Walk

variable {k : Nat} {c : Canvas} {d : Drawing} {rest : List Drawing} {id : BoundaryId} {w : Sheet}
  {b : Boundary} {p : DomId} {m : Markers} {content : Program}

/-- What is between the ends goes, and is counted. -/
theorem puts_clearBoundary (hb : b.Belongs d p m content) :
    Puts k c d rest id (clearBoundary b) w fun removed w' =>
      removed = (between w.document m.opening m.closing).length ∧
        w' = w.modifyDocument (·.removeAll (between w.document m.opening m.closing)) := by
  intro s hs _
  have hdocument : s.document b.document = w.document := by
    rw [hb.document, hs.document_eq]
  refine .stepGet (fun _ => State.preserves_aside ⟨rfl, rfl, rfl, rfl, rfl, rfl, rfl, rfl⟩ rfl rfl)
    fun _ => ⟨_, ⟨?_, rfl⟩, ?_⟩
  · rw [hdocument, hb.opening, hb.closing]
  · refine hs.comes (hs.toShows.withDocument ?_)
    rw [hdocument, hb.opening, hb.closing, hb.document]
    show (s.documents.modify d.document.index _)[d.document.index]? = _
    rw [Array.getElem?_modify, if_pos rfl, show s.documents[_]? = _ from hs.document,
      Option.map_some]

/-- What was drawn between the ends is thrown away and drawn anew. -/
theorem puts_redrawBoundary {n : Nat} (hκ : (kernel n).Follows) {rules : Rules}
    (hcontent : content.Draws rules false 0) (hb : b.Belongs d p m content)
    (hsupply : b.OnClient) (scope : ScopeId) (hscope : k ≤ scope.index) {outer : Sheet} :
    Puts k c d rest id (redrawBoundary (kernel n) id b scope) (w.beside outer) fun _ w' =>
      ∃ document v ids w₃, w.document.SameNodes document ∧
        Draft content (w.anew document p m) ids (.stop (.value v)) w₃ ∧
          w' = w₃.finish.beside outer := by
  refine (Puts.dispose n hscope).bind ?_
  rintro _ _ ⟨document, hsame, rfl⟩
  refine (Puts.modifyBoundary fun _ _ => rfl).bind ?_
  rintro _ _ rfl
  refine (puts_clearBoundary hb).bind ?_
  rintro _ _ ⟨rfl, rfl⟩
  rw [hb.report]
  refine (Puts.of_turns (Turns.modifyReport _)).bind ?_
  rintro _ _ rfl
  refine (Puts.openBoundaryScope b true).bind ?_
  rintro scope' _ ⟨-, rfl⟩
  refine (puts_drawNew hκ hcontent hb hsupply scope' .create).mono ?_
  rintro _ _ ⟨v, ids, w₃, hdraft, rfl⟩
  exact ⟨document, v, ids, w₃, hsame, hdraft, rfl⟩

/-- From now on a boundary takes errors. -/
theorem puts_armBoundary {κ : Kernel} :
    Puts k c d rest id (armBoundary κ id) w fun _ w' => w' = w := by
  intro s hs hclient
  obtain ⟨b', hb', herrors⟩ := hs.boundary
  have hnone : ((s.boundary? id).map (·.errors)).getD [] = [] := by
    rw [State.boundary?, show s.boundaries[_]? = _ from hb']
    exact herrors
  have harmed := Puts.modifyBoundary (k := k) (f := ({ · with armed := true, errors := [] }))
    (fun _ _ => rfl) s hs hclient
  refine Brings.bind (P := fun errors s' => errors = [] ∧ c.Mounts d rest id w s'.canvas) ?_ ?_
  · intro hplacid errors s' hrun
    obtain ⟨hpreserves, _, rfl, hmounts⟩ := harmed hplacid () _ rfl
    cases hrun
    exact ⟨hpreserves, hnone, hmounts⟩
  · rintro _ s' - - ⟨rfl, hmounts⟩
    exact .ret ⟨w, rfl, hmounts⟩

/-- A boundary is put behind its ends. -/
theorem puts_mountBoundary {n : Nat} (hκ : (kernel n).Follows) {rules : Rules}
    (hcontent : content.Draws rules false 0) (hb : b.Belongs d p m content)
    (hsupply : b.OnClient) : Puts k c d rest id (mountBoundary (kernel n) id b m.mode) w fun _ w' =>
      ∃ ids, Bounded content w p m ids w' := by
  have harm {w' : Sheet} {ids : List DomId} (hbounded : Bounded content w p m ids w') :
      Puts k c d rest id (armBoundary (kernel n) id) w' fun _ w' =>
        ∃ ids, Bounded content w p m ids w' :=
    puts_armBoundary.mono fun _ _ hw' => hw' ▸ ⟨ids, hbounded⟩
  rw [mountBoundary_eq]
  refine (Puts.openBoundaryScope b true).bind ?_
  rintro scope _ ⟨hscope, rfl⟩
  refine (puts_drawMarked hκ hcontent hb hsupply scope m.mode).bind ?_
  rintro marked w₁ ⟨v, ids, w₂, hdraft, rfl, rfl⟩
  split
  · rename_i hredraw
    obtain ⟨hhydrate, hfailed⟩ := hredraw
    refine (puts_redrawBoundary hκ hcontent hb hsupply scope hscope).bind ?_
    rintro _ _ ⟨document, u, ids', w₃, hsame, hagain, rfl⟩
    exact harm (.redrawn hhydrate hdraft hfailed hsame hagain)
  · rename_i hkeep
    refine harm (.held hdraft fun hhydrate => ?_)
    simpa [hhydrate] using hkeep

/-- Makes a boundary, with its ends and its content, and draws it. -/
def placeBoundary (κ : Kernel) (d : Drawing) (p : DomId) (m : Markers) (content : Program)
    (fallback : Option (Json → Program)) : Run Unit := do
  let b : Boundary ← modifyGet fun s =>
    ({ document := d.document
       report := d.report
       parent := p
       opening := m.opening
       closing := m.closing
       owner := s.scopes.current?
       supply := s.supply?
       content, fallback }, s)
  let id ← modifyGet fun s =>
    ((⟨s.boundaries.size⟩ : BoundaryId), { s with boundaries := s.boundaries.push b })
  mountBoundary κ id b m.mode

/-- A boundary is placed where its markers are claimed. -/
theorem boundary_eq (κ : Kernel) (content : Program) (fallback : Option (Json → Program)) :
    boundary κ content fallback = (do
      let markers ← walking claimMarkers
      let frame ← walking frame
      let d ← currentDrawing
      placeBoundary κ d frame.parent markers content fallback
      walking (modify (·.setLast markers.closing (markers.mode = .create)))) := by
  simp only [boundary, placeBoundary, bind_assoc]

/-- A boundary draws its content between its ends. -/
theorem turns_placeBoundary {n : Nat} (hκ : (kernel n).Follows) {rules : Rules}
    (hcontent : content.Draws rules false 0) (p : DomId) (m : Markers)
    (fallback : Option (Json → Program)) {cursor : Cursor} :
    Turns k d rest (placeBoundary (kernel n) { d with cursor } p m content fallback) w
      fun _ w' => ∃ ids, Bounded content w p m ids w' := by
  intro s hs hclient
  refine Brings.bind (P := fun b s' =>
      b.Belongs d p m content ∧ b.OnClient ∧ b.errors = [] ∧ s = s')
    (.stepGet (fun _ => Bearing.idles (.refl s)) fun _ =>
      ⟨⟨rfl, rfl, rfl, rfl, rfl, rfl⟩, hclient, rfl, rfl⟩) ?_
  rintro b _ - - ⟨hb, hsupply, herrors, rfl⟩
  let id : BoundaryId := ⟨s.boundaries.size⟩
  let u : State := { s with boundaries := s.boundaries.push b }
  refine Brings.bind (P := fun i s' => i = id ∧ s' = u) (.stepGet (fun _ =>
    State.preserves_aside ⟨rfl, rfl, rfl, rfl, rfl, rfl, rfl, rfl⟩ rfl rfl) fun _ => ⟨rfl, rfl⟩) ?_
  rintro _ _ - - ⟨rfl, rfl⟩
  have hmounts : s.canvas.Mounts d rest id w u.canvas := .pushed hs herrors
  refine (puts_mountBoundary hκ hcontent hb hsupply u hmounts hclient).imp ?_
  rintro _ _ - ⟨w', hw', hdone⟩
  exact ⟨w', hw', hdone.toComes⟩

/-- A boundary is put. -/
theorem turns_boundary {n : Nat} (hκ : (kernel n).Follows) {rules : Rules}
    (hcontent : content.Draws rules false 0) (fallback : Option (Json → Program)) :
    Turns k d rest (boundary (kernel n) content fallback) w fun _ w' => ∃ m f w₁ ids w₂,
      claimMarkers.run w = .ok (m, w₁) ∧ frame.run w₁ = .ok (f, w₁) ∧
        Bounded content w₁ f.parent m ids w₂ ∧
          w' = w₂.setLast m.closing (m.mode = .create) := by
  rw [boundary_eq]
  refine (Turns.walking claimMarkers).bind fun m w₁ hmarkers => ?_
  refine (Turns.walking frame).bind fun f _ hframe => ?_
  obtain rfl := frame_run_eq hframe
  refine Turns.currentDrawing.bind ?_
  rintro _ _ ⟨rfl, rfl⟩
  refine (turns_placeBoundary hκ hcontent f.parent m fallback).bind ?_
  rintro _ w₂ ⟨ids, hbounded⟩
  refine (Turns.walking _).mono fun _ w' hlast => ?_
  cases hlast
  exact ⟨m, f, _, ids, w₂, hmarkers, hframe, hbounded, rfl⟩

/-- Behind a boundary the rest of a program follows. -/
theorem Bounded.starts {q next : Program} {m : Markers} {f : Frame} {w₁ w₂ : Sheet}
    {ids : List DomId} (h : Bounded content w₁ f.parent m ids w₂)
    (hboundary : q.boundary? = some (content, next)) (hmarkers : claimMarkers.run w = .ok (m, w₁))
    (hframe : frame.run w₁ = .ok (f, w₁)) :
    Draft.Starts q w (w.claims [m.opening, m.closing] ++ ids) next
      (w₂.setLast m.closing (m.mode = .create)) := by
  intro ids' q' w' hrest
  rw [List.append_assoc]
  cases h with
  | held inside held => exact .boundary hboundary hmarkers hframe inside held hrest
  | redrawn hydrates inside failed same again =>
    rw [List.append_assoc]
    exact .redrawn hboundary hmarkers hframe hydrates inside failed same again hrest

end

end Rivulet.Engine
