import Rivulet.Proofs.Drafting.Starting

/-!
# Walks at work

A walk is spread over the state: its document, its account and its mark are kept apart from its
cursor, as others may share them. A run that turns one walk into another one touches nothing of what
belongs to other walks, and it does so wherever the walk is found.
-/

namespace Rivulet.Engine

open Hydration

variable {α β : Type}

namespace Canvas

variable {c c' c'' : Canvas} {d : Drawing} {rest : List Drawing} {w w' : Sheet}

/-- The document, the account and the mark of a walk. -/
structure Holds (c : Canvas) (d : Drawing) (w : Sheet) : Prop where
  /-- The document. -/
  document : c.documents[d.document.index]? = some w.document
  /-- The account. -/
  report : c.reports[d.report.index]? = some w.report
  /-- The mark. -/
  flag : c.flags[d.flag.index]? = some w.unresolved

/-- The walk at work, with others below it. -/
structure Shows (c : Canvas) (d : Drawing) (rest : List Drawing) (w : Sheet) : Prop
    extends c.Holds d w where
  /-- Its cursor is the innermost one. -/
  drawings : c.drawings = { d with cursor := w.cursor } :: rest

/-- What does not belong to an account and a mark is the same; there may be more of it. -/
structure Beside (c : Canvas) (report : ReportId) (flag : FlagId) (c' : Canvas) : Prop where
  /-- There are as many accounts. -/
  size_reports : c'.reports.size = c.reports.size
  /-- The other accounts are the same. -/
  reports : ∀ i ≠ report.index, c'.reports[i]? = c.reports[i]?
  /-- Marks stay. -/
  size_flags : c.flags.size ≤ c'.flags.size
  /-- The other marks are the same. -/
  flags : ∀ i ≠ flag.index, i < c.flags.size → c'.flags[i]? = c.flags[i]?
  /-- Boundaries stay. -/
  size_boundaries : c.boundaries.size ≤ c'.boundaries.size
  /-- The boundaries are the same. -/
  boundaries : ∀ i < c.boundaries.size, c'.boundaries[i]? = c.boundaries[i]?

namespace Beside

variable {report : ReportId} {flag flag' : FlagId}

private theorem refl (c : Canvas) (report : ReportId) (flag : FlagId) : c.Beside report flag c :=
  ⟨rfl, fun _ _ => rfl, Nat.le_refl _, fun _ _ _ => rfl, Nat.le_refl _, fun _ _ => rfl⟩

theorem trans (h : c.Beside report flag c') (h' : c'.Beside report flag c'') :
    c.Beside report flag c'' where
  size_reports := h'.size_reports.trans h.size_reports
  reports i hi := (h'.reports i hi).trans (h.reports i hi)
  size_flags := Nat.le_trans h.size_flags h'.size_flags
  flags i hi hlt := (h'.flags i hi (Nat.lt_of_lt_of_le hlt h.size_flags)).trans (h.flags i hi hlt)
  size_boundaries := Nat.le_trans h.size_boundaries h'.size_boundaries
  boundaries i hi :=
    (h'.boundaries i (Nat.lt_of_lt_of_le hi h.size_boundaries)).trans (h.boundaries i hi)

/-- What differs only in documents and cursors. -/
theorem of_same (hreports : c'.reports = c.reports) (hflags : c'.flags = c.flags)
    (hboundaries : c'.boundaries = c.boundaries) : c.Beside report flag c' := by
  refine ⟨by rw [hreports], fun _ _ => by rw [hreports], by rw [hflags],
    fun _ _ _ => by rw [hflags], by rw [hboundaries], fun _ _ => by rw [hboundaries]⟩

end Beside

/-- The walk at work has become another one. -/
structure Comes (c : Canvas) (d : Drawing) (rest : List Drawing) (w : Sheet) (c' : Canvas) : Prop
    extends c'.Shows d rest w, c.Beside d.report d.flag c'

/-- The document of a drawing is the one that is held. -/
theorem Holds.document_eq {s : State} (h : s.canvas.Holds d w) :
    s.document d.document = w.document := by
  rw [State.document, show s.documents[_]? = _ from h.document, Option.getD_some]

/-- A canvas that stays as it is. -/
theorem Shows.comes (h : c.Shows d rest w) : c.Comes d rest w c := ⟨h, .refl c _ _⟩

/-- Changes of a drawing one after the other. -/
theorem Comes.trans (h : c.Comes d rest w c') (h' : c'.Comes d rest w' c'') :
    c.Comes d rest w' c'' := ⟨h'.toShows, h.toBeside.trans h'.toBeside⟩

/-- The walk at work has another document. -/
theorem Shows.withDocument (h : c.Shows d rest w) {document : Document (Json → Program)}
    {documents : Array (Document (Json → Program))}
    (hdocument : documents[d.document.index]? = some document) :
    c.Comes d rest { w with document } { c with documents } :=
  ⟨⟨⟨hdocument, h.report, h.flag⟩, h.drawings⟩, .of_same rfl rfl rfl⟩

/-- What is found in an array stands in it. -/
theorem lt_of_getElem? {γ : Type} {a : Array γ} {i : Nat} {x : γ} (h : a[i]? = some x) :
    i < a.size := (Array.getElem?_eq_some_iff.1 h).1

/-- The walk at work has another account. -/
theorem Shows.withReport (h : c.Shows d rest w) (f : Report → Report) :
    c.Comes d rest (w.modifyReport f) { c with reports := c.reports.modify d.report.index f } where
  document := h.document
  report := by rw [Array.getElem?_modify, if_pos rfl, h.report]; rfl
  flag := h.flag
  drawings := h.drawings
  size_reports := Array.size_modify
  reports i hi := by rw [Array.getElem?_modify, if_neg (Ne.symm hi)]
  size_flags := Nat.le_refl _
  flags _ _ _ := rfl
  size_boundaries := Nat.le_refl _
  boundaries _ _ := rfl

end Canvas

/-- A run turns a walk into another one of which something holds, in whatever state that is not on
the server. -/
def Turns (k : Nat) (d : Drawing) (rest : List Drawing) (x : Run α) (w : Sheet)
    (Q : α → Sheet → Prop) : Prop :=
  ∀ s : State, s.canvas.Shows d rest w → s.OnClient →
    Brings State.Preserves k x s fun a s' => ∃ w', Q a w' ∧ s.canvas.Comes d rest w' s'.canvas

namespace Turns

variable {k : Nat} {d : Drawing} {rest : List Drawing} {w w' : Sheet} {x : Run α}
  {P P' : α → Sheet → Prop} {Q : β → Sheet → Prop}

/-- What becomes of a sheet may be described more weakly. -/
theorem mono (h : Turns k d rest x w P) (hP : ∀ a w', P a w' → P' a w') :
    Turns k d rest x w P' := fun s hs hclient => (h s hs hclient).imp fun a _ _ ⟨w', hw', hcomes⟩ =>
  ⟨w', hP a w' hw', hcomes⟩

/-- A run that only gives a result. -/
theorem ret {a : α} (h : P a w) : Turns k d rest (pure a) w P := fun _ hs _ =>
  .ret ⟨w, h, hs.comes⟩

/-- A run that only fails. -/
theorem raise (e : Interrupt) : Turns k d rest (throw e : Run α) w P := fun _ _ _ => .raise e

/-- Two runs one after the other. -/
theorem bind {f : α → Run β} (h : Turns k d rest x w P)
    (hf : ∀ a w', P a w' → Turns k d rest (f a) w' Q) : Turns k d rest (x >>= f) w Q := by
  intro s hs hclient
  refine (h s hs hclient).bind ?_
  rintro a s' hpreserves - ⟨w', hP, hcomes⟩
  refine (hf a w' hP s' hcomes.toShows (hpreserves.onClient hclient)).imp ?_
  rintro b s'' - ⟨w'', hQ, hcomes'⟩
  exact ⟨w'', hQ, hcomes.trans hcomes'⟩

/-- A look at a state in which the sheet is shown. -/
theorem look {f : State → Run β} (h : ∀ s : State, s.canvas.Shows d rest w → s.OnClient →
    Turns k d rest (f s) w Q) : Turns k d rest (get >>= f) w Q := fun s hs hclient =>
  .look fun _ => h s hs hclient s hs hclient

/-- What the engine does beside a drawing does not concern the walk. -/
theorem idle {q : α → Prop} (h : ∀ s : State, s.OnClient → Brings State.Idles k x s
    fun a _ => q a) :
    Turns k d rest x w fun a w' => q a ∧ w' = w := by
  intro s hs hclient
  refine (h s hclient).mono State.Idles.toPreserves fun a s' hidles ha => ?_
  exact ⟨w, ⟨ha, rfl⟩, hidles.canvas ▸ hs.comes⟩

/-- A change that does not concern the walk. -/
theorem step {f : State → State} (h : ∀ s : State, s.Idles (f s)) :
    Turns k d rest (modify f) w fun _ w' => w' = w :=
  (idle (q := fun _ => True) fun s _ =>
    (Brings.step fun _ => h s).imp fun _ _ _ _ => trivial).mono fun _ _ ha => ha.2

/-- A change of the walk. -/
theorem change {f : State → State} (h : ∀ s : State, s.canvas.Shows d rest w →
    s.Preserves (f s) ∧ s.canvas.Comes d rest w' (f s).canvas) :
    Turns k d rest (modify f) w fun _ u => u = w' := fun s hs _ =>
  (Brings.step fun _ => (h s hs).1).imp fun _ s' _ heq => by
    subst heq
    exact ⟨w', rfl, (h s hs).2⟩

/-- A run in one of two cases. -/
theorem ite {c : Prop} [Decidable c] {y : Run α} (h : c → Turns k d rest x w P)
    (h' : ¬c → Turns k d rest y w P) : Turns k d rest (if c then x else y) w P := by
  split
  · exact h ‹_›
  · exact h' ‹_›

/-- A sheet is turned in an untracked section. -/
theorem untracked (h : Turns k d rest x w P) : Turns k d rest (Engine.untracked x) w P :=
  fun s hs hclient =>
    brings_untracked (q := fun a c => ∃ w', P a w' ∧ s.canvas.Comes d rest w' c) (h _ hs hclient)

/-- A sheet is turned in a batch. -/
theorem batch {κ : Kernel} (hκ : κ.Glances) (h : Turns k d rest x w P) :
    Turns k d rest (Engine.batch κ x) w P := fun s hs hclient =>
  brings_batch (q := fun a c => ∃ w', P a w' ∧ s.canvas.Comes d rest w' c) hκ (h _ hs hclient)
    State.Preserves.batch

/-- A sheet is turned with query data of a client at hand. -/
theorem withSupply {supply : Option Supply} (hsupply : ∀ pass, supply ≠ some (.server pass))
    (h : Turns k d rest x w P) : Turns k d rest (Engine.withSupply supply x) w P := by
  intro s hs hclient
  refine brings_withSupply (q := fun a c => ∃ w', P a w' ∧ s.canvas.Comes d rest w' c)
    fun u hu hcanvas => ?_
  have hdone := h u (hcanvas.symm ▸ hs) (hclient.or hsupply hu)
  rwa [hcanvas] at hdone

/-- A step of the walk at work. -/
theorem walking (step : WalkM (Json → Program) α) :
    Turns k d rest (Engine.walking step) w fun a w' => step.run w = .ok (a, w') := by
  intro s hs _
  refine .look fun _ => ?_
  have hreport : s.report d.report = w.report := by
    rw [State.report, show s.reports[_]? = _ from hs.report, Option.getD_some]
  have hflag : s.flag d.flag = w.unresolved := by
    rw [State.flag, show s.flags[_]? = _ from hs.flag, Option.getD_some]
  have hdrawings : s.drawings = { d with cursor := w.cursor } :: rest := hs.drawings
  rw [hdrawings]
  simp only [hs.document_eq, hreport, hflag]
  cases hrun : step.run w with
  | error misuse => exact .raise _
  | ok r =>
    obtain ⟨a, w'⟩ := r
    simp only [set_eq]
    have hcomes : s.canvas.Comes d rest w' { s.canvas with
        documents := s.documents.setIfInBounds d.document.index w'.document
        reports := s.reports.setIfInBounds d.report.index w'.report
        flags := s.flags.setIfInBounds d.flag.index w'.unresolved
        drawings := { d with cursor := w'.cursor } :: rest } := by
      refine ⟨⟨⟨?_, ?_, ?_⟩, rfl⟩, ⟨Array.size_setIfInBounds, fun i hi => ?_, ?_, fun i hi _ => ?_,
        Nat.le_refl _, fun _ _ => rfl⟩⟩
      · exact Array.getElem?_setIfInBounds_self_of_lt (Canvas.lt_of_getElem? hs.document)
      · exact Array.getElem?_setIfInBounds_self_of_lt (Canvas.lt_of_getElem? hs.report)
      · exact Array.getElem?_setIfInBounds_self_of_lt (Canvas.lt_of_getElem? hs.flag)
      · exact Array.getElem?_setIfInBounds_ne (Ne.symm hi)
      · exact Nat.le_of_eq Array.size_setIfInBounds.symm
      · exact Array.getElem?_setIfInBounds_ne (Ne.symm hi)
    exact .change (fun _ => State.preserves_aside ⟨rfl, rfl, rfl, rfl, rfl, rfl, rfl, rfl⟩ rfl rfl)
      fun _ => .ret ⟨w', rfl, hcomes⟩

/-- The document of the walk at work changes. -/
theorem modifyDocument (f : Document (Json → Program) → Document (Json → Program)) :
    Turns k d rest (modify (·.modifyDocument d.document f)) w
      fun _ w' => w' = w.modifyDocument f := by
  refine change fun s hs => ⟨State.preserves_aside ⟨rfl, rfl, rfl, rfl, rfl, rfl, rfl,
    rfl⟩ rfl rfl, ?_⟩
  refine hs.withDocument ?_
  show (s.documents.modify d.document.index f)[_]? = some (f w.document)
  rw [Array.getElem?_modify, if_pos rfl, show s.documents[_]? = _ from hs.document, Option.map_some]

/-- The account of the walk at work changes. -/
theorem modifyReport (f : Report → Report) :
    Turns k d rest (modify (·.modifyReport d.report f)) w fun _ w' => w' = w.modifyReport f :=
  change fun _ hs => ⟨State.preserves_aside ⟨rfl, rfl, rfl, rfl, rfl, rfl, rfl, rfl⟩ rfl rfl,
    hs.withReport f⟩

/-- The current drawing is found with its cursor. -/
theorem currentDrawing :
    Turns k d rest Engine.currentDrawing w
      fun e w' => e = { d with cursor := w.cursor } ∧ w' = w := by
  refine look fun s hs _ => ?_
  have hdrawings : s.drawings = { d with cursor := w.cursor } :: rest := hs.drawings
  rw [hdrawings]
  exact ret ⟨rfl, rfl⟩

/-- A node of the document gets a name. -/
theorem bindNode (name : Option String) (node : DomId) :
    Turns k d rest (Engine.bindNode name node) w fun _ w' => w' = w := by
  refine currentDrawing.bind ?_
  rintro e _ ⟨-, rfl⟩
  exact step fun s => State.idles_bindName (h := .node e.document node) trivial name

end Turns

/-- Another walk is drawn with a cursor of its own, which is put away at the end. -/
theorem brings_drawing {k : Nat} {d : Drawing} {w : Sheet} {x : Run α} {P : α → Sheet → Prop}
    {s : State} (hs : s.canvas.Holds d w) (hclient : s.OnClient) (hcursor : d.cursor = w.cursor)
    (h : Turns k d s.drawings x w P) :
    Brings State.Preserves k (drawing d x) s fun a s' => ∃ w', P a w' ∧
      s'.canvas.Holds d w'.finish ∧ s'.drawings = s.drawings ∧
        s.canvas.Beside d.report d.flag s'.canvas := by
  let u : State := { s with drawings := d :: s.drawings }
  have hshows : u.canvas.Shows d s.drawings w :=
    ⟨⟨hs.document, hs.report, hs.flag⟩, by rw [← hcursor]; rfl⟩
  have hbody : Turns k d s.drawings (do
      let a ← x
      walking (modify Walk.finish)
      return a) w fun a w' => ∃ v, P a v ∧ w' = v.finish := by
    refine h.bind fun a v hv => (Turns.walking _).bind ?_
    rintro _ w' hrun
    cases hrun
    exact .ret ⟨v, hv, rfl⟩
  refine .change (fun _ => State.preserves_aside ⟨rfl, rfl, rfl, rfl, rfl, rfl, rfl, rfl⟩ rfl rfl)
    fun _ => ?_
  refine (hbody u hshows hclient).guarding
    (fun _ => State.preserves_aside ⟨rfl, rfl, rfl, rfl, rfl, rfl, rfl, rfl⟩ rfl rfl) ?_
  rintro a s' - ⟨w', ⟨v, hv, rfl⟩, hcomes⟩
  refine ⟨v, hv, ⟨hcomes.document, hcomes.report, hcomes.flag⟩, ?_, ?_⟩
  · show s'.drawings.tail = s.drawings
    rw [show s'.drawings = _ from hcomes.drawings]
    rfl
  · exact ⟨hcomes.size_reports, hcomes.reports, hcomes.size_flags, hcomes.flags,
      hcomes.size_boundaries, hcomes.boundaries⟩

/-- A part of a walk is drawn with a cursor of its own, but the same account and mark. -/
theorem Turns.drawing {k : Nat} {d : Drawing} {rest : List Drawing} {w : Sheet} {cursor : Cursor}
    {x : Run α} {P : α → Sheet → Prop}
    (h : ∀ rest', Turns k { d with cursor } rest' x { w with cursor } P) :
    Turns k d rest (Engine.drawing { d with cursor } x) w
      fun a w' => ∃ v, P a v ∧ w' = v.finish.back w.cursor := by
  intro s hs hclient
  have hholds : s.canvas.Holds { d with cursor } { w with cursor } :=
    ⟨hs.document, hs.report, hs.flag⟩
  refine (brings_drawing hholds hclient rfl (h s.drawings)).imp ?_
  rintro a s' - ⟨v, hv, hdone, hdrawings, hbeside⟩
  refine ⟨v.finish.back w.cursor, ⟨v, hv, rfl⟩, ⟨⟨hdone.document, hdone.report, hdone.flag⟩, ?_⟩,
    hbeside⟩
  exact hdrawings.trans hs.drawings

end Rivulet.Engine
