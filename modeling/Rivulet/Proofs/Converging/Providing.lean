import Rivulet.Proofs.Converging.Going

/-!
# Parts of a drawing

A template looks, provides nodes, lets texts and attributes follow values, and puts regions and
inserts. Whatever markup the walk meets, each of these ends normally and adds what was asked for to
the level, unless the walk is left unresolved.
-/

namespace Rivulet

namespace Hydration.Walk

variable {α : Type} {w w' w'' : Walk α} {f f' : Frame} {fs : List Frame}
  {done new used ahead tail rest : List DomId} {ks ls : List Markup.Skeleton}

/-- A walk has gone on along a level, by some way. -/
def Gains (w w' : Walk α) (f : Frame) (fs : List Frame) (done ahead tail : List DomId)
    (ks : List Markup.Skeleton) : Prop :=
  ∃ f' new used rest, ahead = used ++ rest ∧ w.Adds w' f f' fs done new used rest tail ks

/-- A level that is left as it is. -/
theorem Gains.refl (h : w.At f fs done ahead tail) : w.Gains w f fs done ahead tail [] :=
  ⟨f, [], [], ahead, rfl, .refl h⟩

/-- What is added to a level, whatever of the rest has been used. -/
theorem Adds.gains (h : w.Adds w' f f' fs done new used rest tail ks) :
    w.Gains w' f fs done (used ++ rest) tail ks := ⟨f', new, used, rest, rfl, h⟩

/-- What is added to a level, and then gained. -/
theorem Adds.then (h : w.Adds w' f f' fs done new used rest tail ks)
    (h' : w'.Gains w'' f' fs (done ++ new) rest tail ls) :
    w.Gains w'' f fs done (used ++ rest) tail (ks ++ ls) := by
  obtain ⟨f'', more, taken, rest, rfl, h'⟩ := h'
  exact ⟨f'', new ++ more, used ++ taken, rest, (List.append_assoc ..).symm, h.trans h'⟩

/-- The walk with fragments put inside of a wrapper. -/
def fill (w : Walk α) (id : DomId) (fragments : List Fragment) : Walk α :=
  (w.modifyDocument fun d =>
    (d.clear id).plantUnder id (Fragment.trees fragments)).modifyReport
      (·.addCreated (Fragment.sizes fragments))

end Hydration.Walk

namespace Engine

open Hydration Walk

variable {W : World} {k n : Nat} {d : Drawing} {rest : List Drawing} {w w' w'' : Sheet}
  {s s' : State} {f : Hydration.Frame} {fs : List Hydration.Frame} {done ahead tail : List DomId}
  {us : List Markup.Skeleton} {p : Program} {v : Json}

/-- A look has left alone what a drawing relies on. -/
structure State.Rests (s s' : State) : Prop where
  /-- It is reached from there. -/
  path : Path s s'
  /-- The names stand for the same. -/
  names : s'.names = s.names
  /-- The scopes are the same. -/
  scopes : s'.scopes = s.scopes
  /-- The same waits. -/
  queue : s'.queue = s.queue
  /-- The same is put off. -/
  deferred : s'.deferred = s.deferred
  /-- The same is drawn. -/
  canvas : s'.canvas = s.canvas
  /-- The same is being fetched. -/
  starting : s'.starting = s.starting
  /-- Nothing else has come to run. -/
  running : ∀ id, s'.tracking.isRunning id = true → s.tracking.isRunning id = true

theorem State.Rests.refl (s : State) : s.Rests s :=
    ⟨.refl, rfl, rfl, rfl, rfl, rfl, rfl, fun _ h => h⟩

theorem State.Rests.trans {s'' : State} (h : s.Rests s') (h' : s'.Rests s'') : s.Rests s'' where
  path := h.path.trans h'.path
  names := h'.names.trans h.names
  scopes := h'.scopes.trans h.scopes
  queue := h'.queue.trans h.queue
  deferred := h'.deferred.trans h.deferred
  canvas := h'.canvas.trans h.canvas
  starting := h'.starting.trans h.starting
  running id hid := h.running id (h'.running id hid)

namespace World

/-- A state in which templates may look. -/
structure Ready (W : World) (s : State) : Prop where
  /-- It is the state of a run. -/
  reached : s.Reached
  /-- What templates read is there. -/
  holds : W.holds s
  /-- Nothing waits that could be done at once. -/
  quiet : s.Quiet

/-- A stage is ready for a program that looks. -/
theorem Stage.ready (h : W.Stage k n s) : W.Ready s := ⟨h.reached, h.holds, h.quiet⟩

/-- Ready states stay so while the stage rests. -/
theorem Ready.rests (h : W.Ready s) (hrests : s.Rests s') (hholds : W.holds s') : W.Ready s' where
  reached := h.reached.path hrests.path
  holds := hholds
  quiet := by
    rw [State.Quiet, hrests.queue, hrests.deferred]
    exact h.quiet

/-- A stage stays one while it rests. -/
theorem Stage.rests (h : W.Stage k n s) (hrests : s.Rests s') (hholds : W.holds s') :
    W.Stage k n s' where
  reached := h.reached.path hrests.path
  holds := hholds
  quiet := (h.ready.rests hrests hholds).quiet
  running id hid :=
    Nat.lt_of_lt_of_le (h.running id (hrests.running id hid)) hrests.path.before.size
  current := by
    rw [hrests.scopes]
    exact h.current
  bare := by
    rw [hrests.scopes]
    exact h.bare
  begun := by
    rw [hrests.scopes]
    exact h.begun
  base := Nat.le_trans h.base hrests.path.before.size
  fetching := by
    rw [hrests.starting]
    exact h.fetching
  names := by
    simp only [State.handle?, hrests.names]
    exact h.names

/-- A look always has the same answer. -/
def Answers (W : World) (o : Op) (a : Option Json) : Prop :=
  ∀ s, W.Ready s → Gives (fun κ => performOp κ o) s fun b s' =>
    b = a ∧ s.Rests s' ∧ W.holds s'

/-- A program that looks always ends with the same value. -/
def Steady (W : World) (p : Program) (v : Json) : Prop :=
  ∀ s, W.Ready s → Gives (fun κ => exec κ p) s fun o s' =>
    o = .value v ∧ s.Rests s' ∧ W.holds s'

/-- A program that only gives a value. -/
theorem Steady.ret (v : Json) : W.Steady (.ret v) v := fun s hs => by
  rw [Program.ret]
  exact .ret ⟨rfl, .refl s, hs.holds⟩

/-- A call whose answer is known. -/
theorem Steady.op {o : Op} {a : Option Json} {next : Option Json → Program} (h : W.Answers o a)
    (hnext : W.Steady (next a) v) : W.Steady (.op o next) v := by
  intro s hs
  simp only [exec]
  refine (h s hs).bind ?_
  rintro _ s' ⟨rfl, hrests, hholds⟩
  refine (hnext s' (hs.rests hrests hholds)).imp ?_
  rintro o s'' ⟨rfl, hrests', hholds'⟩
  exact ⟨rfl, hrests.trans hrests', hholds'⟩

/-- A program inside of another one. -/
theorem Steady.within {next : Outcome → Option Json → Program} {u : Json} (h : W.Steady p u)
    (hnext : W.Steady (next (.value u) none) v) : W.Steady (.within .plain p next) v := by
  intro s hs
  simp only [exec, enclose, bind_assoc, pure_bind]
  refine (Gives.callExec (h s hs)).bind ?_
  rintro _ s' ⟨rfl, hrests, hholds⟩
  refine (hnext s' (hs.rests hrests hholds)).imp ?_
  rintro o s'' ⟨rfl, hrests', hholds'⟩
  exact ⟨rfl, hrests.trans hrests', hholds'⟩

end World

/-- A look leaves what is drawn alone. -/
theorem goes_look {α : Type} {x : Kernel → Run α} {P : α → Prop}
    (h : ∀ s, W.Ready s → Gives x s fun a s' => P a ∧ s.Rests s' ∧ W.holds s') :
    Goes W k d rest x w fun a w' => P a ∧ w' = w := fun s hs hw =>
  (h s hs.ready).imp fun _ _ ⟨ha, hrests, hholds⟩ =>
    ⟨w, ⟨ha, rfl⟩, .beside hrests.path (hs.rests hrests hholds) hrests.canvas hw⟩

/-- A program that looks gives its value, and leaves what is drawn alone. -/
theorem goes_eval (h : W.Steady p v) :
    Goes W k d rest (fun κ => κ.eval p) w fun u w' => u = v ∧ w' = w :=
  goes_look fun s hs => .callEval ((h s hs).imp fun _ _ ⟨ho, hrests⟩ => ⟨by rw [ho]; rfl, hrests⟩)

/-- Something is done that gives no answer. -/
theorem goes_noAnswer {x : Kernel → Run Unit} {P : Unit → Sheet → Prop}
    (h : Goes W k d rest x w P) :
    Goes W k d rest (fun κ => noAnswer (x κ)) w fun a w' => a = none ∧ P () w' :=
  h.bind fun _ _ hP => .ret ⟨rfl, hP⟩

/-- Whoever asks for a node by a call learns nothing of it. -/
theorem goes_called {step : WalkM (Json → Program) DomId} {name : Option String}
    {P : Sheet → Prop} (h : Goes W k d rest (fun _ => claimAs name step) w fun _ w' => P w') :
    Goes W k d rest (fun _ => noAnswer do let _ ← claimAs name step) w fun a w' =>
      a = none ∧ P w' :=
  goes_noAnswer (P := fun _ w' => P w') (h.bind fun _ _ h => .ret h)

/-- A node that is provided is given a name. -/
theorem goes_named {step : WalkM (Json → Program) DomId} {name : Option String} {id : DomId}
    (hname : ∀ x ∈ name, W.free x) (hrun : step.run w = .ok (id, w'))
    (hsize : w.document.nodes.size ≤ w'.document.nodes.size)
    (hid : id.index < w'.document.nodes.size) :
    Goes W k d rest (fun _ => claimAs name step) w fun a u => a = id ∧ u = w' := by
  refine (Goes.walking hrun hsize).bind ?_
  rintro _ _ ⟨rfl, rfl⟩
  refine (Goes.bindNode hname hid).bind ?_
  rintro _ _ rfl
  exact .ret ⟨rfl, rfl⟩

/-- A node is provided and given a name. -/
theorem goes_claimAs {step : WalkM (Json → Program) DomId} {expected : Expected}
    {name : Option String} (hname : ∀ x ∈ name, W.free x)
    (h : Provides step w f fs done ahead tail expected) :
    Goes W k d rest (fun _ => claimAs name step) w fun id w' => ∃ f' skipped used rest,
      ahead = used ++ rest ∧ w.Offers w' f f' fs done skipped id used rest tail expected := by
  obtain ⟨id, w₁, f₁, skipped, used, ahead', hrun, hsplit, hoffers⟩ := h.offers
  refine (goes_named hname hrun hoffers.advances.moves.redrawn.size hoffers.lt_size).mono ?_
  rintro _ _ ⟨rfl, rfl⟩
  exact ⟨f₁, skipped, used, ahead', hsplit, hoffers⟩

/-- A keyed element is claimed. -/
theorem goes_claim {tag : String} {attrs : List (String × String)} {name : Option String}
    (hname : ∀ x ∈ name, W.free x) (hat : w.At f fs done ahead tail) :
    Goes W k d rest (fun κ => performOp κ (.claim (.element tag) attrs name)) w fun a w' =>
      a = none ∧ ∃ id f' skipped used rest, ahead = used ++ rest ∧
        w.Offers w' f f' fs done skipped id used rest tail (.element tag) := by
  have hclaim := hat.claimNode_spec (.element tag) attrs true
  refine goes_noAnswer (P := fun _ w' => ∃ id f' skipped used rest, ahead = used ++ rest ∧
    w.Offers w' f f' fs done skipped id used rest tail (.element tag))
      ((goes_claimAs hname hclaim).bind ?_)
  exact fun id w' h => .ret ⟨id, h⟩

/-- A text is provided. -/
theorem goes_staticText {content : String} {name : Option String} (hname : ∀ x ∈ name, W.free x)
    (hat : w.At f fs done ahead tail) :
    Goes W k d rest (fun κ => performOp κ (.staticText content name)) w fun a w' =>
      a = none ∧ w.Gains w' f fs done ahead tail [] := by
  have hclaim := hat.claimNode_spec (.text content) [] false
  refine goes_noAnswer (P := fun _ w' => w.Gains w' f fs done ahead tail [])
    ((goes_claimAs hname hclaim).bind ?_)
  rintro id w' ⟨f', skipped, used, ahead', rfl, hoffers⟩
  exact .ret hoffers.adds_text.gains

/-- A text that is provided is written, and follows a value. -/
theorem goes_written {name : Option String} {id : DomId} (hname : ∀ x ∈ name, W.free x)
    (hp : W.Steady p v) (hrun : (claimNode (.text "") [] false).run w = .ok (id, w'))
    (hsize : w.document.nodes.size ≤ w'.document.nodes.size)
    (hid : id.index < w'.document.nodes.size) :
    Goes W k d rest (fun κ => dynText κ name p) w
      fun _ u => u = w'.modifyDocument (·.setText id v.display) := by
  refine (Goes.walking hrun hsize).bind ?_
  rintro id _ ⟨rfl, rfl⟩
  refine Goes.currentDrawing.bind ?_
  rintro _ w₁ ⟨rfl, rfl⟩
  have hwritten := (Document.tinted_setText w₁.document id v.display).size.ge
  have heffect : Goes W k d rest (fun κ => createHiddenEffect κ (.text d.document id p) none) w₁
      fun _ w' => w' = w₁.modifyDocument (·.setText id v.display) := by
    refine goes_createEffect fun i e he _ _ => ?_
    simp only [react, he]
    refine (goes_eval hp).bind ?_
    rintro _ _ ⟨rfl, rfl⟩
    refine (Goes.modifyDocument hwritten).bind ?_
    rintro _ _ rfl
    exact .ret ⟨⟨_, rfl⟩, rfl⟩
  refine heffect.bind ?_
  rintro _ _ rfl
  refine (Goes.bindNode hname ?_).mono ?_
  · exact Nat.lt_of_lt_of_le hid hwritten
  · rintro _ _ rfl
    rfl

/-- A text that follows a value is provided and written. -/
theorem goes_dynText {name : Option String} (hname : ∀ x ∈ name, W.free x) (hp : W.Steady p v)
    (hat : w.At f fs done ahead tail) :
    Goes W k d rest (fun κ => dynText κ name p) w fun _ w' =>
        w.Gains w' f fs done ahead tail [] := by
  obtain ⟨id, w₁, f₁, skipped, used, ahead', hrun, rfl, hoffers⟩ :=
    (hat.claimNode_spec (.text "") [] false).offers
  refine (goes_written hname hp hrun hoffers.advances.moves.redrawn.size hoffers.lt_size).mono ?_
  rintro _ _ rfl
  have hadds := hoffers.adds_text
  have hwritten := hadds.there.adds_tinted (w₁.modifyDocument (·.setText id v.display))
    (Document.tinted_setText w₁.document id v.display) rfl rfl
  exact hadds.then hwritten.gains

/-- An attribute is written that follows a value, and nothing else changes. -/
theorem goes_dressed {node name : String} {body : Json → Program} (hnode : W.free node)
    (hname : name ≠ Markup.keyAttribute) (hp : W.Steady (body .null) v) :
    Goes W k d rest (fun κ => performInstall κ body (.attr node name)) w fun a w' =>
      a = none ∧ ∃ document, w.document.Tinted document ∧ w' = { w with document } := by
  refine Goes.look fun s hs _ => ?_
  rcases hs.names node hnode with hnone | ⟨document, i, hsome, hlt⟩
  · simp only [hnone, Option.bind_none]
    exact .ret ⟨rfl, _, .refl _, rfl⟩
  · simp only [hsome, Option.bind_some, Handle.domNode?]
    refine goes_noAnswer
      (P := fun _ w' => ∃ document, w.document.Tinted document ∧ w' = { w with document }) ?_
    refine Goes.currentDrawing.bind ?_
    rintro _ _ ⟨rfl, rfl⟩
    refine goes_createEffect fun j e he _ _ => ?_
    simp only [react, he]
    refine (goes_eval hp).bind ?_
    rintro v w₁ ⟨rfl, rfl⟩
    refine Goes.bind (P := fun _ w' => w' = w₁) (Goes.look fun u _ hu => ?_) ?_
    · have hheld : (u.document d.document).holds i = true := by
        rw [hu.toHolds.document_eq]
        exact decide_eq_true hlt
      simp only [hheld, if_true]
      exact .ret rfl
    rintro _ w₁ rfl
    have hput (value : String) : Goes W k d rest (fun _ => (do
        modify (·.modifyDocument d.document (·.setAttr i name value))
        return Outcome.value .null : Run Outcome)) w₁ fun o w' => (∃ v, o = .value v) ∧
          ∃ document, w₁.document.Tinted document ∧ w' = { w₁ with document } := by
      have ht := Document.tinted_setAttr w₁.document i hname value
      refine (Goes.modifyDocument ht.size.ge).bind ?_
      rintro _ _ rfl
      exact .ret ⟨⟨_, rfl⟩, _, ht, rfl⟩
    cases v with
    | null =>
      have ht := Document.tinted_removeAttr w₁.document i hname
      refine (Goes.modifyDocument ht.size.ge).bind ?_
      rintro _ _ rfl
      exact .ret ⟨⟨_, rfl⟩, _, ht, rfl⟩
    | _ => exact hput _

/-- An attribute that follows a value is written. -/
theorem goes_attr {node name : String} {body : Json → Program} (hnode : W.free node)
    (hname : name ≠ Markup.keyAttribute) (hp : W.Steady (body .null) v)
    (hat : w.At f fs done ahead tail) :
    Goes W k d rest (fun κ => performInstall κ body (.attr node name)) w fun a w' =>
      a = none ∧ w.Gains w' f fs done ahead tail [] := by
  refine (goes_dressed hnode hname hp).mono ?_
  rintro _ _ ⟨rfl, document, ht, rfl⟩
  exact ⟨rfl, f, [], [], ahead, rfl, hat.adds_tinted { w with document } ht rfl rfl⟩

/-! ## Regions and inserts -/

/-- A walk with a cursor of its own was drawn, from the start to the end. -/
structure World.Drawn (W : World) (k : Nat) (d : Drawing) (s : State) (w : Sheet) (s' : State) :
    Prop where
  /-- It is reached from there. -/
  path : Path s s'
  /-- Templates may draw on. -/
  stage : W.Stage k w.document.nodes.size s'
  /-- What the walk has become. -/
  holds : s'.canvas.Holds d w
  /-- The cursor is put away. -/
  drawings : s'.drawings = s.drawings
  /-- What belongs to other walks is the same. -/
  beside : s.canvas.Beside d.report d.flag s'.canvas

namespace World.Drawn

variable {s'' u : State}

/-- The engine goes on beside the walk. -/
theorem onward (h : W.Drawn k d s w s') (hpath : Path s' s'') (hcanvas : s''.canvas = s'.canvas)
    (hstage : W.Stage k w.document.nodes.size s'') : W.Drawn k d s w s'' where
  path := h.path.trans hpath
  stage := hstage
  holds := hcanvas.symm ▸ h.holds
  drawings := (congrArg Canvas.drawings hcanvas).trans h.drawings
  beside := hcanvas.symm ▸ h.beside

/-- What the engine did before does not concern the walk either. -/
theorem behind (h : W.Drawn k d u w s') (hpath : Path s u) (hcanvas : u.canvas = s.canvas) :
    W.Drawn k d s w s' where
  path := hpath.trans h.path
  stage := h.stage
  holds := h.holds
  drawings := h.drawings.trans (congrArg Canvas.drawings hcanvas)
  beside := hcanvas ▸ h.beside

end World.Drawn

/-- A walk with a cursor of its own is drawn, and the cursor is put away at the end. -/
theorem gives_drawing {α : Type} {x : Kernel → Run α} {P : α → Sheet → Prop}
    (hs : W.Stage k w.document.nodes.size s) (hw : s.canvas.Holds d w)
    (hcursor : d.cursor = w.cursor)
    (h : Goes W k d s.drawings x w P) :
    Gives (fun κ => drawing d (x κ)) s fun a s' => ∃ w', P a w' ∧ W.Drawn k d s w'.finish s' := by
  let u : State := { s with drawings := d :: s.drawings }
  have hshows : u.canvas.Shows d s.drawings w :=
    ⟨⟨hw.document, hw.report, hw.flag⟩, by rw [← hcursor]; rfl⟩
  have hbegun : s.Preserves u := State.preserves_aside
    ⟨rfl, rfl, rfl, rfl, rfl, rfl, rfl, rfl⟩ rfl rfl
  have hbody : Goes W k d s.drawings (fun κ => do
      let a ← x κ
      walking (modify Walk.finish)
      return a) w fun a w' => ∃ v, P a v ∧ w' = v.finish := by
    refine h.bind fun a v hv => ?_
    have hsize : v.document.nodes.size ≤ v.finish.document.nodes.size := by rw [finish_document]
    have hfinish : (modify Walk.finish : WalkM (Json → Program) Unit).run v =
        .ok ((), v.finish) := rfl
    refine (Goes.walking hfinish hsize).bind ?_
    rintro _ _ ⟨-, rfl⟩
    exact .ret ⟨v, hv, rfl⟩
  refine .change (.guarding ((hbody u (hs.aside rfl) hshows).imp ?_))
  rintro a s' ⟨_, ⟨v, hv, rfl⟩, harrives⟩
  have hcomes := harrives.comes
  let s'' : State := { s' with drawings := s'.drawings.tail }
  have hended : s'.Preserves s'' :=
    State.preserves_aside ⟨rfl, rfl, rfl, rfl, rfl, rfl, rfl, rfl⟩ rfl rfl
  refine ⟨v, hv, (hbegun.path.trans harrives.path).trans hended.path, harrives.stage.aside rfl,
    ⟨hcomes.document, hcomes.report, hcomes.flag⟩, ?_, ?_⟩
  · show s'.drawings.tail = s.drawings
    rw [show s'.drawings = _ from hcomes.drawings]
    rfl
  · exact ⟨hcomes.size_reports, hcomes.reports, hcomes.size_flags, hcomes.flags,
      hcomes.size_boundaries, hcomes.boundaries⟩

/-- A walk is drawn with a scope current. -/
theorem gives_drawnWithin {α : Type} {x : Kernel → Run α} {P : α → Sheet → Prop} {scope : ScopeId}
    (hs : W.Stage k n s) (hscope : scope.index < s.scopes.next)
    (h : ∀ u : State, W.Stage k n u → u.canvas = s.canvas →
      Gives x u fun a s' => ∃ w', P a w' ∧ W.Drawn k d u w'.finish s') :
    Gives (fun κ => withScope scope (x κ)) s fun a s' =>
      ∃ w', P a w' ∧ W.Drawn k d s w'.finish s' := by
  have hentered := State.idles_enterScope s scope
  refine .withScope ((h _ (hs.enterScope hscope) hentered.canvas).imp ?_)
  rintro a s' ⟨w', hw', hdrawn⟩
  have hleft := State.idles_leaveScope s' scope
  have hdone := hdrawn.onward hleft.path hleft.canvas (hdrawn.stage.leaveScope scope)
  exact ⟨w', hw', hdone.behind hentered.path hentered.canvas⟩

/-- A walk is drawn with query data at hand. -/
theorem gives_drawnSupplied {α : Type} {x : Kernel → Run α} {P : α → Sheet → Prop}
    {supply : Option Supply} (hs : W.Stage k n s)
    (h : ∀ u : State, W.Stage k n u → u.canvas = s.canvas →
      Gives x u fun a s' => ∃ w', P a w' ∧ W.Drawn k d u w'.finish s') :
    Gives (fun κ => withSupply supply (x κ)) s fun a s' =>
      ∃ w', P a w' ∧ W.Drawn k d s w'.finish s' := by
  cases supply with
  | none => exact h s hs rfl
  | some supply =>
    let u : State := { s with supplies := supply :: s.supplies }
    refine .change (.guarding ((h u (hs.aside rfl) rfl).imp ?_))
    rintro a s' ⟨w', hw', hdrawn⟩
    have hdone := hdrawn.onward (State.path_leaveSupply s') (State.canvas_leaveSupply s')
      hdrawn.stage.leaveSupply
    exact ⟨w', hw', hdone.behind (State.path_enterSupply s supply) rfl⟩

/-- A part of a walk is drawn with a cursor of its own, but the same account and mark. -/
theorem goes_drawing {α : Type} {x : Kernel → Run α} {P : α → Sheet → Prop} {cursor : Cursor}
    (h : ∀ rest', Goes W k { d with cursor } rest' x { w with cursor } P) :
    Goes W k d rest (fun κ => drawing { d with cursor } (x κ)) w
      fun a w' => ∃ v, P a v ∧ w' = v.finish.back w.cursor := by
  intro s hs hw
  have hholds : s.canvas.Holds { d with cursor } { w with cursor } :=
    ⟨hw.document, hw.report, hw.flag⟩
  refine (gives_drawing (w := { w with cursor }) hs hholds rfl (h s.drawings)).imp ?_
  rintro a s' ⟨v, hv, hdrawn⟩
  have hdone := hdrawn.holds
  exact ⟨v.finish.back w.cursor, ⟨v, hv, rfl⟩, hdrawn.path, hdrawn.stage,
    ⟨⟨hdone.document, hdone.report, hdone.flag⟩, hdrawn.drawings.trans hw.drawings⟩, hdrawn.beside⟩

/-- Run for what it draws, a program turns a walk into one of which something holds. -/
def World.Draws (W : World) (p : Program) (w : Sheet) (P : Sheet → Prop) : Prop :=
  ∀ (k : Nat) (d : Drawing) (rest : List Drawing),
    Goes W k d rest (fun κ => κ.perform p) w fun _ w' => P w'

/-- A program draws what bears some skeletons, wherever it draws. -/
def World.Renders (W : World) (p : Program) (us : List Markup.Skeleton) : Prop :=
  ∀ (k : Nat) (d : Drawing) (rest : List Drawing) (w : Sheet) (f : Hydration.Frame)
    (done ahead tail : List DomId), w.At f [] done ahead tail →
    Goes W k d rest (fun κ => exec κ p) w fun o w' =>
      (∃ v, o = .value v) ∧ w.Gains w' f [] done ahead tail us

/-- A program is run by a call, at all depths from some on. -/
theorem goes_callExec {Q : Outcome → Sheet → Prop} (h : Goes W k d rest (fun κ => exec κ p) w Q) :
    Goes W k d rest (fun κ => κ.exec p) w Q := fun s hs hw => .callExec (h s hs hw)

/-- A template draws the trees that it renders. -/
theorem World.Renders.draws (h : W.Renders p us) (hat : w.At f [] done ahead tail) :
    W.Draws p w fun w' => w.Gains w' f [] done ahead tail us := fun k d rest =>
  (goes_callExec (h k d rest w f done ahead tail hat)).bind fun _ _ ⟨_, hgains⟩ => .ret hgains

open Walk in
/-- What is done below the node that was provided last. -/
theorem childMode_run {created : Bool} {id : DomId} (hframes : w.cursor.frames = f :: fs)
    (hlast : w.cursor.last = some (id, created)) :
    childMode.run w = .ok (if created then .create else f.mode, w) := by
  rw [childMode, bind_ok (x := get) (b := w) rfl, hlast]
  cases created with
  | true => rfl
  | false => exact mode_run hframes

open Walk in
/-- A wrapper that is provided gets what a region draws for the first time. -/
theorem goes_drawn {name : Option String} {id : DomId} {mode : Mode} {P : Sheet → Prop}
    (hname : ∀ x ∈ name, W.free x)
    (hrun : (claimNode (.wrapper .region) [] false).run w = .ok (id, w'))
    (hsize : w.document.nodes.size ≤ w'.document.nodes.size)
    (hchild : childMode.run w' = .ok (mode, w'))
    (hp : W.Draws p (w'.onLevel (.open w'.document id mode)) P)
    (hid : ∀ v, P v → id.index < v.finish.document.nodes.size) :
    Goes W k d rest (fun κ => region κ name p) w fun _ u =>
      ∃ v, P v ∧ u = v.finish.back w'.cursor := by
  refine (Goes.walking hrun hsize).bind ?_
  rintro id _ ⟨rfl, rfl⟩
  refine (Goes.walking hchild (Nat.le_refl _)).bind ?_
  rintro mode w₁ ⟨rfl, rfl⟩
  refine Goes.currentDrawing.bind ?_
  rintro _ w₁ ⟨rfl, rfl⟩
  have heffect (supply : Option Supply) : Goes W k d rest (fun κ => createHiddenEffect κ
      (.region d.document id p (some ⟨mode, d.report, d.flag⟩)) supply) w₁ fun _ w' =>
        ∃ v, P v ∧ w' = v.finish.back w₁.cursor := by
    refine goes_createEffect fun i e he _ hi => ?_
    simp only [react, he]
    refine .withSupply ?_
    have hforget (e : Effect) :
        ({ e with reaction := .region d.document id p none } : Effect).scope = e.scope ∧
          (e.disposed = true →
            ({ e with reaction := .region d.document id p none } : Effect).disposed = true) :=
      ⟨rfl, fun h => h⟩
    refine Goes.bind (Goes.step fun s hs =>
      ⟨State.idles_modifyEffect s i hforget, hs.effect hi hforget⟩) ?_
    rintro _ w₁ rfl
    refine .look fun s _ hw => ?_
    rw [hw.toHolds.document_eq]
    have hdraw : Goes W k d rest (fun κ =>
        drawing { d with cursor := ⟨[.open w₁.document id mode], none⟩ } (κ.perform p)) w₁
            fun _ w' =>
          ∃ v, P v ∧ w' = v.finish.back w₁.cursor := goes_drawing fun rest' => hp k _ rest'
    simp only [pure_bind]
    refine hdraw.bind ?_
    rintro _ _ ⟨v, hv, rfl⟩
    exact .ret ⟨⟨_, rfl⟩, v, hv, rfl⟩
  refine .look fun s _ _ => ?_
  refine (heffect s.supply?).bind ?_
  rintro _ _ ⟨v, hv, rfl⟩
  have hheld : id.index < (v.finish.back w₁.cursor).document.nodes.size := hid v hv
  refine (Goes.bindNode hname hheld).mono ?_
  rintro _ _ rfl
  exact ⟨v, hv, rfl⟩

open Walk in
/-- A region is put, and draws for the first time. -/
theorem goes_region {name : Option String} (hname : ∀ x ∈ name, W.free x) (hp : W.Renders p us)
    (hat : w.At f fs done ahead tail) :
    Goes W k d rest (fun κ => region κ name p) w fun _ w' =>
      w.Gains w' f fs done ahead tail [.wrapper .region us] := by
  obtain ⟨id, w₁, f₁, skipped, used, ahead', hrun, rfl, hoffers⟩ :=
    (hat.claimNode_spec (.wrapper .region) [] false).offers
  obtain ⟨created, hlast, -⟩ := hoffers.last
  obtain ⟨mode, hmode⟩ : ∃ mode, mode = if created then Mode.create else f₁.mode := ⟨_, rfl⟩
  have hchild := childMode_run hoffers.advances.there.frames hlast
  rw [← hmode] at hchild
  let inner := w₁.onLevel (.open w₁.document id mode)
  have hin : inner.At (.open w₁.document id mode) [] [] (w₁.document.children id) [] :=
    hoffers.at_inside hlast hmode rfl rfl
  have hdrawn {v : Sheet} (hv : inner.Gains v (.open w₁.document id mode) [] []
      (w₁.document.children id) [] us) : w.Adds (v.finish.back w₁.cursor) f f₁ fs done
        (skipped ++ [id]) used ahead' tail [.wrapper .region us] := by
    obtain ⟨g, new, taken, left, hsplit, hadds⟩ := hv
    refine hoffers.adds_inside (u := inner) hlast hmode rfl rfl hadds ?_
      hoffers.advances.there.frames ?_
    · show v.finish.document = _
      rw [finish_document]
    · show v.finish.unresolved = _
      rw [finish_eq hadds.there.frames]
  refine (goes_drawn hname hrun hoffers.advances.moves.redrawn.size hchild (hp.draws hin)
    fun v hv => ?_).mono ?_
  · exact (hdrawn hv).there.treelike.holds _ _ (by rw [(hdrawn hv).there.children]; simp)
  · rintro _ _ ⟨v, hv, rfl⟩
    exact (hdrawn hv).gains

open Walk in
/-- The wrapper that was just provided is emptied. -/
theorem emptyWrapper_run (hat : w.At f fs done ahead tail) {created : Bool} {id : DomId}
    (hlast : w.cursor.last = some (id, created)) : ∃ w', (emptyWrapper id).run w = .ok ((), w') ∧
      w.document.Redrawn w'.document id [] ∧ w'.cursor = w.cursor ∧
          w'.unresolved = w.unresolved := by
  rw [emptyWrapper, bind_ok (childMode_run hat.frames hlast)]
  generalize (if created then Mode.create else f.mode) = mode
  cases mode with
  | create => exact ⟨w, rfl, .refl hat.treelike _ _, rfl, rfl⟩
  | hydrate => exact ⟨_, rfl, (hat.treelike.clear id).1, rfl, rfl⟩

/-- A wrapper that is provided is emptied and filled. -/
theorem goes_filled {name : Option String} {id : DomId} (hname : ∀ x ∈ name, W.free x)
    (hp : W.Steady p v) (hrun : (claimNode (.wrapper .insert) [] false).run w = .ok (id, w'))
    (hsize : w.document.nodes.size ≤ w'.document.nodes.size)
    (hempty : (emptyWrapper id).run w' = .ok ((), w''))
    (hkept : w'.document.nodes.size ≤ w''.document.nodes.size)
    (hmore : w''.document.nodes.size ≤
      (w''.fill id (v.items.map Fragment.ofJson)).document.nodes.size)
    (hid : id.index < w'.document.nodes.size) :
    Goes W k d rest (fun κ => insert κ name p) w
      fun _ u => u = w''.fill id (v.items.map Fragment.ofJson) := by
  refine (Goes.walking hrun hsize).bind ?_
  rintro id _ ⟨rfl, rfl⟩
  refine (Goes.walking hempty hkept).bind ?_
  rintro _ _ ⟨-, rfl⟩
  refine Goes.currentDrawing.bind ?_
  rintro _ w₂ ⟨rfl, rfl⟩
  have heffect : Goes W k d rest (fun κ => createHiddenEffect κ
      (.insert d.document id p (some d.report)) none) w₂ fun _ w' =>
        w' = w₂.fill id (v.items.map Fragment.ofJson) := by
    refine goes_createEffect fun i e he _ hi => ?_
    simp only [react, he]
    refine (goes_eval hp).bind ?_
    rintro _ _ ⟨rfl, rfl⟩
    refine (Goes.modifyDocument hmore).bind ?_
    rintro _ _ rfl
    have hforget (e : Effect) :
        ({ e with reaction := .insert d.document id p none } : Effect).scope = e.scope ∧
          (e.disposed = true →
            ({ e with reaction := .insert d.document id p none } : Effect).disposed = true) :=
      ⟨rfl, fun h => h⟩
    refine Goes.bind (Goes.step fun s hs =>
      ⟨State.idles_modifyEffect s i hforget, hs.effect hi hforget⟩) ?_
    rintro _ _ rfl
    refine (Goes.modifyReport _).bind ?_
    rintro _ _ rfl
    exact .ret ⟨⟨_, rfl⟩, rfl⟩
  refine heffect.bind ?_
  rintro _ _ rfl
  refine (Goes.bindNode hname (Nat.lt_of_lt_of_le hid (Nat.le_trans hkept hmore))).mono ?_
  rintro _ _ rfl
  rfl

open Walk in
/-- An insert is put and filled. -/
theorem goes_insert {name : Option String} (hname : ∀ x ∈ name, W.free x) (hp : W.Steady p v)
    (hat : w.At f fs done ahead tail) :
    Goes W k d rest (fun κ => insert κ name p) w fun _ w' => w.Gains w' f fs done ahead tail
      [.wrapper .insert (Markup.skeletons (Fragment.trees (v.items.map Fragment.ofJson)))] := by
  obtain ⟨id, w₁, f₁, skipped, used, ahead', hrun, rfl, hoffers⟩ :=
    (hat.claimNode_spec (.wrapper .insert) [] false).offers
  obtain ⟨created, hlast, -⟩ := hoffers.last
  obtain ⟨w₂, hempty, hcleared, hcursor, hunresolved⟩ :=
    emptyWrapper_run hoffers.advances.there hlast
  let ts := Fragment.trees (v.items.map Fragment.ofJson)
  have hempties := (hcleared.treelike.clear id).1
  have hlt : id.index < (w₂.document.clear id).nodes.size :=
    Nat.lt_of_lt_of_le hoffers.lt_size (Nat.le_trans hcleared.size hempties.size)
  have hplanted := (Document.plantUnder_grafted hempties.treelike hlt ts).redrawn
  have hmore : w₂.document.nodes.size ≤ ((w₂.document.clear id).plantUnder id ts).nodes.size :=
    Nat.le_trans hempties.size hplanted.size
  refine (goes_filled hname hp hrun hoffers.advances.moves.redrawn.size hempty hcleared.size hmore
    hoffers.lt_size).mono ?_
  rintro _ _ rfl
  exact (hoffers.adds_fragments (w₂.fill id (v.items.map Fragment.ofJson)) hempty ts rfl rfl
    rfl).gains

end Engine

end Rivulet
