import Rivulet.Proofs.Drafting.Bounding

/-!
# Templates at work

A run of a template turns the walk that it draws with into another one, as its draft says, wherever
the walk is found and whatever else there is. Each call makes one step; the programs that regions,
inserts and boundaries keep run one level further down in the kernel.
-/

namespace Rivulet

open Hydration

/-- What a program that only looks does to a walk is nothing. -/
theorem Draft.of_recite {p : Program} (hp : p.Quiet) {answers left : List (Option Json)} {v : Json}
    (h : p.recite answers = some (v, left)) (w : Sheet) : Draft p w [] (.stop (.value v)) w := by
  induction hp generalizing answers left v with
  | stop u =>
    rw [Program.recite, Option.some.injEq, Prod.mk.injEq] at h
    exact h.1 ▸ .here
  | @op o next looks _ ih =>
    cases answers with
    | nil => cases h
    | cons a answers =>
      rw [Program.recite, if_pos looks] at h
      exact .look (.inl looks) (ih a h)
  | @within e body next enclosure _ _ ihBody ih =>
    rw [Program.recite, if_pos enclosure] at h
    cases hbody : body.recite answers with
    | none =>
      rw [hbody] at h
      cases h
    | some r =>
      obtain ⟨u, answers'⟩ := r
      rw [hbody] at h
      exact .within enclosure (ihBody hbody) (ih u h)

private theorem Draft.of_recites {p : Program} (hp : p.Quiet)
    {answers : List (Option Json)} {v : Json}
    (h : p.Recites answers v) (w : Sheet) : Draft p w [] (.stop (.value v)) w :=
  .of_recite hp (h []) w

namespace Engine

/-- What follows a start up to the end follows it with the start in front. -/
theorem Draft.Starts.drafts {p p' : Program} {w w' w'' : Sheet} {ids ids' : List DomId}
    {depth : Nat} {v : Json} (h : Draft.Starts p w ids p' w')
    (hrest : Drafts depth p' w' ids' v w'') :
    Drafts depth p w (ids ++ ids') v w'' := by
  cases hrest with
  | last draft => exact .last (h draft)
  | leave inside exit rest =>
    rw [← List.append_assoc]
    exact .leave (h inside) exit rest

section

variable {k n : Nat} {d : Drawing} {rest : List Drawing} {w : Sheet} {κ : Kernel}

/-- A program that only looks says something, and draws nothing. -/
theorem turns_quiet (hκ : κ.Glances) {p : Program} (hp : p.Quiet) :
    Turns k d rest (κ.exec p) w fun o w' => p.Says o ∧ w' = w :=
  .idle fun _ _ => hκ.exec hp

/-- A program that only looks gives a value, and draws nothing. -/
theorem turns_eval (hκ : κ.Glances) {p : Program} (hp : p.Quiet) :
    Turns k d rest (κ.eval p) w fun v w' => (∃ answers, p.Recites answers v) ∧ w' = w :=
  .idle fun _ _ => brings_eval hκ hp

/-- A new effect turns the walk as what it does for the first time. -/
theorem turns_createEffect {reaction : Reaction} {supply : Option Supply} {name : Option String}
    {P : Sheet → Prop} (h : ∀ m id e, n = m + 1 → e.reaction = reaction → e.supply = supply →
      Turns k d rest (react (kernel m) id e) w fun o w' => (∃ v, o = .value v) ∧ P w') :
    Turns k d rest (createEffect (kernel n) reaction supply name) w fun _ w' => P w' := by
  intro s hs hclient
  refine brings_createEffect (q := fun c => ∃ w', P w' ∧ s.canvas.Comes d rest w' c)
    fun m id e u hn he hsupply hu => ?_
  refine (h m id e hn he hsupply u (hu.canvas.symm ▸ hs)
    (hu.toPreserves.onClient hclient)).imp ?_
  rintro o u' - ⟨w', ⟨hv, hP⟩, hcomes⟩
  exact ⟨hv, w', hP, hu.canvas ▸ hcomes⟩

/-- Doing something with what a name stands for. -/
theorem turns_withHandle {β : Type} {name : String} {kind? : Handle → Option β}
    {f : β → Run (Option Json)} {P : Option Json → Sheet → Prop} (hnone : P none w)
    (h : ∀ b, Turns k d rest (f b) w P) : Turns k d rest (withHandle name kind? f) w P :=
  .look fun s _ _ => by
    split
    · exact h _
    · exact .ret hnone

/-- Doing something that gives no answer. -/
theorem turns_noAnswer {x : Run Unit} {P : Sheet → Prop}
    (h : Turns k d rest x w fun _ w' => P w') :
    Turns k d rest (noAnswer x) w fun a w' => a = none ∧ P w' :=
  h.bind fun _ _ hP => .ret ⟨rfl, hP⟩

/-- Creating a signal draws nothing. -/
theorem turns_createSignal {o : Op} (ho : o.createsSignal = true) :
    Turns k d rest (performOp κ o) w fun _ w' => w' = w := by
  have hcreate (name : Option String) {handle : NodeId → Handle} (v : Json)
      (hsuits : ∀ {kinds : Array Graph.Kind} {id}, kinds[id.index]? = some .source →
        (handle id).Suits kinds) :
      Turns k d rest (noAnswer (createSignal name handle v)) w fun _ w' => w' = w := by
    refine (turns_noAnswer ((Turns.idle (q := fun _ => True) fun s _ => ?_).mono
      fun _ _ h => h.2)).mono fun _ _ h => h.2
    refine Brings.bind (P := fun id s' => s'.kinds[id.index]? = some .source)
      (.stepGet (fun _ => State.idles_withSource s rfl) fun _ => ?_) fun id s' _ _ hid => ?_
    · show (s.kinds.push Graph.Kind.source)[s.kinds.size]? = _
      rw [Array.getElem?_push, if_pos rfl]
    · exact (Brings.step fun _ => State.idles_bindName (hsuits hid) name).imp fun _ _ _ _ => trivial
  cases o with
  | signal name v => exact hcreate name v fun h => h
  | pair name v => exact hcreate name v fun h => h
  | _ => cases ho

private theorem turns_looks (hκ : κ.Glances) {o : Op} (ho : o.looks = true ∨
    o.createsSignal = true) :
    Turns k d rest (performOp κ o) w fun _ w' => w' = w := by
  rcases ho with ho | ho
  · exact (Turns.idle (q := fun _ => True) fun s _ => brings_looks hκ ho).mono fun _ _ h => h.2
  · exact turns_createSignal ho

/-- A query leaves the walk as it is. -/
theorem turns_query (hκ : κ.Glances) {p : Program} (hp : p.Quiet) (name : Option String)
    (key : String) (shape : Query.Shape) (plan : Query.Plan) :
    Turns k d rest (createQuery κ name key shape plan p) w fun _ w' => w' = w :=
  (Turns.idle (q := fun _ => True) fun _ hs => brings_createQuery hκ hp hs name key shape plan).mono
    fun _ _ h => h.2

private theorem turns_claimAs (name : Option String) (step : WalkM (Json → Program) DomId) :
    Turns k d rest (claimAs name step) w fun id w' => step.run w = .ok (id, w') := by
  refine (Turns.walking step).bind fun id w' hrun => ?_
  refine (Turns.bindNode name id).bind ?_
  rintro _ _ rfl
  exact .ret hrun

/-- Providing a node is a step of the walk. -/
theorem turns_provide {o : Op} {step : WalkM (Json → Program) DomId}
    (ho : o.provides? = some step) :
    Turns k d rest (performOp κ o) w fun a w' => a = none ∧ ∃ id, step.run w = .ok (id, w') := by
  have hclaim (name : Option String) (step : WalkM (Json → Program) DomId) :
      Turns k d rest (noAnswer do let _ ← claimAs name step) w fun a w' =>
        a = none ∧ ∃ id, step.run w = .ok (id, w') :=
    turns_noAnswer ((turns_claimAs name step).bind fun id _ hrun => .ret ⟨id, hrun⟩)
  cases o with
  | claim expected attrs name =>
    cases ho
    exact hclaim name _
  | staticText content name =>
    cases ho
    exact hclaim name _
  | append fragment name =>
    cases ho
    exact hclaim name _
  | _ => cases ho

/-- A program inside a call that leaves the scope and the cursor alone. -/
theorem turns_enclose (hκ : κ.Glances) {e : Enclosure} (he : e.isOpen = true) {body : Program}
    {P : Outcome → Sheet → Prop} (h : Turns k d rest (κ.exec body) w P) :
    Turns k d rest (enclose κ e body) w fun r w' => r.2 = none ∧ P r.1 w' := by
  cases e with
  | plain => exact h.bind fun _ _ hP => .ret ⟨rfl, hP⟩
  | batch => exact (h.batch hκ).bind fun _ _ hP => .ret ⟨rfl, hP⟩
  | untrack => exact h.untracked.bind fun _ _ hP => .ret ⟨rfl, hP⟩
  | _ => cases he

/-- Creating a computed value draws nothing. -/
theorem turns_createComputed {name : Option String} {p : Program} (hp : p.Quiet) :
    Turns k d rest (createComputed name p) w fun _ w' => w' = w := by
  refine (Turns.idle (q := fun _ => True) fun s _ => ?_).mono fun _ _ h => h.2
  rw [createComputed_eq]
  refine Brings.bind (P := fun id s' => s'.kinds[id.index]? = some .derived)
    (.stepGet (fun _ => State.idles_withComputed s hp) fun _ => kinds_created ..)
    fun id s' _ _ hid => ?_
  exact (Brings.step fun _ => State.idles_bindName (h := .computed id) hid name).imp
    fun _ _ _ _ => trivial

private theorem turns_effect {name : Option String} {p : Program} (hp : p.Quiet) (fallible : Bool) :
    Turns k d rest (createEffect (kernel n) (.body p fallible) none name) w fun _ w' => w' = w :=
  turns_createEffect fun m id e _ he _ => by
    rw [react, he]
    refine (turns_quiet (glances_kernel m) hp).mono ?_
    rintro _ w' ⟨⟨v, answers, rfl, -⟩, hw'⟩
    exact ⟨⟨v, rfl⟩, hw'⟩

private theorem turns_addCleanup {p : Program} (hp : p.Quiet) :
    Turns k d rest (addCleanup p) w fun _ w' => w' = w := by
  refine (Turns.idle (q := fun _ => True) fun s _ => ?_).mono fun _ _ h => h.2
  refine .stepGet (fun _ => ?_) fun _ => trivial
  split
  · rename_i scopes hscopes
    exact State.idles_addCleanup (c := .program p) hp hscopes
  · exact .refl s

/-- The check that a node is there draws nothing. -/
theorem turns_ensureNode (document : DocumentId) (node : DomId) :
    Turns k d rest (ensureNode document node) w fun _ w' => w' = w :=
  .look fun _ _ _ => .ite (fun _ => .ret rfl) fun _ => .raise _

/-- A listener changes nothing about the nodes. -/
theorem turns_listen (node : DomId) (event : String) (action : Json → Program) :
    Turns k d rest (listen node event action) w fun _ w' => ∃ document,
      w.document.SameNodes document ∧ w' = { w with document } := by
  refine Turns.currentDrawing.bind ?_
  rintro _ _ ⟨rfl, rfl⟩
  refine (turns_ensureNode d.document node).bind ?_
  rintro _ w' rfl
  intro s hs _
  let listener := (s.document d.document).listen node event action
  let u : State := s.modifyDocument d.document fun _ => listener.2
  have hsame : w'.document.SameNodes listener.2 := hs.document_eq ▸ .listen _ _ _ _
  have hpreserves : s.Preserves u :=
    State.preserves_aside ⟨rfl, rfl, rfl, rfl, rfl, rfl, rfl, rfl⟩ rfl rfl
  have hcomes : s.canvas.Comes d rest { w' with document := listener.2 } u.canvas := by
    refine hs.withDocument ?_
    show (s.documents.modify d.document.index _)[d.document.index]? = _
    rw [Array.getElem?_modify, if_pos rfl, show s.documents[_]? = _ from hs.document,
      Option.map_some]
  refine .stepGet (fun _ => ?_) fun _ => ?_ <;> simp only <;> split
  · exact .refl s
  · rename_i scopes hscopes
    have hcleanup := (State.idles_addCleanup (s := u) (c := .unlisten d.document node listener.1)
      trivial hscopes).toPreserves
    exact hpreserves.trans hcleanup
  · exact ⟨w', ⟨w'.document, .refl _, rfl⟩, hs.comes⟩
  · exact ⟨_, ⟨listener.2, hsame, rfl⟩, hcomes⟩

/-- An attribute that follows a value is written. -/
theorem turns_bindAttr (node : DomId) (name : String) {p : Program} (hp : p.Quiet) :
    Turns k d rest (bindAttr (kernel n) node name p) w fun _ w' => ∃ document,
      w.document.Dressed document ∧ w' = { w with document } := by
  refine Turns.currentDrawing.bind ?_
  rintro _ _ ⟨rfl, rfl⟩
  refine turns_createEffect fun m id e _ he _ => ?_
  rw [react, he]
  refine (turns_eval (glances_kernel m) hp).bind ?_
  rintro v _ ⟨-, rfl⟩
  refine (turns_ensureNode d.document node).bind ?_
  rintro _ w' rfl
  have hwrite (f : Markup.Attributes → Markup.Attributes) : Turns k d rest (do
      modify (·.modifyDocument d.document fun d => d.modifyKind node (·.mapAttrs f))
      return Outcome.value .null) w' fun o u => (∃ v, o = .value v) ∧ ∃ document,
        w'.document.Dressed document ∧ u = { w' with document } := by
    refine (Turns.modifyDocument _).bind ?_
    rintro _ _ rfl
    exact .ret ⟨⟨_, rfl⟩, _, .mapAttrs _ _ _, rfl⟩
  split
  · exact hwrite (·.drop name)
  · exact hwrite (·.put name v.display)

/-! ## Parts of the walk -/

open Walk in
/-- A look at what is done below a node changes nothing. -/
theorem childMode_run_eq {w w' : Sheet} {mode : Mode} (h : childMode.run w = .ok (mode, w')) :
    w' = w := by
  rw [childMode, bind_ok (x := get) (b := w) rfl] at h
  split at h
  · cases h
    rfl
  · rw [Walk.mode] at h
    cases hframe : (frame : WalkM (Json → Program) Frame).run w with
    | error e =>
      rw [StateT.run_bind, hframe] at h
      cases h
    | ok r =>
      obtain ⟨f, u⟩ := r
      rw [bind_ok hframe] at h
      cases h
      exact frame_run_eq hframe

open Walk in
/-- A text that follows a value is provided and written. -/
theorem turns_dynText (name : Option String) {p : Program} (hp : p.Quiet) :
    Turns k d rest (dynText (kernel n) name p) w fun _ w' => ∃ id w₁ v answers,
      (claimNode (.text "") [] false).run w = .ok (id, w₁) ∧ p.Recites answers v ∧
        w' = w₁.modifyDocument (·.setText id v.display) := by
  refine (Turns.walking _).bind fun id w₁ hrun => ?_
  refine Turns.currentDrawing.bind ?_
  rintro _ w' ⟨rfl, rfl⟩
  have heffect : Turns k d rest
      (createHiddenEffect (kernel n) (.text d.document id p) none) w' fun _ u =>
        ∃ v answers, p.Recites answers v ∧ u = w'.modifyDocument (·.setText id v.display) := by
    refine turns_createEffect fun m i e _ he _ => ?_
    rw [react, he]
    refine (turns_eval (glances_kernel m) hp).bind ?_
    rintro v _ ⟨⟨answers, hv⟩, rfl⟩
    refine (Turns.modifyDocument _).bind ?_
    rintro _ _ rfl
    exact .ret ⟨⟨_, rfl⟩, v, answers, hv, rfl⟩
  refine heffect.bind ?_
  rintro _ w₂ ⟨v, answers, hv, rfl⟩
  refine (Turns.bindNode name id).mono ?_
  rintro _ _ rfl
  exact ⟨id, w', v, answers, hrun, hv, rfl⟩

/-- What a region draws for the first time. -/
theorem turns_drawRegion {rules : Rules} {p : Program} (hκ : ∀ m < n, (kernel m).Follows)
    (hp : p.Draws rules false 0) (wrapper : DomId) (mode : Mode) {supply : Option Supply}
    (hsupply : ∀ pass, supply ≠ some (.server pass)) :
    Turns k d rest (createHiddenEffect (kernel n)
      (.region d.document wrapper p (some ⟨mode, d.report, d.flag⟩)) supply) w fun _ w' =>
        ∃ v ids w₂, Draft p (w.onLevel (.open w.document wrapper mode)) ids (.stop (.value v)) w₂ ∧
          w' = w₂.finish.back w.cursor := by
  refine turns_createEffect fun m id e hm he hsame => ?_
  rw [react, he]
  refine .withSupply (hsame ▸ hsupply) ?_
  have hdraw : Turns k d rest (drawing { d with cursor := ⟨[.open w.document wrapper mode], none⟩ }
      ((kernel m).perform p)) w fun _ w' => ∃ v ids w₂,
        Draft p (w.onLevel (.open w.document wrapper mode)) ids (.stop (.value v)) w₂ ∧
          w' = w₂.finish.back w.cursor := by
    have hperform (rest' : List Drawing) : Turns k
        { d with cursor := ⟨[.open w.document wrapper mode], none⟩ } rest' ((kernel m).perform p)
        (w.onLevel (.open w.document wrapper mode)) fun _ w₂ => ∃ v ids,
          Draft p (w.onLevel (.open w.document wrapper mode)) ids (.stop (.value v)) w₂ := by
      refine (hκ m (hm ▸ Nat.lt_succ_self m) hp).bind ?_
      rintro _ w₂ ⟨v, ids, rfl, hdraft⟩
      exact .ret ⟨v, ids, hdraft⟩
    refine (Turns.drawing hperform).mono ?_
    rintro _ _ ⟨w₂, ⟨v, ids, hdraft⟩, rfl⟩
    exact ⟨v, ids, w₂, hdraft, rfl⟩
  refine Turns.bind (Turns.step (f := (·.modifyEffect id
    ({ · with reaction := .region d.document wrapper p none })))
      fun s => State.idles_modifyEffect s id fun _ => ⟨rfl, fun h => h⟩) ?_
  rintro _ w' rfl
  refine .look fun s hs _ => ?_
  rw [hs.document_eq]
  exact hdraw.bind fun _ _ hP => .ret ⟨⟨_, rfl⟩, hP⟩

open Walk in
/-- A region is put, and draws for the first time. -/
theorem turns_region {rules : Rules} (name : Option String) {p : Program}
    (hκ : ∀ m < n, (kernel m).Follows) (hp : p.Draws rules false 0) :
    Turns k d rest (region (kernel n) name p) w fun _ w' => ∃ id mode w₁ v ids w₂,
      (claimNode (.wrapper .region) [] false).run w = .ok (id, w₁) ∧
        childMode.run w₁ = .ok (mode, w₁) ∧
        Draft p (w₁.onLevel (.open w₁.document id mode)) ids (.stop (.value v)) w₂ ∧
          w' = w₂.finish.back w₁.cursor := by
  refine (Turns.walking _).bind fun id w₁ hrun => ?_
  refine (Turns.walking _).bind fun mode _ hmode => ?_
  obtain rfl := childMode_run_eq hmode
  refine Turns.currentDrawing.bind ?_
  rintro _ w' ⟨rfl, rfl⟩
  refine .look fun s _ hclient => ?_
  refine (turns_drawRegion (d := d) hκ hp id mode hclient).bind ?_
  rintro _ _ ⟨v, ids, w₂, hdraft, rfl⟩
  refine (Turns.bindNode name id).mono ?_
  rintro _ _ rfl
  exact ⟨id, mode, w', v, ids, w₂, hrun, hmode, hdraft, rfl⟩

open Walk in
/-- An insert is put and filled. -/
theorem turns_insert (name : Option String) {p : Program} (hp : p.Quiet) :
    Turns k d rest (insert (kernel n) name p) w fun _ w' => ∃ id w₁ w₂ v answers,
      (claimNode (.wrapper .insert) [] false).run w = .ok (id, w₁) ∧
        (emptyWrapper id).run w₁ = .ok ((), w₂) ∧ p.Recites answers v ∧
          w' = (w₂.modifyDocument fun d =>
            (d.clear id).plantUnder id (Fragment.trees (v.items.map Fragment.ofJson))).modifyReport
              (·.addCreated (Fragment.sizes (v.items.map Fragment.ofJson))) := by
  refine (Turns.walking _).bind fun id w₁ hrun => ?_
  refine (Turns.walking _).bind fun _ w₂ hempty => ?_
  refine Turns.currentDrawing.bind ?_
  rintro _ w' ⟨rfl, rfl⟩
  have heffect : Turns k d rest (createHiddenEffect (kernel n)
      (.insert d.document id p (some d.report)) none) w' fun _ u => ∃ v answers,
        p.Recites answers v ∧ u = (w'.modifyDocument fun d =>
          (d.clear id).plantUnder id (Fragment.trees (v.items.map Fragment.ofJson))).modifyReport
            (·.addCreated (Fragment.sizes (v.items.map Fragment.ofJson))) := by
    refine turns_createEffect fun m i e _ he _ => ?_
    rw [react, he]
    refine (turns_eval (glances_kernel m) hp).bind ?_
    rintro v _ ⟨⟨answers, hv⟩, rfl⟩
    refine (Turns.modifyDocument _).bind ?_
    rintro _ _ rfl
    refine Turns.bind (Turns.step (f := (·.modifyEffect i
      ({ · with reaction := .insert d.document id p none })))
        fun s => State.idles_modifyEffect s i fun _ => ⟨rfl, fun h => h⟩) ?_
    rintro _ _ rfl
    refine (Turns.modifyReport _).bind ?_
    rintro _ _ rfl
    exact .ret ⟨⟨_, rfl⟩, v, answers, hv, rfl⟩
  refine heffect.bind ?_
  rintro _ _ ⟨v, answers, hv, rfl⟩
  refine (Turns.bindNode name id).mono ?_
  rintro _ _ rfl
  exact ⟨id, w₁, w', v, answers, hrun, hempty, hv, rfl⟩

/-- A program that is kept beside the walk. -/
theorem turns_aside {i : Install} (hi : i.isAside = true) {body : Json → Program}
    (hbody : (∃ node event, i = .listener node event) ∨ (body .null).Quiet) :
    Turns k d rest (performInstall (kernel n) body i) w fun _ w' => ∃ document,
      w.document.SameNodes document ∧ w' = { w with document } := by
  have hnothing {x : Run (Option Json)} (h : Turns k d rest x w fun _ w' => w' = w) :
      Turns k d rest x w fun _ w' => ∃ document, w.document.SameNodes document ∧
        w' = { w with document } :=
    h.mono fun _ _ hw' => ⟨w.document, .refl _, hw'⟩
  cases i with
  | listener node event =>
    refine turns_withHandle ⟨w.document, .refl _, rfl⟩ fun b => ?_
    refine (turns_listen b.2 event body).bind fun added w' hw' => ?_
    split
    · exact .ret hw'
    · exact .ret hw'
  | computed name =>
    have hquiet : (body .null).Quiet := hbody.resolve_left (by simp)
    exact hnothing ((turns_noAnswer (turns_createComputed hquiet)).mono fun _ _ h => h.2)
  | effect name fallible =>
    have hquiet : (body .null).Quiet := hbody.resolve_left (by simp)
    exact hnothing ((turns_noAnswer (turns_effect hquiet fallible)).mono fun _ _ h => h.2)
  | cleanup =>
    have hquiet : (body .null).Quiet := hbody.resolve_left (by simp)
    exact hnothing (turns_addCleanup hquiet)
  | _ => cases hi

/-- What is left of a template follows a step. -/
theorem turns_behind {p p' : Program} {w' : Sheet} {depth : Nat} (ids : List DomId)
    (hstart : Draft.Starts p w ids p' w')
    (h : Turns k d rest (exec κ p') w' fun o w'' =>
      ∃ v ids', o = .value v ∧ Drafts depth p' w' ids' v w'') :
    Turns k d rest (exec κ p') w' fun o w'' =>
      ∃ v ids', o = .value v ∧ Drafts depth p w ids' v w'' :=
  h.mono fun _ _ ⟨v, ids', ho, hdrafts⟩ => ⟨v, ids ++ ids', ho, hstart.drafts hdrafts⟩

open Walk in
/-- A run of a template does what its draft says. -/
theorem turns_exec {rules : Rules} {ready : Bool} {depth : Nat} {p : Program}
    (hκ : ∀ m ≤ n, (kernel m).Follows) (hp : p.Draws rules ready depth) :
    Turns k d rest (exec (kernel n) p) w fun o w' =>
      ∃ v ids, o = .value v ∧ Drafts depth p w ids v w' := by
  have hglances := glances_kernel n
  induction hp generalizing w with
  | stop v => exact .ret ⟨v, [], rfl, .last .here⟩
  | look looks _ ih =>
    refine (turns_looks hglances looks).bind fun a w' hw' => ?_
    subst hw'
    exact turns_behind [] (fun h => .look looks h) (ih a)
  | query inside _ ih =>
    refine (turns_query hglances inside _ _ _ _).bind ?_
    rintro _ _ rfl
    exact turns_behind [] (fun h => .query h) ih
  | provide provides _ ih =>
    obtain ⟨step, hstep⟩ := Option.isSome_iff_exists.1 provides
    refine (turns_provide hstep).bind ?_
    rintro _ w' ⟨rfl, id, hrun⟩
    exact turns_behind _ (fun h => .provide hstep hrun h) ih
  | enter _ ih =>
    refine (turns_noAnswer (P := fun w' => enterChildren.run w = .ok ((), w'))
      (Turns.walking enterChildren)).bind ?_
    rintro _ w₁ ⟨rfl, henter⟩
    refine ih.mono ?_
    rintro _ w' ⟨v, ids, rfl, hdrafts⟩
    cases hdrafts with
    | leave inside exit rest =>
      exact ⟨v, _, rfl, Draft.Starts.drafts (fun h => .enter henter inside exit h) rest⟩
  | exit _ ih =>
    refine (turns_noAnswer (P := fun w' => exitChildren.run w = .ok ((), w'))
      (Turns.walking exitChildren)).bind ?_
    rintro _ w₁ ⟨rfl, hexit⟩
    refine ih.mono ?_
    rintro _ w' ⟨v, ids, rfl, hdrafts⟩
    exact ⟨v, _, rfl, .leave .here hexit hdrafts⟩
  | thought enclosure inside _ ih =>
    refine (turns_enclose hglances enclosure (turns_quiet hglances inside)).bind ?_
    rintro ⟨_, _⟩ w' ⟨rfl, ⟨v, answers, rfl, hsays⟩, rfl⟩
    exact turns_behind [] (fun h => .within enclosure (.of_recites inside hsays _) h) (ih v)
  | part enclosure inside _ _ ih =>
    refine (turns_enclose hglances enclosure (hκ n (Nat.le_refl n) inside)).bind ?_
    rintro ⟨_, _⟩ w' ⟨rfl, v, ids, rfl, hdraft⟩
    exact turns_behind _ (fun h => .within enclosure hdraft h) (ih v)
  | keep aside inside _ ih =>
    refine (turns_aside aside (.inr inside)).bind ?_
    rintro a _ ⟨document, hsame, rfl⟩
    exact turns_behind [] (fun h => .aside aside hsame h) (ih a)
  | listen _ ih =>
    refine (turns_aside rfl (.inl ⟨_, _, rfl⟩)).bind ?_
    rintro a _ ⟨document, hsame, rfl⟩
    exact turns_behind [] (fun h => .aside rfl hsame h) (ih a)
  | @attr _ _ node name body _ _ inside _ ih =>
    have hbind : Turns k d rest (performInstall (kernel n) body (.attr node name)) w fun _ w' =>
        ∃ document, w.document.Dressed document ∧ w' = { w with document } :=
      turns_withHandle ⟨w.document, .refl _, rfl⟩ fun b =>
        (turns_noAnswer (turns_bindAttr b.2 name inside)).mono fun _ _ h => h.2
    refine hbind.bind ?_
    rintro a _ ⟨document, hdressed, rfl⟩
    exact turns_behind [] (fun h => .attr hdressed h) (ih a)
  | text inside _ ih =>
    refine (turns_noAnswer (turns_dynText _ inside)).bind ?_
    rintro _ _ ⟨rfl, id, w₁, v, answers, hrun, hrecites, rfl⟩
    exact turns_behind _ (fun h => .text hrun hrecites h) ih
  | region inside _ _ ih =>
    refine (turns_noAnswer (turns_region _ (fun m hm => hκ m (Nat.le_of_lt hm)) inside)).bind ?_
    rintro _ _ ⟨rfl, id, mode, w₁, v, ids, w₂, hrun, hmode, hdraft, rfl⟩
    refine turns_behind (w.claims [id] ++ ids) (fun h => ?_) ih
    rw [List.append_assoc]
    exact .region hrun hmode hdraft h
  | insert inside _ ih =>
    refine (turns_noAnswer (turns_insert _ inside)).bind ?_
    rintro _ _ ⟨rfl, id, w₁, w₂, v, answers, hrun, hempty, hrecites, rfl⟩
    exact turns_behind _ (fun h => .insert hrun hempty hrecites h) ih
  | @boundary _ depth p content next hboundary inside _ _ ih =>
    have hput (fallback : Option (Json → Program)) :
        Turns k d rest (boundary (kernel n) content fallback >>= fun _ => exec (kernel n) next) w
          fun o w' => ∃ v ids, o = .value v ∧ Drafts depth p w ids v w' := by
      refine (turns_boundary (hκ n (Nat.le_refl n)) inside fallback).bind ?_
      rintro _ _ ⟨m, f, w₁, ids, w₂, hmarkers, hframe, hbounded, rfl⟩
      exact turns_behind _ (hbounded.starts hboundary hmarkers hframe) ih
    cases p with
    | guarded fallback content next =>
      cases hboundary
      exact hput _
    | install i body next =>
      cases i with
      | boundary =>
        cases hboundary
        rw [exec, performInstall, noAnswer, bind_assoc]
        exact hput none
      | _ => cases hboundary
    | _ => cases hboundary

/-- At every depth templates turn walks as their drafts say. -/
theorem follows_kernel (n : Nat) : (kernel n).Follows := by
  induction n using Nat.strong_induction_on with
  | _ n ih =>
    intro rules ready p hp k d rest w
    cases n with
    | zero =>
      intro s _ _ _ o s' hrun
      cases hrun
    | succ n =>
      refine (turns_exec (fun m hm => ih m (Nat.lt_succ_of_le hm)) hp).mono ?_
      rintro _ w' ⟨v, ids, rfl, hdrafts⟩
      cases hdrafts with
      | last draft => exact ⟨v, ids, rfl, draft⟩

end

end Engine

end Rivulet
