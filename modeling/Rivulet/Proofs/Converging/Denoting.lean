import Rivulet.Proofs.Converging.Mounting
import Rivulet.Proofs.Drafting.Creating

/-!
# Templates put what they stand for

What a template stands for is told beforehand, from what its looks answer: what the signals hold. A
walk that creates comes to its end, whatever the engine does beside, and puts just these trees
behind what is there.
-/

namespace Rivulet.Engine

open Markup Hydration Walk

variable {W : World} {e : Outlook} {k : Nat} {d : Drawing} {rest : List Drawing} {w w' : Sheet}
  {f : Hydration.Frame} {fs : List Hydration.Frame} {name : Option String} {p content : Program}
  {v : Json} {ts : List Tree} {levels levels' : Levels}

/-- What is told of templates is true. -/
structure World.Grants (W : World) (e : Outlook) : Prop where
  /-- Looks have the answers that are told. -/
  answers : ∀ {o a}, e.answer? o = some a → W.Answers o a
  /-- A name that may be given to a node is free. -/
  free : ∀ {x}, e.free x = true → W.free x

private theorem World.Grants.named (h : W.Grants e) (hname : name.all e.free = true) :
    ∀ x ∈ name, W.free x := by
  rintro x rfl
  exact h.free hname

/-- A program that only looks comes to what is foretold. -/
theorem World.Grants.steady (hW : W.Grants e) (h : p.foretell e = some v) : W.Steady p v := by
  fun_induction Program.foretell e p generalizing v with
  | case1 u =>
    cases h
    exact .ret u
  | case2 o next ih =>
    obtain ⟨a, ha, hnext⟩ := Option.bind_eq_some_iff.1 h
    exact .op (hW.answers ha) (ih a hnext)
  | case3 body next ih ih' =>
    obtain ⟨u, hbody, hnext⟩ := Option.bind_eq_some_iff.1 h
    exact .within (ih hbody) (ih' u hnext)
  | case4 => cases h

/-- A program puts trees on a level of its own. -/
def World.Places (W : World) (p : Program) (ts : List Tree) : Prop :=
  ∀ {w : Sheet} {f : Hydration.Frame}, w.Stands f [] →
    W.Draws p w fun u => ∃ new, u.Creates f [] w.document new ∧ u.trees new = ts

/-- A text is put that follows a value. -/
theorem goes_put_text (hname : ∀ x ∈ name, W.free x) (hp : W.Steady p v) (hw : w.Stands f fs) :
    Goes W k d rest (fun κ => dynText κ name p) w
      fun _ w' => ∃ more, w.Puts w' f fs more [.leaf (.text v.display)] := by
  obtain ⟨id, w₁, hrun, hputs⟩ := hw.claimed (.text "") [] false
  have hid := hputs.gains.lt_size (List.mem_singleton_self id)
  refine (goes_written hname hp hrun hputs.gains.size hid).mono ?_
  rintro _ _ rfl
  exact ⟨[id], hputs.written v.display⟩

/-- A region is put, and what it draws stands inside of its wrapper. -/
theorem goes_put_region (hname : ∀ x ∈ name, W.free x) (hp : W.Places p ts) (hw : w.Stands f fs) :
    Goes W k d rest (fun κ => region κ name p) w
      fun _ w' => ∃ more, w.Puts w' f fs more [.node (.wrapper .region []) ts] := by
  obtain ⟨id, w₁, hrun, hputs⟩ := hw.claimed (.wrapper .region) [] false
  have hid := hputs.gains.lt_size (List.mem_singleton_self id)
  refine (goes_drawn hname hrun hputs.gains.size hputs.childMode_run (hp hputs.opened) ?_).mono ?_
  · rintro u ⟨new, hu, -⟩
    rw [hu.document_finish]
    exact Nat.lt_of_lt_of_le hid hu.gains.size
  · rintro _ _ ⟨u, ⟨new, hu, rfl⟩, rfl⟩
    exact ⟨[id], hputs.filled hw hu.gains hu.document_finish rfl⟩

/-- An insert is put, and the fragments stand inside of its wrapper. -/
theorem goes_put_insert (hname : ∀ x ∈ name, W.free x) (hp : W.Steady p v) (hw : w.Stands f fs) :
    Goes W k d rest (fun κ => insert κ name p) w fun _ w' => ∃ more, w.Puts w' f fs more
      [.node (.wrapper .insert []) (Fragment.trees (v.items.map Fragment.ofJson))] := by
  obtain ⟨id, w₁, hrun, hputs⟩ := hw.claimed (.wrapper .insert) [] false
  have hid := hputs.gains.lt_size (List.mem_singleton_self id)
  have hclear : w₁.document.clear id = w₁.document := by
    rw [Document.clear, hputs.children]
    rfl
  obtain ⟨inner, hgains, htrees⟩ := Document.gains_plantUnder hputs.gains.treelike hid
    (Fragment.trees (v.items.map Fragment.ofJson)) (Fragment.holdable_trees _)
  have hdocument : (w₁.fill id (v.items.map Fragment.ofJson)).document =
      w₁.document.plantUnder id (Fragment.trees (v.items.map Fragment.ofJson)) :=
    congrArg (·.plantUnder id (Fragment.trees (v.items.map Fragment.ofJson))) hclear
  refine (goes_filled hname hp hrun hputs.gains.size hputs.emptyWrapper_run (Nat.le_refl _)
    (hdocument ▸ hgains.size) hid).mono ?_
  rintro _ _ rfl
  have hfilled := hputs.filled hw hgains hdocument rfl
  rw [htrees] at hfilled
  exact ⟨[id], hfilled⟩

/-- A boundary is put, and its content stands between its ends. -/
theorem goes_put_boundary (hcontent : W.Places content ts) (fallback : Option (Json → Program))
    (hw : w.Stands f fs) : Goes W k d rest (fun κ => boundary κ content fallback) w
      fun _ w' => ∃ more, w.Puts w' f fs more (enclosed ts) := by
  obtain ⟨m, w₁, hrun, hmarks⟩ := hw.marked
  have hframe : Walk.frame.run w₁ = .ok (f, w₁) := frame_run (hmarks.cursor ▸ hw.frames)
  have hbounds : W.Bounds content w₁ f.parent m fun w' =>
      ∃ more, w.Puts (w'.setLast m.closing true) f fs more (enclosed ts) := by
    intro k d rest
    refine (hcontent (hmarks.amid hw) k d rest).mono ?_
    rintro _ u ⟨new, hu, rfl⟩
    refine ⟨fun _ => ⟨_, hmarks.puts hw hu.gains hu.document_finish rfl⟩, fun hmode => ?_⟩
    rw [hmarks.mode] at hmode
    cases hmode
  refine (goes_boundary hrun hmarks.gains.size hframe hbounds fallback).mono ?_
  rintro _ _ ⟨u, hputs, rfl⟩
  rwa [hmarks.mode]

/-- What is put for a program is put where the walk stands. -/
theorem goes_install {i : Install} {body : Json → Program} {told : Option Json}
    {inside : Option (List Tree)} (hname : ∀ x ∈ i.name?, W.free x)
    (htold : ∀ v, told = some v → W.Steady (body .null) v)
    (hinside : ∀ ts, inside = some ts → W.Places (body .null) ts)
    (hdraws : i.draws? told inside = some ts) (hw : w.Stands f fs) :
    Goes W k d rest (fun κ => performInstall κ body i) w
      fun a w' => a = none ∧ ∃ more, w.Puts w' f fs more ts := by
  cases i with
  | dynText name =>
    obtain ⟨v, hv, rfl⟩ := Option.map_eq_some_iff.1 hdraws
    exact goes_noAnswer (goes_put_text hname (htold v hv) hw)
  | region name =>
    obtain ⟨us, hus, rfl⟩ := Option.map_eq_some_iff.1 hdraws
    exact goes_noAnswer (goes_put_region hname (hinside us hus) hw)
  | insert name =>
    obtain ⟨v, hv, rfl⟩ := Option.map_eq_some_iff.1 hdraws
    exact goes_noAnswer (goes_put_insert hname (htold v hv) hw)
  | boundary =>
    obtain ⟨us, hus, rfl⟩ := Option.map_eq_some_iff.1 hdraws
    exact goes_noAnswer (goes_put_boundary (hinside us hus) none hw)
  | _ => cases hdraws

/-- A call that provides a node has provided it. -/
theorem goes_provided {step : WalkM (Json → Program) DomId} {id : DomId} {t : Tree}
    (hname : ∀ x ∈ name, W.free x) (hrun : step.run w = .ok (id, w'))
    (hputs : w.Puts w' f fs [id] [t]) :
    Goes W k d rest (fun _ => noAnswer do let _ ← claimAs name step) w
      fun a u => a = none ∧ w.Puts u f fs [id] [t] := by
  have hid := hputs.gains.lt_size (List.mem_singleton_self id)
  refine goes_called (P := fun u => w.Puts u f fs [id] [t])
    ((goes_named hname hrun hputs.gains.size hid).mono ?_)
  rintro _ _ ⟨rfl, rfl⟩
  exact hputs

/-- A program that draws has put what it stands for on the levels that are open. -/
def World.Sketches (W : World) (p : Program) (levels : Levels) (v : Json) (levels' : Levels) :
    Prop :=
  ∀ {k : Nat} {d : Drawing} {rest : List Drawing} {w : Sheet} {f : Hydration.Frame}
    {fs : List Hydration.Frame} {page : Document (Json → Program)}, w.Builds f fs page levels →
      Goes W k d rest (fun κ => exec κ p) w fun o w' => o = .value v ∧ w'.Builds f fs page levels'

private theorem World.Sketches.places (h : W.Sketches p [[]] v [ts]) : W.Places p ts :=
  fun hw _ _ _ => (goes_callExec (h (.of_stands hw))).bind fun _ _ ⟨_, hbuilds⟩ =>
    .ret hbuilds.only

/-- A call that draws does to the levels that are open what it stands for. -/
theorem sketches_op {o : Op} {next : Option Json → Program} {levels₁ : Levels}
    (hname : ∀ x ∈ o.name?, W.free x) (hdraws : o.draws? levels = some levels₁)
    (hnext : W.Sketches (next none) levels₁ v levels') :
    W.Sketches (.op o next) levels v levels' := by
  intro k d rest w f fs page hw
  obtain ⟨g, gs, hstands, hput⟩ := hw.stands
  cases o with
  | claim expected attrs name =>
    cases hdraws
    obtain ⟨id, w₁, hrun, hputs⟩ := hstands.claimed expected attrs true
    simp only [exec, performOp]
    refine (goes_provided hname hrun hputs).bind ?_
    rintro _ w₂ ⟨rfl, hputs⟩
    exact hnext (hput hputs)
  | staticText content name =>
    cases hdraws
    obtain ⟨id, w₁, hrun, hputs⟩ := hstands.claimed (.text content) [] false
    simp only [exec, performOp]
    refine (goes_provided hname hrun hputs).bind ?_
    rintro _ w₂ ⟨rfl, hputs⟩
    exact hnext (hput hputs)
  | append fragment name =>
    cases hdraws
    obtain ⟨id, w₁, hrun, hputs⟩ := hstands.appended fragment
    simp only [exec, performOp]
    refine (goes_provided hname hrun hputs).bind ?_
    rintro _ w₂ ⟨rfl, hputs⟩
    exact hnext (hput hputs)
  | enter =>
    obtain ⟨g, gs, x, hframes, hlast, hinside⟩ := hw.enter hdraws
    exact goes_enter hframes hlast (hnext hinside)
  | exit =>
    obtain ⟨i, g, gs, hframes, hbehind⟩ := hw.exit hdraws
    exact goes_exit hframes (hnext hbehind)
  | _ => cases hdraws

/-- A template comes to its end, and puts what it stands for. -/
theorem sketches_of_sketch (hW : W.Grants e) (h : p.sketch e levels = some (v, levels')) :
    W.Sketches p levels v levels' := by
  fun_induction Program.sketch e p levels generalizing v levels' with
  | case1 u levels =>
    intro k d rest w f fs page hw
    cases h
    simp only [exec]
    exact .ret ⟨rfl, hw⟩
  | case2 o next levels a answers ih =>
    intro k d rest w f fs page hw
    simp only [exec]
    refine (goes_look (hW.answers answers)).bind ?_
    rintro _ _ ⟨rfl, rfl⟩
    exact ih h hw
  | case3 o next levels unknown free ih =>
    obtain ⟨levels₁, hdraws, hrest⟩ := Option.bind_eq_some_iff.1 h
    exact sketches_op (hW.named free) hdraws (ih levels₁ hrest)
  | case5 body next levels ih ih' =>
    intro k d rest w f fs page hw
    obtain ⟨⟨u, levels₁⟩, hbody, hrest⟩ := Option.bind_eq_some_iff.1 h
    simp only [exec, enclose, bind_assoc, pure_bind]
    refine (goes_callExec (ih hbody hw)).bind ?_
    rintro _ w₁ ⟨rfl, hw₁⟩
    exact ih' u levels₁ hrest hw₁
  | case6 i body next levels free ih ih' =>
    intro k d rest w f fs page hw
    obtain ⟨ts, hdraws, hrest⟩ := Option.bind_eq_some_iff.1 h
    obtain ⟨g, gs, hstands, hput⟩ := hw.stands
    have hinside : ∀ us, ((body .null).sketch e [[]]).bind (·.2.only?) = some us →
        W.Places (body .null) us := by
      intro us hus
      obtain ⟨⟨u, inside⟩, hbody, honly⟩ := Option.bind_eq_some_iff.1 hus
      obtain rfl := Levels.only?_eq_some honly
      exact World.Sketches.places (ih hbody)
    simp only [exec]
    refine (goes_install (hW.named free) (fun _ => hW.steady) hinside hdraws hstands).bind ?_
    rintro _ w₁ ⟨rfl, more, hputs⟩
    exact ih' ts hrest (hput hputs)
  | case8 fallback content next levels ih ih' =>
    intro k d rest w f fs page hw
    obtain ⟨ts, hinside, hrest⟩ := Option.bind_eq_some_iff.1 h
    obtain ⟨⟨u, inside⟩, hbody, honly⟩ := Option.bind_eq_some_iff.1 hinside
    obtain rfl := Levels.only?_eq_some honly
    obtain ⟨g, gs, hstands, hput⟩ := hw.stands
    simp only [exec]
    refine (goes_put_boundary (World.Sketches.places (ih hbody)) (some fallback) hstands).bind ?_
    rintro _ w₁ ⟨more, hputs⟩
    exact ih' ts hrest (hput hputs)
  | _ => cases h

/-! ## What the signals tell -/

/-- What the signal with a name holds, if there is one. -/
def State.told? (s : State) (name : String) : Option Json :=
  match s.handle? name with
  | some (.signal id) =>
    match s.cells[id]? with
    | some (.signal v) => some v
    | _ => none
  | _ => none

/-- What the signals of a state tell of templates, which may use all names that stand for
nothing. -/
def State.outlook (s : State) : Outlook where
  answer?
    | .get name | .peek name => (s.told? name).map some
    | .size name => (s.told? name).map fun v => some (.ofNat (Text.byteLength v.print))
    | .log _ => some none
    | _ => none
  free name := (s.handle? name).isNone

theorem State.told?_eq_some {s : State} {name : String} {v : Json} (h : s.told? name = some v) :
    ∃ id, s.handle? name = some (.signal id) ∧ s.cells[id]? = some (.signal v) := by
  rw [told?] at h
  split at h
  · next id hid =>
    split at h
    · next u hu =>
      cases h
      exact ⟨id, hid, hu⟩
    · cases h
  · cases h

namespace World

variable {o : State} {x : String}

/-- A signal always has the value that it has, also for those whose reads are not tracked. -/
theorem answers_peek (h : o.told? x = some v) : (signals o).Answers (.peek x) (some v) := by
  obtain ⟨id, hx, hcell⟩ := State.told?_eq_some h
  intro s hs
  have hname : s.handle? x = some (.signal id) := hs.holds.handle x id hx
  have hvalue : s.cells[id]? = some (.signal v) := (hs.holds.value x id hx).trans hcell
  refine .untracked ((gives_read_signal (s := s.modifyTracking (·.enter .untracked)) hname
    hvalue).imp ?_)
  rintro _ _ ⟨rfl, rfl⟩
  exact ⟨rfl, .refl s, hs.holds⟩

/-- The text of its value always has the same size. -/
theorem answers_size (h : o.told? x = some v) :
    (signals o).Answers (.size x) (some (.ofNat (Text.byteLength v.print))) := by
  obtain ⟨id, hx, hcell⟩ := State.told?_eq_some h
  intro s hs
  have hname : s.handle? x = some (.signal id) := hs.holds.handle x id hx
  refine .look ?_
  simp only [hname]
  refine (answers_get hx hcell s hs).bind ?_
  rintro _ s' ⟨rfl, hrests, hholds⟩
  exact .ret ⟨rfl, hrests, hholds⟩

/-- Nothing is answered to those who log. -/
theorem answers_log (v : Json) : (signals o).Answers (.log v) none := by
  intro s hs
  have hlogged : s.Preserves (s.addLog v) :=
    State.preserves_aside ⟨rfl, rfl, rfl, rfl, rfl, rfl, rfl, rfl⟩ rfl rfl
  refine .change (.ret ⟨rfl, ⟨hlogged.path, rfl, rfl, rfl, rfl, rfl, rfl, fun _ h => h⟩, ?_⟩)
  exact hs.holds.of_same rfl fun _ _ _ => rfl

/-- What the signals of a state tell is true. -/
theorem grants_signals (o : State) : (signals o).Grants o.outlook where
  answers {q a} h := by
    cases q with
    | get x =>
      obtain ⟨v, hv, rfl⟩ := Option.map_eq_some_iff.1 h
      obtain ⟨id, hx, hcell⟩ := State.told?_eq_some hv
      exact answers_get hx hcell
    | peek x =>
      obtain ⟨v, hv, rfl⟩ := Option.map_eq_some_iff.1 h
      exact answers_peek hv
    | size x =>
      obtain ⟨v, hv, rfl⟩ := Option.map_eq_some_iff.1 h
      exact answers_size hv
    | log v =>
      cases h
      exact answers_log v
    | _ => cases h
  free h := Option.isNone_iff_eq_none.1 h

end World

section

variable {s : State} {document : DocumentId} {target : DomId} {page : Document (Json → Program)}
  {blank : String}

/-- A template that is drawn below a node comes to its end, and puts trees behind those that are
there. -/
def State.Appends (s : State) (blank : String) (document : DocumentId) (target : DomId)
    (app : Program) (ts : List Tree) : Prop :=
  ∃ (r : Outcome × Option Json) (s' : State),
    Yields (fun κ => enclose κ (.walk .create blank) app) s r s' ∧
      (s.document document).Appends (s'.document document) target ts

/-- A template puts what it stands for behind what is below a node. -/
theorem appends_of_standsFor (hs : W.Opens s) (hW : W.Grants e)
    (hblank : s.handle? blank = some (.node document target))
    (hpage : s.documents[document.index]? = some page) (htree : page.Treelike)
    (htarget : target.index < page.nodes.size) (hp : p.StandsFor e ts) :
    s.Appends blank document target p ts := by
  obtain ⟨v, hsketch⟩ := hp
  have hstands : (Walk.start page target .create).Stands (.open page target .create) [] :=
    .open_create (w := Walk.start page target .create) htree htarget rfl
  have hsketches : W.Sketches p [[]] v [ts] := sketches_of_sketch hW hsketch
  obtain ⟨r, s', hyields, w, hbuilds, hdocument⟩ := gives_walk
    (P := fun w => w.Builds (.open page target .create) [] page [ts]) hs hblank hpage .create
    fun _ _ _ => (hsketches (.of_stands hstands)).mono fun _ _ h => h.2
  obtain ⟨new, hcreates, rfl⟩ := hbuilds.only
  refine ⟨r, s', hyields, ?_⟩
  rw [State.document_of_canvas hpage, State.document_of_canvas hdocument, hcreates.document_finish]
  exact hcreates.gains.appends htree

/-- A template that is run on a walk which creates the children of a node comes to its end, and puts
the trees that it stands for behind those that are there; it changes nothing else. What it stands
for is told from what its looks answer. Two templates one after the other stand for the trees of the
first and then those of the second. -/
theorem walk_appends (hs : W.Opens s) (hW : W.Grants e)
    (hblank : s.handle? blank = some (.node document target))
    (hpage : s.documents[document.index]? = some page) (htree : page.Treelike)
    (htarget : target.index < page.nodes.size) :
    (∀ (p : Program) (ts : List Tree), p.StandsFor e ts →
      s.Appends blank document target p ts) ∧
    ∀ (p q : Program) (ts us : List Tree), p.StandsFor e ts → q.StandsFor e us →
      (p.andThen q).StandsFor e (ts ++ us) ∧
        s.Appends blank document target (p.andThen q) (ts ++ us) :=
  ⟨fun _ _ hp => appends_of_standsFor hs hW hblank hpage htree htarget hp, fun _ _ _ _ hp hq =>
    ⟨hp.andThen hq, appends_of_standsFor hs hW hblank hpage htree htarget (hp.andThen hq)⟩⟩

end

/-- The document with a paragraph, whose root has a name, and a signal. -/
def titled : State :=
  ((({ documents := #[paragraph] } : State).withNode .source (.signal (.str "ada"))).named "user"
    (.signal ⟨0⟩)).named "page" (.node ⟨0⟩ Document.root)

/-- A template for a heading with a text that follows the signal, a region and a boundary. -/
def welcome : Program :=
  .op (.claim (.element "h1") [] (some "head")) fun _ => .op .enter fun _ =>
    .install (.dynText none) (fun _ => .op (.get "user") fun a => .ret (.orNull a)) fun _ =>
    .op .exit fun _ =>
    .install (.region none) (fun _ => .op (.staticText "inside" none) fun _ => .done) fun _ =>
    .install .boundary (fun _ => .op (.append (.element "hr" [] []) none) fun _ => .done) fun _ =>
    .done

/-- A template for what the signal holds, as an insert. -/
def farewell : Program :=
  .install (.insert none) (fun _ => .op (.peek "user") fun a => .ret (.arr [.orNull a])) fun _ =>
    .done

/-- The trees of the first template. -/
def welcomed : List Tree :=
  [.node (.element "h1" [(keyAttribute, "")]) [.leaf (.text "ada")],
    .node (.wrapper .region []) [.leaf (.text "inside")], .leaf (.marker .opening),
    .node (.element "hr" [(keyAttribute, "")]) [], .leaf (.marker .closing)]

private theorem told?_titled : titled.told? "user" = some (.str "ada") := by
  have hcell : titled.cells[(⟨0⟩ : NodeId)]? = some (.signal (.str "ada")) :=
    Std.HashMap.getElem?_insert_self
  rw [State.told?, show titled.handle? "user" = some (.signal ⟨0⟩) from rfl]
  simp only [hcell]

/-- What the signal holds, as the text and the insert ask for it. -/
theorem answers_titled : titled.outlook.answer? (.get "user") = some (some (.str "ada")) ∧
    titled.outlook.answer? (.peek "user") = some (some (.str "ada")) := by
  have htold := congrArg (Option.map some) told?_titled
  exact ⟨htold, htold⟩

theorem standsFor_welcome : welcome.StandsFor titled.outlook welcomed := by
  have htold : (Program.op (.get "user") fun a => .ret (.orNull a)).foretell titled.outlook =
      some (.str "ada") := by
    rw [Program.foretell, answers_titled.1]
    rfl
  refine ⟨.null, ?_⟩
  show (((Program.op (.get "user") fun a => .ret (.orNull a)).foretell titled.outlook).map
    fun v => [Markup.Tree.leaf (.text v.display)]).bind _ = _
  rw [htold]
  rfl

theorem standsFor_farewell : farewell.StandsFor titled.outlook
    [.node (.wrapper .insert []) [.leaf (.text "ada")]] := by
  have htold : (Program.op (.peek "user") fun a => .ret (.arr [.orNull a])).foretell
    titled.outlook =
      some (.arr [.str "ada"]) := by
    rw [Program.foretell, answers_titled.2]
    rfl
  refine ⟨.null, ?_⟩
  show (((Program.op (.peek "user") fun a => .ret (.arr [.orNull a])).foretell titled.outlook).map
    fun v => [Markup.Tree.node (.wrapper .insert [])
      (Fragment.trees (v.items.map Fragment.ofJson))]).bind _ = _
  rw [htold]
  rfl

theorem opens_titled : (World.signals titled).Opens titled := by
  have hfirst : Leads {} { documents := #[paragraph] } :=
    Leads.aside (by constructor <;> rfl)
  have hleads : Leads {} titled :=
    .tail (.tail (.tail hfirst (.newSource (.signal (.str "ada")) rfl))
      (.name "user" (.signal ⟨0⟩) rfl)) (.name "page" (.node ⟨0⟩ Document.root) trivial)
  exact World.opens_signals ⟨∅, Leads.path hleads⟩ (fun _ => ⟨rfl, rfl⟩)
    (fun _ h => nomatch (show false = true from h)) (fun _ h => absurd h List.not_mem_nil)
    (fun _ h => absurd h List.not_mem_nil)

/-- The heading, the region and the boundary are put behind the paragraph, and the insert is put
behind them. -/
theorem walk_appends_titled :
    (World.signals titled).Opens titled ∧ (World.signals titled).Grants titled.outlook ∧
      titled.handle? "page" = some (.node ⟨0⟩ Document.root) ∧ paragraph.Treelike ∧
      welcome.StandsFor titled.outlook welcomed ∧
      titled.Appends "page" ⟨0⟩ Document.root welcome welcomed ∧
      (welcome.andThen farewell).StandsFor titled.outlook
        (welcomed ++ [.node (.wrapper .insert []) [.leaf (.text "ada")]]) ∧
      titled.Appends "page" ⟨0⟩ Document.root (welcome.andThen farewell)
        (welcomed ++ [.node (.wrapper .insert []) [.leaf (.text "ada")]]) := by
  have htree : paragraph.Treelike :=
    (Document.plantUnder_grafted Document.Treelike.empty (by decide) _).treelike
  have hgrants := World.grants_signals titled
  have hblank : titled.handle? "page" = some (.node ⟨0⟩ Document.root) := rfl
  have hpage : titled.documents[(⟨0⟩ : DocumentId).index]? = some paragraph := rfl
  obtain ⟨hone, htwo⟩ := walk_appends opens_titled hgrants hblank hpage htree (by decide)
  exact ⟨opens_titled, hgrants, rfl, htree, standsFor_welcome, hone _ _ standsFor_welcome,
    htwo _ _ _ _ standsFor_welcome standsFor_farewell⟩

end Rivulet.Engine
