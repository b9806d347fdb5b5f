import Rivulet.Proofs.Converging.Mounting
import Rivulet.Proofs.Converging.Taking
import Rivulet.Proofs.Document.Edits
import Rivulet.Proofs.Document.RoundTrip

/-!
# Mounting over what was rendered

What a template asks for is known before it draws. Over markup that shows all that, a mount claims
it and does nothing else: it creates and discards nothing, records no mismatch, and passes over
nodes of others alone. Markup that the same template has rendered shows all that, and nothing else.
-/

namespace Rivulet

open Markup Hydration

open Engine in
/-- A template, up to some point, with what it asks for on the way. It reads only what always has
the same answer, and gives names of its own to nodes only. A node that it does not enter right after
it has claimed it is asked for as a whole. There are no inserts, as an insert empties its
wrapper. -/
inductive Program.Asks (W : World) : Program → List Imprint → Program → Prop where
  /-- Nothing, up to where it is. -/
  | here {p : Program} : Asks W p [] p
  /-- A look. -/
  | look {o : Op} {a : Option Json} {next : Option Json → Program} {is : List Imprint} {q : Program}
      (answers : W.Answers o a) (rest : Asks W (next a) is q) : Asks W (.op o next) is q
  /-- A part that only looks. -/
  | thought {body : Program} {next : Outcome → Option Json → Program} {v : Json} {is : List Imprint}
      {q : Program} (steady : W.Steady body v) (rest : Asks W (next (.value v) none) is q) :
      Asks W (.within .plain body next) is q
  /-- A part that is a template. -/
  | part {body : Program} {next : Outcome → Option Json → Program} {v : Json}
      {us is : List Imprint} {q : Program} (inside : Asks W body us (.stop (.value v)))
      (rest : Asks W (next (.value v) none) is q) : Asks W (.within .plain body next) (us ++ is) q
  /-- A node that is no text is claimed, entered and left. -/
  | node {expected : Expected} {attrs : List (String × String)} {name : Option String}
      {next next' next'' : Option Json → Program} {us is : List Imprint} {q : Program}
      (own : expected.isText = false) (free : ∀ x ∈ name, W.free x)
      (enter : next none = .op .enter next') (inside : Asks W (next' none) us (.op .exit next''))
      (rest : Asks W (next'' none) is q) :
      Asks W (.op (.claim expected attrs name) next) (.node expected us :: is) q
  /-- A node is claimed. -/
  | whole {expected : Expected} {attrs : List (String × String)} {name : Option String}
      {next : Option Json → Program} {is : List Imprint} {q : Program} (free : ∀ x ∈ name, W.free x)
      (rest : Asks W (next none) is q) :
      Asks W (.op (.claim expected attrs name) next) (.whole expected :: is) q
  /-- A text. -/
  | staticText {content : String} {name : Option String} {next : Option Json → Program}
      {is : List Imprint} {q : Program} (free : ∀ x ∈ name, W.free x)
      (rest : Asks W (next none) is q) :
      Asks W (.op (.staticText content name) next) (.whole (.text content) :: is) q
  /-- A fragment is put as a whole. -/
  | append {fragment : Fragment} {name : Option String} {next : Option Json → Program}
      {is : List Imprint} {q : Program} (free : ∀ x ∈ name, W.free x)
      (rest : Asks W (next none) is q) :
      Asks W (.op (.append fragment name) next) (.whole (Walk.expectedOf fragment) :: is) q
  /-- A text that follows a value. -/
  | dynText {name : Option String} {body : Json → Program} {next : Option Json → Program} {v : Json}
      {is : List Imprint} {q : Program} (free : ∀ x ∈ name, W.free x)
      (steady : W.Steady (body .null) v) (rest : Asks W (next none) is q) :
      Asks W (.install (.dynText name) body next) (.whole (.text "") :: is) q
  /-- An attribute that follows a value; it is not the key. -/
  | attr {node name : String} {body : Json → Program} {next : Option Json → Program} {v : Json}
      {is : List Imprint} {q : Program} (free : W.free node) (other : name ≠ keyAttribute)
      (steady : W.Steady (body .null) v) (rest : Asks W (next none) is q) :
      Asks W (.install (.attr node name) body next) is q
  /-- A region. -/
  | region {name : Option String} {body : Json → Program} {next : Option Json → Program} {v : Json}
      {us is : List Imprint} {q : Program} (free : ∀ x ∈ name, W.free x)
      (inside : Asks W (body .null) us (.stop (.value v))) (rest : Asks W (next none) is q) :
      Asks W (.install (.region name) body next) (.node (.wrapper .region) us :: is) q
  /-- A boundary. Its fallback may be anything, as no error is raised. -/
  | boundary {p content next q : Program} {v : Json} {us is : List Imprint}
      (boundary : p.boundary? = some (content, next))
      (inside : Asks W content us (.stop (.value v))) (rest : Asks W next is q) :
      Asks W p (.fragment us :: is) q

namespace Hydration.Walk

variable {α : Type} {w w₁ v : Walk α} {f f₁ : Frame} {fs : List Frame}
  {done front used ahead tail : List DomId} {id : DomId} {expected : Expected} {us : List Imprint}
  {n : Nat}

/-- What was drawn with a mark of its own fills the level of the walk around it. -/
theorem Fills.beside {p : DomId} {m : Markers} (h : (w.amid p m).Fills v f done tail us n) :
    w.Fills (v.beside w) f done tail us n :=
  ⟨h.level, rfl, fun hmode => ⟨(h.agrees hmode).document, (h.agrees hmode).report⟩, h.shows⟩

/-- Inside of a node that was provided a walk goes on as it did outside. -/
theorem Meets.mode_eq (h : w.Meets w₁ f f₁ fs done front id used ahead tail expected) :
    f.mode = if decide (f.mode = .create) then .create else f₁.mode := by
  split
  · rename_i hcreate
    exact of_decide_eq_true hcreate
  · exact h.advances.same.mode.symm

end Hydration.Walk

namespace Engine

open Walk

variable {W : World} {k N : Nat} {d : Drawing} {rest : List Drawing} {w w' w₁ : Sheet}
  {f : Hydration.Frame} {fs : List Hydration.Frame} {done ahead tail : List DomId}
  {i : Imprint} {is js us later : List Imprint} {expected : Expected} {p q : Program} {v : Json}

/-- A node that is asked for is claimed. -/
theorem goes_claim_met {attrs : List (String × String)} {name : Option String}
    (hname : ∀ x ∈ name, W.free x) (hat : w.At f fs done ahead tail)
    (hexpects : w.Expects f ahead (.node expected us :: later) N) :
    Goes W k d rest (fun κ => performOp κ (.claim expected attrs name)) w fun a w₁ => a = none ∧
      ∃ id f₁ front used left n m, ahead = used ++ left ∧ N = front.length + n + m ∧
        w.Meets w₁ f f₁ fs done front id used left tail expected ∧
        (f.mode = .hydrate → w₁.document.StandsFor [id] (.node expected us) n) ∧
        w₁.Expects f₁ left later m := by
  obtain ⟨id, w₁, f₁, front, used, left, n, m, hrun, hsplit, hcount, hmeets, hstands, hlater⟩ :=
    hat.claimNode_meets hexpects rfl attrs true
  refine (goes_called (P := (· = w₁)) ((goes_named hname hrun hmeets.advances.moves.redrawn.size
    hmeets.lt_size).mono fun _ _ h => h.2)).mono ?_
  rintro _ _ ⟨rfl, rfl⟩
  exact ⟨rfl, id, f₁, front, used, left, n, m, hsplit, hcount, hmeets, hstands, hlater⟩

/-- A node that is asked for as a whole is provided. -/
theorem goes_whole {attrs : List (String × String)} {patch : Bool} {name : Option String}
    (hname : ∀ x ∈ name, W.free x) (hat : w.At f fs done ahead tail)
    (hexpects : w.Expects f ahead (.whole expected :: later) N) :
    Goes W k d rest (fun _ => claimAs name (claimNode expected attrs patch)) w fun _ w' =>
      w.Passes w' f fs done ahead tail [.whole expected] later N := by
  obtain ⟨id, w₁, f₁, front, used, left, n, m, hrun, rfl, rfl, hmeets, hstands, hlater⟩ :=
    hat.claimNode_meets hexpects rfl attrs patch
  refine (goes_named hname hrun hmeets.advances.moves.redrawn.size hmeets.lt_size).mono ?_
  rintro _ _ ⟨rfl, rfl⟩
  exact hmeets.passes_whole hstands hlater

/-- A fragment that is asked for as a whole is provided. -/
theorem goes_append {fragment : Fragment} {name : Option String} (hname : ∀ x ∈ name, W.free x)
    (hat : w.At f fs done ahead tail)
    (hexpects : w.Expects f ahead (.whole (expectedOf fragment) :: later) N) :
    Goes W k d rest (fun _ => claimAs name (append fragment)) w fun _ w' =>
      w.Passes w' f fs done ahead tail [.whole (expectedOf fragment)] later N := by
  obtain ⟨id, w₁, hrun, hlt, hpasses⟩ := hat.append_takes fragment hexpects
  refine (goes_named hname hrun hpasses.size hlt).mono ?_
  rintro _ _ ⟨rfl, rfl⟩
  exact hpasses

/-- A text that follows a value is provided and written. -/
theorem goes_dynText_met {name : Option String} (hname : ∀ x ∈ name, W.free x) (hp : W.Steady p v)
    (hat : w.At f fs done ahead tail)
    (hexpects : w.Expects f ahead (.whole (.text "") :: later) N) :
    Goes W k d rest (fun κ => dynText κ name p) w fun _ w' =>
      w.Passes w' f fs done ahead tail [.whole (.text "")] later N := by
  obtain ⟨id, w₁, f₁, front, used, left, n, m, hrun, rfl, rfl, hmeets, hstands, hlater⟩ :=
    hat.claimNode_meets hexpects rfl [] false
  refine (goes_written hname hp hrun hmeets.advances.moves.redrawn.size hmeets.lt_size).mono ?_
  rintro _ _ rfl
  exact (hmeets.passes_whole hstands hlater).tinted _ (Document.tinted_setText ..) rfl rfl rfl

/-- An attribute that follows a value is written. -/
theorem goes_attr_met {node name : String} {body : Json → Program} (hnode : W.free node)
    (hname : name ≠ keyAttribute) (hp : W.Steady (body .null) v)
    (hat : w.At f fs done ahead tail) (hexpects : w.Expects f ahead later N) :
    Goes W k d rest (fun κ => performInstall κ body (.attr node name)) w fun a w' =>
      a = none ∧ w.Passes w' f fs done ahead tail [] later N := by
  refine (goes_dressed hnode hname hp).mono ?_
  rintro _ _ ⟨rfl, document, ht, rfl⟩
  exact ⟨rfl, (Passes.refl hat hexpects).tinted _ ht rfl rfl rfl⟩

/-! ## Templates -/

/-- Up to some point a program gets what it asks for, and goes on from there. -/
def World.Gets (W : World) (p : Program) (is : List Imprint) (q : Program) : Prop :=
  ∀ {k : Nat} {d : Drawing} {rest : List Drawing} {w : Sheet} {f : Hydration.Frame}
    {fs : List Hydration.Frame} {done ahead tail : List DomId} {later : List Imprint} {N : Nat}
    {Q : Outcome → Sheet → Prop}, w.At f fs done ahead tail → w.Expects f ahead (is ++ later) N →
      (∀ w', w.Passes w' f fs done ahead tail is later N →
        Goes W k d rest (fun κ => exec κ q) w' Q) → Goes W k d rest (fun κ => exec κ p) w Q

namespace World.Gets

/-- A program goes on behind what was got before. -/
theorem onward {Q : Outcome → Sheet → Prop} (h : W.Gets p is q)
    (hpasses : w.Passes w₁ f fs done ahead tail js (is ++ later) N)
    (hq : ∀ w', w.Passes w' f fs done ahead tail (js ++ is) later N →
      Goes W k d rest (fun κ => exec κ q) w' Q) : Goes W k d rest (fun κ => exec κ p) w₁ Q := by
  obtain ⟨f₁, new, used, left, n, m, rfl, rfl, htakes, hexpects⟩ := hpasses
  exact h htakes.there hexpects fun w' hw' => hq w' (htakes.then hw')

/-- A part that gets what it asks for stands in front. -/
theorem behind {α : Type} {x : Kernel → Run α} {a : α} {Q : Outcome → Sheet → Prop}
    (js : List Imprint) (next : α → Program) (h : W.Gets (next a) is q)
    (hx : Goes W k d rest x w fun b w' =>
      b = a ∧ w.Passes w' f fs done ahead tail js (is ++ later) N)
    (hq : ∀ w', w.Passes w' f fs done ahead tail (js ++ is) later N →
      Goes W k d rest (fun κ => exec κ q) w' Q) :
    Goes W k d rest (fun κ => x κ >>= fun b => exec κ (next b)) w Q := by
  refine hx.bind ?_
  rintro _ w₁ ⟨rfl, hpasses⟩
  exact h.onward hpasses hq

/-- A whole template. -/
theorem whole (h : W.Gets p us (.stop (.value v))) (hat : w.At f fs done ahead tail)
    (hexpects : w.Expects f ahead (us ++ later) N) :
    Goes W k d rest (fun κ => exec κ p) w fun o w' =>
      o = .value v ∧ w.Passes w' f fs done ahead tail us later N :=
  h hat hexpects fun w' hpasses => by
    simp only [exec]
    exact .ret ⟨rfl, hpasses⟩

/-- A template that is drawn on a level of its own fills it. -/
theorem draws (h : W.Gets p us (.stop (.value v))) (hat : w.At f [] done ahead tail)
    (hexpects : w.Expects f ahead us N) :
    W.Draws p w fun w' => w.Fills w'.finish f done tail us N := fun k d rest => by
  rw [← List.append_nil us] at hexpects
  exact (goes_callExec (h.whole hat hexpects)).bind fun _ _ ⟨_, hpasses⟩ =>
    .ret hpasses.fills_finish

end World.Gets

/-- A region is put, and gets what it asks for. -/
theorem goes_region_met {name : Option String} (hname : ∀ x ∈ name, W.free x)
    (hp : W.Gets p us (.stop (.value v))) (hat : w.At f fs done ahead tail)
    (hexpects : w.Expects f ahead (.node (.wrapper .region) us :: later) N) :
    Goes W k d rest (fun κ => region κ name p) w fun _ w' =>
      w.Passes w' f fs done ahead tail [.node (.wrapper .region) us] later N := by
  obtain ⟨id, w₁, f₁, front, used, left, n, m, hrun, rfl, rfl, hmeets, hstands, hlater⟩ :=
    hat.claimNode_meets hexpects rfl [] false
  have hchild := childMode_run hmeets.advances.there.frames hmeets.last_eq
  rw [← hmeets.mode_eq] at hchild
  let inner := w₁.onLevel (.open w₁.document id f.mode)
  have hin : inner.At (.open w₁.document id f.mode) [] [] (w₁.document.children id) [] :=
    hmeets.at_inside hmeets.last_eq hmeets.mode_eq rfl rfl
  have hinside : inner.Expects (.open w₁.document id f.mode) (w₁.document.children id) us n := by
    intro hmode
    obtain ⟨_, hid, hshows⟩ := (hstands hmode).inside
    cases hid
    exact hshows
  have hpasses {v : Sheet} (hv : inner.Fills v.finish (.open w₁.document id f.mode) [] [] us n) :
      w.Passes (v.finish.back w₁.cursor) f fs done (used ++ left) tail
        [.node (.wrapper .region) us] later (front.length + n + m) :=
    hmeets.passes_inside rfl (hv.remark rfl rfl rfl rfl rfl rfl) hmeets.advances.there.frames hlater
  refine (goes_drawn hname hrun hmeets.advances.moves.redrawn.size hchild (hp.draws hin hinside)
    fun v hv => Nat.lt_of_lt_of_le hmeets.lt_size hv.level.size).mono ?_
  rintro _ _ ⟨v, hv, rfl⟩
  exact hpasses hv

/-- A node that was provided is entered, and left behind what is got inside. -/
theorem gets_inside {f₁ : Hydration.Frame} {front used left : List DomId} {id : DomId} {n m : Nat}
    {next' next'' : Option Json → Program} {Q : Outcome → Sheet → Prop}
    (hmeets : w.Meets w₁ f f₁ fs done front id used left tail expected)
    (own : expected.isText = false)
    (hstands : f.mode = .hydrate → w₁.document.StandsFor [id] (.node expected us) n)
    (hlater : w₁.Expects f₁ left later m) (hinside : W.Gets (next' none) us (.op .exit next''))
    (hrest : ∀ w', w.Passes w' f fs done (used ++ left) tail [.node expected us] later
        (front.length + n + m) → Goes W k d rest (fun κ => exec κ (next'' none)) w' Q) :
    Goes W k d rest (fun κ => exec κ (.op .enter next')) w₁ Q := by
  let u : Sheet := { w₁ with cursor := ⟨Frame.open w₁.document id f.mode :: f₁ :: fs, none⟩ }
  have hin : u.At (.open w₁.document id f.mode) (f₁ :: fs) [] (w₁.document.children id) [] :=
    hmeets.at_inside hmeets.last_eq hmeets.mode_eq rfl rfl
  have hexpects : u.Expects (.open w₁.document id f.mode) (w₁.document.children id)
      (us ++ []) n := by
    intro hmode
    obtain ⟨_, hid, hshows⟩ := (hstands hmode).inside
    cases hid
    rwa [List.append_nil]
  refine goes_enter hmeets.advances.there.frames hmeets.last_eq ?_
  rw [← hmeets.mode_eq]
  refine hinside hin hexpects fun w₂ hpasses => ?_
  obtain ⟨g, hframes, -, hfills⟩ := hpasses.fills
  exact goes_exit hframes (hrest _ (hmeets.passes_inside own
    (hfills.remark (w := w₁) rfl rfl rfl rfl rfl rfl) rfl hlater))

/-- A boundary is put, and gets what it asks for. -/
theorem goes_boundary_met {content : Program} (hcontent : W.Gets content us (.stop (.value v)))
    (fallback : Option (Json → Program)) (hat : w.At f fs done ahead tail)
    (hexpects : w.Expects f ahead (.fragment us :: later) N) :
    Goes W k d rest (fun κ => boundary κ content fallback) w fun _ w' =>
      w.Passes w' f fs done ahead tail [.fragment us] later N := by
  obtain ⟨m, w₁, f₁, front, inside, used, left, n, j, hrun, rfl, rfl, hpairs, hinside, hlater⟩ :=
    hat.claimMarkers_pairs hexpects
  have hamid : (w₁.amid f₁.parent m).Expects
      (.between w₁.document f₁.parent m.opening m.closing m.mode) inside us n :=
    fun hmode => hinside (hpairs.mode_eq.symm.trans hmode)
  have hbounds : W.Bounds content w₁ f₁.parent m fun w' =>
      w.Passes w' f fs done (used ++ left) tail [.fragment us] later (front.length + n + j) := by
    intro k d rest
    refine (hcontent.draws hpairs.at_amid hamid k d rest).mono fun _ w₂ hfills => ⟨fun _ => ?_, ?_⟩
    · exact hpairs.passes hfills.beside hpairs.advances.there.frames hlater
    · -- Nothing is left unresolved between the ends, so nothing is drawn anew.
      intro _ hunresolved
      rw [hfills.resolved] at hunresolved
      cases hunresolved
  refine (goes_boundary hrun hpairs.advances.moves.redrawn.size
    (frame_run hpairs.advances.there.frames) hbounds fallback).mono ?_
  rintro _ _ ⟨w₂, hpasses, rfl⟩
  exact hpasses.tinted _ (.refl _) rfl rfl rfl

/-- A template gets what it asks for, wherever it draws. -/
theorem gets_of_asks (hp : p.Asks W is q) : W.Gets p is q := by
  induction hp with
  | here =>
    intro k d rest w f fs done ahead tail later N Q hat hexpects hq
    exact hq w (.refl hat hexpects)
  | look answers _ ih =>
    intro k d rest w f fs done ahead tail later N Q hat hexpects hq
    simp only [exec]
    refine ih.behind [] _ ((goes_look answers).mono ?_) hq
    rintro _ w₁ ⟨rfl, rfl⟩
    exact ⟨rfl, .refl hat hexpects⟩
  | @thought body next v _ _ steady _ ih =>
    intro k d rest w f fs done ahead tail later N Q hat hexpects hq
    simp only [exec, enclose, bind_assoc, pure_bind]
    refine ih.behind [] (fun o => next o none) (goes_callExec ((goes_look steady).mono ?_)) hq
    rintro _ w₁ ⟨rfl, rfl⟩
    exact ⟨rfl, .refl hat hexpects⟩
  | @part body next v _ _ _ _ _ ih ih' =>
    intro k d rest w f fs done ahead tail later N Q hat hexpects hq
    simp only [exec, enclose, bind_assoc, pure_bind]
    rw [List.append_assoc] at hexpects
    exact ih'.behind _ (fun o => next o none) (goes_callExec (ih.whole hat hexpects)) hq
  | node own free enter _ _ ih ih' =>
    intro k d rest w f fs done ahead tail later N Q hat hexpects hq
    simp only [exec]
    refine (goes_claim_met free hat hexpects).bind ?_
    rintro _ w₁ ⟨rfl, id, f₁, front, used, left, n, m, rfl, rfl, hmeets, hstands, hlater⟩
    rw [enter]
    exact gets_inside hmeets own hstands hlater ih fun w₂ hpasses => ih'.onward hpasses hq
  | whole free _ ih =>
    intro k d rest w f fs done ahead tail later N Q hat hexpects hq
    simp only [exec]
    exact ih.behind [_] _ (goes_called (goes_whole free hat hexpects)) hq
  | staticText free _ ih =>
    intro k d rest w f fs done ahead tail later N Q hat hexpects hq
    simp only [exec]
    exact ih.behind [_] _ (goes_called (goes_whole free hat hexpects)) hq
  | append free _ ih =>
    intro k d rest w f fs done ahead tail later N Q hat hexpects hq
    simp only [exec]
    exact ih.behind [_] _ (goes_called (goes_append free hat hexpects)) hq
  | dynText free steady _ ih =>
    intro k d rest w f fs done ahead tail later N Q hat hexpects hq
    simp only [exec, performInstall]
    exact ih.behind [_] _ (goes_noAnswer (goes_dynText_met free steady hat hexpects)) hq
  | attr free other steady _ ih =>
    intro k d rest w f fs done ahead tail later N Q hat hexpects hq
    simp only [exec]
    exact ih.behind [] _ (goes_attr_met free other steady hat hexpects) hq
  | region free _ _ ih ih' =>
    intro k d rest w f fs done ahead tail later N Q hat hexpects hq
    simp only [exec, performInstall]
    exact ih'.behind [_] _ (goes_noAnswer (goes_region_met free ih hat hexpects)) hq
  | @boundary p content next q v us is hboundary _ _ ih ih' =>
    intro k d rest w f fs done ahead tail later N Q hat hexpects hq
    have hput (fallback : Option (Json → Program)) : Goes W k d rest
        (fun κ => boundary κ content fallback >>= fun _ => exec κ next) w Q :=
      ih'.behind [.fragment us] (fun _ => next) (a := ())
        ((goes_boundary_met ih fallback hat hexpects).mono fun _ _ h => ⟨rfl, h⟩) hq
    cases p with
    | guarded fallback content next =>
      cases hboundary
      simp only [exec]
      exact hput _
    | install i body next =>
      cases i with
      | boundary =>
        cases hboundary
        simp only [exec, performInstall, noAnswer, bind_assoc, pure_bind]
        exact hput none
      | _ => cases hboundary
    | _ => cases hboundary

variable {s : State} {app : Program} {document place : DocumentId} {target bare : DomId}
  {page : Document (Json → Program)} {n : Nat}

/-- Mounted below a node, an application claims a number of nodes, passes over a number of others,
and changes nothing but texts and attributes. -/
def State.MountsExactly (s : State) (app : Program) (document : DocumentId) (target : DomId)
    (claimed skipped : Nat) : Prop :=
  ∀ (name : Option String) (payload : Query.Payload), ∃ (m : Mount) (u s' : State),
    Yields (fun κ => mount κ name document target (some .tolerant) payload app) s (u.mountValue m)
      s' ∧ m.phases = [.idle, .claiming, .claimed, .interactive] ∧
    u.report m.report = { claimed, skipped } ∧ (s.document document).Tinted (s'.document document)

/-- Over markup that shows what a template asks for, a mount claims all that and nothing else
happens: nodes of others are passed over, and no other node is created, removed or moved. -/
theorem mount_exact (hs : W.Opens s) (happ : app.Asks W is (.stop (.value v)))
    (hpage : s.documents[document.index]? = some page) (htree : page.Treelike)
    (htarget : target.index < page.nodes.size) (hshows : page.Shows (page.children target) is n) :
    s.MountsExactly app document target (Imprint.sizes is) n := by
  intro name payload
  have hat : (Walk.start page target .hydrate).At (.open page target .hydrate) [] []
      (page.children target) [] := at_open rfl htree htarget (by simp)
  have hgets : W.Gets app is (.stop (.value v)) := gets_of_asks happ
  have hclaimed := gives_claimApp (Q := fun _ => False) (hs.mounting page.nodes.size payload) hpage
    (hgets.draws hat fun _ => hshows) (fun w hfills hunresolved => by
      rw [hfills.resolved] at hunresolved
      cases hunresolved) ⟨s.nextClient⟩ hs.clients
  -- Nothing is left unresolved, so what was told of the first drawing is told of the mount.
  obtain ⟨_, s', hmount, c, u, ⟨w, hfills, hkeeps, hdocument⟩, hcanvas, rfl⟩ :=
    gives_mount (P := fun c canvas => ∃ w : Sheet, (Walk.start page target .hydrate).Fills w.finish
      (.open page target .hydrate) [] [] is n ∧ c.Keeps w.finish canvas ∧
        canvas.documents[document.index]? = some w.finish.document)
      (hclaimed.imp fun c s' ⟨w, hw, hdocument⟩ => hw.elim
        (fun ⟨hfills, hkeeps⟩ => ⟨w, hfills, hkeeps, hdocument⟩) False.elim) name
  obtain ⟨htinted, hreport⟩ := hfills.agrees rfl
  have hcount : w.finish.report = { claimed := Imprint.sizes is, skipped := n } := by
    rw [hreport]
    simp [Walk.start, Report.addClaimed, Report.addSkipped]
  refine ⟨c.mount document target ⟨s.nextClient⟩, u, s', hmount, ?_, ?_, ?_⟩
  · rw [Claiming.mount, hkeeps.phase, hcount]
    rfl
  · have htold : u.reports[c.report.index]? = some w.finish.report :=
      (congrArg (·.reports[c.report.index]?) hcanvas).trans hkeeps.report
    rw [Claiming.mount, State.report, htold, Option.getD_some, hcount]
  · rw [State.document_of_canvas hpage, State.document_of_canvas hdocument]
    exact htinted

/-- Where nothing stands a template draws what shows all that it asks for, and nothing else. -/
theorem gives_rendered (hs : W.Opens s) (happ : app.Asks W is (.stop (.value v))) {blank : String}
    (hblank : s.handle? blank = some (.node place bare))
    (hpage : s.documents[place.index]? = some page) (htree : page.Treelike)
    (hbare : bare.index < page.nodes.size) (hempty : page.children bare = []) :
    Gives (fun κ => enclose κ (.walk .create blank) app) s fun _ s' =>
      page.Redrawn (s'.document place) bare [] ∧
        (s'.document place).Shows ((s'.document place).children bare) is 0 := by
  have hat : (Walk.start page bare .create).At (.open page bare .create) [] []
      (page.children bare) [] := at_open rfl htree hbare fun _ => hempty
  have hexpects : (Walk.start page bare .create).Expects (.open page bare .create)
      (page.children bare) (is ++ []) 0 := nofun
  have hgets : W.Gets app is (.stop (.value v)) := gets_of_asks happ
  refine (gives_walk hs hblank hpage .create fun k d rest =>
    (hgets.whole hat hexpects).mono fun _ _ h => h.2.fills_finish).imp ?_
  rintro _ s' ⟨w, hfills, hdocument⟩
  obtain ⟨new, hchildren, hshows⟩ := hfills.shows rfl
  rw [State.document_of_canvas hdocument]
  refine ⟨hfills.level, ?_⟩
  rwa [show w.finish.document.children bare = new by simpa [Frame.open] using hchildren]

end Engine

namespace Document

variable {α : Type} {d : Document α} {id : DomId} {is : List Imprint} {n : Nat}

/-- Markup that can be read back shows in another document what it showed before. -/
theorem Shows.parsed (h : d.Shows (d.children id) is n) (hd : d.Treelike)
    (hplain : (d.kind id).tag?.any isRaw = false) (hwritable : Tree.AllWritable (d.forest id)) :
    ∃ d' : Document α, parse (d.inner id) = .ok d' ∧ d'.Treelike ∧ root.index < d'.nodes.size ∧
      d'.Shows (d'.children root) is n := by
  have hholdable : ∀ t ∈ d.forest id, t.Holdable := fun t ht =>
    Tree.holdable_of_writable (Tree.allWritable_iff.1 hwritable t ht)
  obtain ⟨d', hread, hforest⟩ := parse_of_parse (α := α) (parse_print hwritable) hholdable
  have hinner : d.inner id = print (d.forest id) := by
    rw [inner, printChildren, hplain]
    rfl
  have htree := treelike_of_parse hread
  exact ⟨d', hinner ▸ hread, htree, root_lt_of_parse hread, h.of_trees hd htree hforest⟩

end Document

namespace Engine

variable {W : World} {s : State} {app : Program} {is : List Imprint} {v : Json}
  {place : DocumentId} {bare : DomId} {page : Document (Json → Program)}

/-- An application is drawn below a node, and can be mounted over what it has drawn once that is
printed and read back, wherever it asks for the same: the mount claims every node that is there. -/
def State.HandsOver (s : State) (app : Program) (is : List Imprint) (blank : String)
    (place : DocumentId) (bare : DomId) : Prop :=
  ∃ (r : Outcome × Option Json) (s' : State),
    Yields (fun κ => enclose κ (.walk .create blank) app) s r s' ∧
    (Tree.AllWritable ((s'.document place).forest bare) →
      ∃ page, Document.parse ((s'.document place).inner bare) = .ok page ∧
        ∀ (W : World) (t : State) (document : DocumentId) (v : Json), W.Opens t →
          app.Asks W is (.stop (.value v)) → t.documents[document.index]? = some page →
            t.MountsExactly app document Document.root (Imprint.sizes is) 0)

/-- What a template draws where nothing stands can be mounted over elsewhere: no node is passed
over, and none is created, removed or moved. -/
theorem mount_rendered (hs : W.Opens s) (happ : app.Asks W is (.stop (.value v))) {blank : String}
    (hblank : s.handle? blank = some (.node place bare))
    (hpage : s.documents[place.index]? = some page) (htree : page.Treelike)
    (hbare : bare.index < page.nodes.size) (hempty : page.children bare = [])
    (hplain : (page.kind bare).tag?.any isRaw = false) : s.HandsOver app is blank place bare := by
  obtain ⟨r, s', hyields, hredrawn, hshows⟩ :=
    gives_rendered hs happ hblank hpage htree hbare hempty
  refine ⟨r, s', hyields, fun hwritable => ?_⟩
  have hplain' : ((s'.document place).kind bare).tag?.any isRaw = false := by
    rw [← Kind.tag?_bare, hredrawn.bare bare hbare, Kind.tag?_bare]
    exact hplain
  obtain ⟨page', hread, htree', hroot, hshows'⟩ := hshows.parsed hredrawn.treelike hplain' hwritable
  exact ⟨page', hread, fun _ _ _ _ ht happ' hpage' =>
    mount_exact ht happ' hpage' htree' hroot hshows'⟩

/-- The heading, with the boundary behind it. -/
theorem mount_rendered_counting : counting.HandsOver tallied
    [.node (.element "h1") [.whole (.text ""), .node (.wrapper .region) [.whole (.text "inside")]],
      .fragment [.node (.element "p") []]] "blank" ⟨1⟩ Document.root := by
  have hpart : (Program.op (.claim (.element "p") [] none) fun _ => .op .enter fun _ =>
      .op .exit fun _ => .done).Asks (World.signals counting) [.node (.element "p") []]
        (.stop (.value .null)) := .node rfl (by simp) rfl .here .here
  have hbehind : (Program.install .boundary (fun _ => .op (.claim (.element "p") [] none) fun _ =>
      .op .enter fun _ => .op .exit fun _ => .done) fun _ => .done).Asks (World.signals counting)
        [.fragment [.node (.element "p") []]] (.stop (.value .null)) := .boundary rfl hpart .here
  have hhead : (World.signals counting).free "head" := rfl
  have hall : tallied.Asks (World.signals counting) _ (.stop (.value .null)) :=
    .node rfl (by simpa using hhead) rfl (.attr hhead (by decide) steady_count (.dynText (by simp)
      steady_count (.region (by simp) (.staticText (by simp) .here) .here))) hbehind
  exact mount_rendered opens_counting hall rfl rfl Document.Treelike.empty (by decide) rfl rfl

end Engine

end Rivulet
