import Rivulet.Proofs.Batching.Agreeing
import Rivulet.Proofs.Converging.Posting

/-!
# Templates and the skeletons they lay

What a template draws is known before it draws: the elements that it enters, the wrappers of its
regions and inserts, and the ends of its boundaries. Whatever markup the walk meets, a run of the
template ends normally and adds the skeletons of all that to the level, unless the walk is left
unresolved.

The signals that have names when a drawing starts keep their names and values while it lasts, as
long as the template gives other names to nodes.
-/

namespace Rivulet

open Markup

open Engine in
/-- A template, up to some point, with the skeletons of what it draws on the way. It reads only what
always has the same answer, enters each element right after it has claimed it, and gives names of
its own to nodes only. -/
inductive Program.Lays (W : World) : Program → List Skeleton → Program → Prop where
  /-- Nothing, up to where it is. -/
  | here {p : Program} : Lays W p [] p
  /-- A look. -/
  | look {o : Op} {a : Option Json} {next : Option Json → Program} {ks : List Skeleton}
      {q : Program}
      (answers : W.Answers o a) (rest : Lays W (next a) ks q) : Lays W (.op o next) ks q
  /-- A part that only looks. -/
  | thought {body : Program} {next : Outcome → Option Json → Program} {v : Json}
      {ks : List Skeleton}
      {q : Program} (steady : W.Steady body v) (rest : Lays W (next (.value v) none) ks q) :
      Lays W (.within .plain body next) ks q
  /-- A part that is a template. -/
  | part {body : Program} {next : Outcome → Option Json → Program} {v : Json}
      {us ks : List Skeleton} {q : Program} (inside : Lays W body us (.stop (.value v)))
      (rest : Lays W (next (.value v) none) ks q) : Lays W (.within .plain body next) (us ++ ks) q
  /-- An element is claimed, entered and left. -/
  | element {tag : String} {attrs : List (String × String)} {name : Option String}
      {next next' next'' : Option Json → Program} {us ks : List Skeleton} {q : Program}
      (free : ∀ x ∈ name, W.free x) (enter : next none = .op .enter next')
      (inside : Lays W (next' none) us (.op .exit next'')) (rest : Lays W (next'' none) ks q) :
      Lays W (.op (.claim (.element tag) attrs name) next)
        (.element (Text.lowerAscii tag.toList) us :: ks) q
  /-- A text. -/
  | staticText {content : String} {name : Option String} {next : Option Json → Program}
      {ks : List Skeleton} {q : Program} (free : ∀ x ∈ name, W.free x)
      (rest : Lays W (next none) ks q) : Lays W (.op (.staticText content name) next) ks q
  /-- A text that follows a value. -/
  | dynText {name : Option String} {body : Json → Program} {next : Option Json → Program} {v : Json}
      {ks : List Skeleton} {q : Program} (free : ∀ x ∈ name, W.free x)
      (steady : W.Steady (body .null) v) (rest : Lays W (next none) ks q) :
      Lays W (.install (.dynText name) body next) ks q
  /-- An attribute that follows a value; it is not the key. -/
  | attr {node name : String} {body : Json → Program} {next : Option Json → Program} {v : Json}
      {ks : List Skeleton} {q : Program} (free : W.free node) (other : name ≠ keyAttribute)
      (steady : W.Steady (body .null) v) (rest : Lays W (next none) ks q) :
      Lays W (.install (.attr node name) body next) ks q
  /-- A region. -/
  | region {name : Option String} {body : Json → Program} {next : Option Json → Program} {v : Json}
      {us ks : List Skeleton} {q : Program} (free : ∀ x ∈ name, W.free x)
      (inside : Lays W (body .null) us (.stop (.value v))) (rest : Lays W (next none) ks q) :
      Lays W (.install (.region name) body next) (.wrapper .region us :: ks) q
  /-- An insert. -/
  | insert {name : Option String} {body : Json → Program} {next : Option Json → Program} {v : Json}
      {ks : List Skeleton} {q : Program} (free : ∀ x ∈ name, W.free x)
      (steady : W.Steady (body .null) v) (rest : Lays W (next none) ks q) :
      Lays W (.install (.insert name) body next)
        (.wrapper .insert (skeletons (Fragment.trees (v.items.map Fragment.ofJson))) :: ks) q
  /-- A boundary. Its fallback may be anything, as no error is raised. -/
  | boundary {p content next q : Program} {v : Json} {us ks : List Skeleton}
      (boundary : p.boundary? = some (content, next))
      (inside : Lays W content us (.stop (.value v))) (rest : Lays W next ks q) :
      Lays W p (.marker .opening :: (us ++ .marker .closing :: ks)) q

namespace Engine

open Hydration Walk

variable {W : World} {k : Nat} {d : Drawing} {rest : List Drawing} {w w' : Sheet}
  {f : Hydration.Frame} {fs : List Hydration.Frame} {done ahead tail : List DomId}
  {us ks : List Skeleton} {p q : Program} {v : Json}

/-- Up to some point a program adds skeletons to the level, and goes on from there. -/
def World.Leads (W : World) (p : Program) (ks : List Skeleton) (q : Program) : Prop :=
  ∀ {k : Nat} {d : Drawing} {rest : List Drawing} {w : Sheet} {f : Hydration.Frame}
    {fs : List Hydration.Frame} {done ahead tail : List DomId} {Q : Outcome → Sheet → Prop},
    w.At f fs done ahead tail →
      (∀ w', w.Gains w' f fs done ahead tail ks → Goes W k d rest (fun κ => exec κ q) w' Q) →
        Goes W k d rest (fun κ => exec κ p) w Q

namespace World.Leads

/-- A part that adds skeletons stands in front. -/
theorem behind {α : Type} {x : Kernel → Run α} {a : α} {Q : Outcome → Sheet → Prop}
    (us : List Skeleton) (next : α → Program) (h : W.Leads (next a) ks q)
    (hx : Goes W k d rest x w fun b w' => b = a ∧ w.Gains w' f fs done ahead tail us)
    (hq : ∀ w', w.Gains w' f fs done ahead tail (us ++ ks) →
      Goes W k d rest (fun κ => exec κ q) w' Q) :
    Goes W k d rest (fun κ => x κ >>= fun b => exec κ (next b)) w Q := by
  refine hx.bind ?_
  rintro _ w₁ ⟨rfl, f₁, new, used, left, rfl, hadds⟩
  exact h hadds.there fun w' hgains => hq w' (hadds.then hgains)

/-- A whole template. -/
theorem whole (h : W.Leads p us (.stop (.value v))) (hat : w.At f fs done ahead tail) :
    Goes W k d rest (fun κ => exec κ p) w fun o w' =>
      o = .value v ∧ w.Gains w' f fs done ahead tail us :=
  h hat fun w' hgains => by
    simp only [exec]
    exact .ret ⟨rfl, hgains⟩

theorem renders (h : W.Leads p us (.stop (.value v))) : W.Renders p us := fun _ _ _ _ _ _ _ _ hat =>
  (h.whole hat).mono fun _ _ ⟨ho, hgains⟩ => ⟨⟨v, ho⟩, hgains⟩

end World.Leads

/-- The node that was provided last is entered. -/
theorem goes_enter {id : DomId} {created : Bool} {next : Option Json → Program}
    {Q : Outcome → Sheet → Prop} (hframes : w.cursor.frames = f :: fs)
    (hlast : w.cursor.last = some (id, created))
    (h : Goes W k d rest (fun κ => exec κ (next none)) { w with cursor :=
      ⟨Frame.open w.document id (if created then .create else f.mode) :: f :: fs, none⟩ } Q) :
    Goes W k d rest (fun κ => exec κ (.op .enter next)) w Q := by
  simp only [exec, performOp]
  refine (goes_noAnswer ((Goes.walking (enterChildren_run hframes hlast) (Nat.le_refl _)).mono
    fun _ _ h => h.2)).bind ?_
  rintro _ _ ⟨rfl, rfl⟩
  exact h

/-- A node that was entered is left. -/
theorem goes_exit {g : Hydration.Frame} {next : Option Json → Program}
    {Q : Outcome → Sheet → Prop} (hframes : w.cursor.frames = g :: f :: fs)
    (h : Goes W k d rest (fun κ => exec κ (next none)) { w.settleFrame g with
      cursor := ⟨f :: fs, some (g.parent, g.mode = .create)⟩ } Q) :
    Goes W k d rest (fun κ => exec κ (.op .exit next)) w Q := by
  have hsettled : w.document.nodes.size ≤ (w.settleFrame g).document.nodes.size := by
    rw [document_settleFrame]
  simp only [exec, performOp]
  refine (goes_noAnswer ((Goes.walking (exitChildren_run hframes) hsettled).mono
    fun _ _ h => h.2)).bind ?_
  rintro _ _ ⟨rfl, rfl⟩
  exact h

/-- A node that was provided is entered, and left behind what is drawn inside. -/
theorem leads_inside {tag : String} {f₁ : Hydration.Frame} {skipped used left : List DomId}
    {id : DomId} {next' next'' : Option Json → Program} {Q : Outcome → Sheet → Prop} {w₁ : Sheet}
    (hoffers : w.Offers w₁ f f₁ fs done skipped id used left tail (.element tag))
    (hinside : W.Leads (next' none) us (.op .exit next''))
    (hrest : ∀ w', w.Adds w' f f₁ fs done (skipped ++ [id]) used left tail
        [.element (Text.lowerAscii tag.toList) us] →
      Goes W k d rest (fun κ => exec κ (next'' none)) w' Q) :
    Goes W k d rest (fun κ => exec κ (.op .enter next')) w₁ Q := by
  obtain ⟨created, hlast, -⟩ := hoffers.last
  let u : Sheet := { w₁ with
    cursor := ⟨Frame.open w₁.document id (if created then .create else f₁.mode) :: f₁ :: fs, none⟩ }
  have hin : u.At (.open w₁.document id (if created then .create else f₁.mode)) (f₁ :: fs) []
      (w₁.document.children id) [] := hoffers.at_inside hlast rfl rfl rfl
  refine goes_enter hoffers.advances.there.frames hlast (hinside hin fun w₂ hgains => ?_)
  obtain ⟨g, new, taken, rest', hsplit, hadds⟩ := hgains
  rw [hsplit] at hin
  exact goes_exit hadds.there.frames (hrest _ (hoffers.adds_inside (u := u) hlast rfl rfl rfl hadds
    (document_settleFrame w₂ g) rfl rfl))

/-- A template adds its skeletons, wherever it draws. -/
theorem leads_of_lays (hp : p.Lays W ks q) : W.Leads p ks q := by
  induction hp with
  | here =>
    intro k d rest w f fs done ahead tail Q hat hq
    exact hq w (.refl hat)
  | look answers _ ih =>
    intro k d rest w f fs done ahead tail Q hat hq
    simp only [exec]
    refine ih.behind [] _ ((goes_look answers).mono ?_) hq
    rintro _ w₁ ⟨rfl, rfl⟩
    exact ⟨rfl, .refl hat⟩
  | @thought body next v _ _ steady _ ih =>
    intro k d rest w f fs done ahead tail Q hat hq
    simp only [exec, enclose, bind_assoc, pure_bind]
    refine ih.behind [] (fun o => next o none) (goes_callExec ((goes_look steady).mono
      ?_)) hq
    rintro _ w₁ ⟨rfl, rfl⟩
    exact ⟨rfl, .refl hat⟩
  | @part body next v _ _ _ _ _ ih ih' =>
    intro k d rest w f fs done ahead tail Q hat hq
    simp only [exec, enclose, bind_assoc, pure_bind]
    exact ih'.behind _ (fun o => next o none) (goes_callExec (ih.whole hat)) hq
  | @element tag attrs name next next' next'' _ _ _ free enter _ _ ih ih' =>
    intro k d rest w f fs done ahead tail Q hat hq
    simp only [exec]
    refine (goes_claim free hat).bind ?_
    rintro _ w₁ ⟨rfl, id, f₁, skipped, used, left, rfl, hoffers⟩
    rw [enter]
    refine leads_inside hoffers ih fun w₂ hadds => ?_
    exact ih' hadds.there fun w' hgains => hq w' (hadds.then hgains)
  | staticText free _ ih =>
    intro k d rest w f fs done ahead tail Q hat hq
    simp only [exec]
    exact ih.behind [] _ (goes_staticText free hat) hq
  | dynText free steady _ ih =>
    intro k d rest w f fs done ahead tail Q hat hq
    simp only [exec, performInstall]
    exact ih.behind [] _ (goes_noAnswer (goes_dynText free steady hat)) hq
  | attr free other steady _ ih =>
    intro k d rest w f fs done ahead tail Q hat hq
    simp only [exec]
    exact ih.behind [] _ (goes_attr free other steady hat) hq
  | region free _ _ ih ih' =>
    intro k d rest w f fs done ahead tail Q hat hq
    simp only [exec, performInstall]
    exact ih'.behind _ _ (goes_noAnswer (goes_region free ih.renders hat)) hq
  | insert free steady _ ih =>
    intro k d rest w f fs done ahead tail Q hat hq
    simp only [exec, performInstall]
    exact ih.behind _ _ (goes_noAnswer (goes_insert free steady hat)) hq
  | @boundary p content next q v us ks hboundary _ _ ih ih' =>
    intro k d rest w f fs done ahead tail Q hat hq
    have hput (fallback : Option (Json → Program)) : Goes W k d rest
        (fun κ => boundary κ content fallback >>= fun _ => exec κ next) w Q := by
      refine ih'.behind (.marker .opening :: (us ++ [.marker .closing])) (fun _ => next) (a := ())
        ((goes_boundary_renders ih.renders fallback hat).mono fun _ _ h => ⟨rfl, h⟩) ?_
      simpa using hq
    cases p with
    | guarded fallback content next =>
      cases hboundary
      simp only [exec]
      exact hput _
    | install i body next =>
      cases i with
      | boundary =>
        cases hboundary
        simp only [exec, performInstall, noAnswer, bind_assoc, pure_bind]
        exact hput none
      | _ => cases hboundary
    | _ => cases hboundary

/-! ## Where templates are drawn -/

namespace World

variable {s s' : State} {n : Nat}

/-- A state in which an application may be mounted: what runs and what is current was created, and
the names of the template stand for nothing yet. -/
structure Opens (W : World) (s : State) : Prop extends W.Ready s where
  /-- What runs was created. -/
  running : ∀ id, s.tracking.isRunning id = true → id.index < s.kinds.size
  /-- The current scopes were created. -/
  current : ∀ x ∈ s.scopes.stack, x.index < s.scopes.next
  /-- Nodes that are made belong to the drawing. -/
  base : W.base ≤ s.kinds.size
  /-- The query data that is being fetched for was there before. -/
  fetching : ∀ c : ClientId, .client c ∈ s.starting → c.index < W.clients
  /-- New query data is other data. -/
  clients : W.clients ≤ s.nextClient
  /-- The names of the template are free. -/
  names : ∀ x, W.free x → s.handle? x = none

theorem Opens.stage (h : W.Opens s) (n : Nat) : W.Stage s.scopes.next n s where
  reached := h.reached
  holds := h.holds
  quiet := h.quiet
  running := h.running
  current := h.current
  bare _ _ hk hx := absurd (h.reached.owned.forest.created hx) (Nat.not_lt.2 hk)
  begun := Nat.le_refl _
  base := h.base
  fetching := h.fetching
  names x hx := .inl (h.names x hx)

/-- Query data changes, and nothing else. -/
theorem Stage.withClients (h : W.Stage k n s) (hidles : s.Idles s') (hs : s' = { s with
    clients := s'.clients
    nextClient := s'.nextClient }) : W.Stage k n s' := by
  have hholds : W.holds s' := W.drifts (.aside (by rw [hs])) h.holds
  have hquiet := hidles.quiet h.quiet
  have hreached := h.reached.path hidles.path
  rw [hs] at hholds hquiet hreached ⊢
  exact { h with reached := hreached, holds := hholds, quiet := hquiet }

end World

namespace World

variable {s : State}

/-- Signals with names, as they are in a given state. -/
structure Signals (o s : State) : Prop where
  /-- What names stand for. -/
  handle : ∀ x id, o.handle? x = some (.signal id) → s.handle? x = some (.signal id)
  /-- They were created. -/
  created : ∀ x id, o.handle? x = some (.signal id) → id.index < o.kinds.size
  /-- Their values. -/
  value : ∀ x id, o.handle? x = some (.signal id) → s.cells[id]? = o.cells[id]?

theorem Signals.of_same {o s s' : State} (h : Signals o s) (hnames : s'.names = s.names)
    (hcells : ∀ x id, o.handle? x = some (.signal id) → s'.cells[id]? = s.cells[id]?) :
    Signals o s' where
  handle x id hx := by
    rw [State.handle?, hnames]
    exact h.handle x id hx
  created := h.created
  value x id hx := (hcells x id hx).trans (h.value x id hx)

/-- They stay as they are while effects come later and other names are given. -/
theorem Signals.drifts {o s s' : State} (hs : Signals o s)
    (h : s.Drifts o.kinds.size (fun x => o.handle? x = none) s') : Signals o s' := by
  have hne {x : String} {id j : NodeId} (hx : o.handle? x = some (.signal id))
      (hj : o.kinds.size ≤ j.index) : j ≠ id := by
    rintro rfl
    exact Nat.not_lt.2 hj (hs.created x j hx)
  cases h with
  | aside h =>
    rw [h]
    exact hs.of_same rfl fun _ _ _ => rfl
  | enter id h => exact hs.of_same rfl fun _ _ _ => rfl
  | endRun id h => exact hs.of_same rfl fun _ _ _ => rfl
  | trust id h => exact hs.of_same rfl fun _ _ _ => rfl
  | effect id h f =>
    refine hs.of_same rfl fun x i hx => ?_
    show (s.cells.modify id _)[i]? = _
    rw [Std.HashMap.getElem?_modify, if_neg (by simpa using hne hx h)]
  | create h e =>
    refine hs.of_same rfl fun x i hx => ?_
    show (s.cells.insert ⟨s.kinds.size⟩ _)[i]? = _
    rw [Std.HashMap.getElem?_insert, if_neg (by simpa using hne hx h)]
  | detach id h => exact hs.of_same rfl fun _ _ _ => rfl
  | drop id =>
    rw [State.dropNode]
    split
    · exact hs
    · rename_i hkept
      refine hs.of_same rfl fun x i hx => ?_
      have hother : id ≠ i := by
        rintro rfl
        exact hkept (keepsNode_of_isNamed (isNamed_of_handle? (hs.handle x id hx) rfl))
      show (s.cells.erase id)[i]? = _
      rw [Std.HashMap.getElem?_erase, if_neg (by simpa using hother)]
  | name x h document node =>
    refine ⟨fun y id hy => ?_, hs.created, hs.value⟩
    have hxy : y ≠ x := by
      rintro rfl
      rw [h] at hy
      cases hy
    exact (State.lookup_cons_filter s.names x y _).trans ((if_neg hxy).trans (hs.handle y id hy))

/-- The signals of a state, with all names that stand for nothing in it. -/
def signals (o : State) : World where
  base := o.kinds.size
  clients := o.nextClient
  free x := o.handle? x = none
  holds := Signals o
  drifts h hs := hs.drifts h

/-- With its own signals, a state in which nothing waits is one in which an application may be
mounted. -/
theorem opens_signals (hs : s.Reached) (hquiet : s.Quiet)
    (hrunning : ∀ id, s.tracking.isRunning id = true → id.index < s.kinds.size)
    (hcurrent : ∀ x ∈ s.scopes.stack, x.index < s.scopes.next)
    (hfetching : ∀ c : ClientId, .client c ∈ s.starting → c.index < s.nextClient) :
    (signals s).Opens s where
  reached := hs
  holds := {
    handle := fun _ _ hx => hx
    created := fun x id hx => by
      obtain ⟨l₁, l₂, hl, -⟩ := List.lookup_eq_some_iff.1 hx
      exact Canvas.lt_of_getElem? (hs.typed.names (x, .signal id) (by rw [hl]; simp))
    value := fun _ _ _ => rfl }
  quiet := hquiet
  running := hrunning
  current := hcurrent
  base := Nat.le_refl _
  fetching := hfetching
  clients := Nat.le_refl _
  names _ hx := hx

/-- A signal always has the value that it has. -/
theorem answers_get {o : State} {x : String} {id : NodeId} {v : Json}
    (hx : o.handle? x = some (.signal id)) (hcell : o.cells[id]? = some (.signal v)) :
    (signals o).Answers (.get x) (some v) := by
  intro s hs
  have hname : s.handle? x = some (.signal id) := hs.holds.handle x id hx
  have hvalue : s.cells[id]? = some (.signal v) := (hs.holds.value x id hx).trans hcell
  refine (gives_read_signal hname hvalue).imp ?_
  rintro _ _ ⟨rfl, rfl⟩
  obtain ⟨l₁, l₂, hl, -⟩ := List.lookup_eq_some_iff.1 hname
  have hsource : s.kinds[id.index]? = some .source :=
    hs.reached.typed.names (x, .signal id) (by rw [hl]; simp)
  have hrecord : s.Idles (s.modifyTracking (·.record id)) :=
    State.idles_record ⟨_, hsource, by simp⟩
  refine ⟨rfl, ⟨hrecord.path, rfl, rfl, rfl, rfl, rfl, rfl, fun j hj => ?_⟩,
    ⟨hs.holds.handle, hs.holds.created, hs.holds.value⟩⟩
  rwa [State.modifyTracking, Tracking.isRunning_record] at hj

end World

end Engine

end Rivulet
