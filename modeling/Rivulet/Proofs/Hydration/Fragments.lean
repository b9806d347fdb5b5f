import Rivulet.Proofs.Hydration.Claiming

/-!
# Levels inside levels

A node that was provided may be entered, and what is done below it changes nothing about the level
that it stands on. When a level is left, whatever is still ahead on it was not asked for: unless
the walk becomes unresolved there is nothing with a skeleton among it.

A fragment is claimed by its two ends, or its ends are created. What is drawn between them stays
between them, and when it could not be claimed it is removed without a trace before it is drawn
anew.
-/

namespace Rivulet.Hydration

open Markup

namespace Walk

variable {α : Type} {w w' w'' : Walk α} {f f' g : Frame} {fs : List Frame}
  {done new used ahead tail inside : List DomId} {id p : DomId}

/-- A walk that claims has all children of the node ahead. -/
theorem at_open_hydrate (hframes : w.cursor.frames = Frame.open w.document p .hydrate :: fs)
    (hd : w.document.Treelike) (hp : p.index < w.document.nodes.size) :
    w.At (Frame.open w.document p .hydrate) fs [] (w.document.children p) [] where
  frames := hframes
  treelike := hd
  held := hp
  children := by simp [Frame.open]
  stop := rfl
  next _ := by simp [Frame.open, Document.firstChild?]
  creating h := by cases h
  closed h := absurd rfl h

/-- A walk that creates goes on behind all children of the node. -/
theorem at_open_create (hframes : w.cursor.frames = Frame.open w.document p .create :: fs)
    (hd : w.document.Treelike) (hp : p.index < w.document.nodes.size) :
    w.At (Frame.open w.document p .create) fs (w.document.children p) [] [] where
  frames := hframes
  treelike := hd
  held := hp
  children := by simp [Frame.open]
  stop := rfl
  next h := by cases h
  creating _ := ⟨rfl, rfl⟩
  closed h := absurd rfl h

/-- All children of a node that is opened are ahead, if a walk that creates finds none. -/
theorem at_open {mode : Mode} (hframes : w.cursor.frames = Frame.open w.document p mode :: fs)
    (hd : w.document.Treelike) (hp : p.index < w.document.nodes.size)
    (hnone : mode = .create → w.document.children p = []) :
    w.At (Frame.open w.document p mode) fs [] (w.document.children p) [] := by
  cases mode with
  | hydrate => exact at_open_hydrate hframes hd hp
  | create =>
    have hat := at_open_create hframes hd hp
    rw [hnone rfl] at hat ⊢
    exact hat

/-- The node that was claimed last is entered. -/
theorem enterChildren_run {created : Bool} {f : Frame} (hframes : w.cursor.frames = f :: fs)
    (hlast : w.cursor.last = some (id, created)) :
    enterChildren.run w = .ok ((), { w with
      cursor := ⟨Frame.open w.document id (if created then .create else f.mode) :: f :: fs,
          none⟩ }) := by
  rw [enterChildren, bind_ok (x := get) (b := w) rfl, hlast, ← hframes]
  cases created with
  | true => rfl
  | false => exact bind_ok (mode_run hframes)

/-- What is done below a node that was passed changes nothing about the level. -/
theorem At.nested (h : w.At f fs done ahead tail) (hid : id ∈ w.document.children f.parent)
    (hr : w.document.Regrown w'.document id inside)
    (hmarker : ∀ j, j.index < w.document.nodes.size → ∀ edge,
      w'.document.kind j = .marker edge ↔ w.document.kind j = .marker edge)
    (hinside : ∀ a ∈ inside, a ∈ w.document.children id) (hframes : w'.cursor.frames = f :: fs) :
    w'.At f fs done ahead tail where
  frames := hframes
  treelike := hr.treelike
  held := Nat.lt_of_lt_of_le h.held hr.size
  children := by rw [hr.children_parent h.treelike hid hinside, h.children]
  stop := h.stop
  next := h.next
  creating := h.creating
  closed hstop := (h.closed hstop).congr fun x hx => hmarker x (h.treelike.holds f.parent x (by
    rw [h.children]
    exact List.mem_append_right _ (List.mem_append_left _ hx)))

/-- What is done below a node that was provided belongs to the step that provided it. -/
theorem Advances.nested (h : w.Advances w' f f' fs done new used ahead tail) (hmem : id ∈ new)
    (hid : w.document.nodes.size ≤ id.index ∨ id ∈ used)
    (hr : w'.document.Redrawn w''.document id inside)
    (hinside : ∀ a ∈ inside, a ∈ w'.document.children id) (hframes : w''.cursor.frames = f' :: fs)
    (hunresolved : w'.unresolved = true → w''.unresolved = true)
    (hcreates : f.mode = .create → w''.unresolved = w'.unresolved) :
    w.Advances w'' f f' fs done new used ahead tail where
  here := h.here
  there := by
    refine h.there.nested ?_ hr.toRegrown (fun j hj => marker_iff_of_bare (hr.bare j hj)) hinside
      hframes
    rw [h.there.children]
    exact List.mem_append_left _ (List.mem_append_right _ hmem)
  same := h.same
  moves := ⟨h.moves.redrawn.nest h.here.treelike hid hr hinside,
    fun hw => hunresolved (h.moves.unresolved hw)⟩
  creates hmode := (hcreates hmode).trans (h.creates hmode)

/-- What is still ahead when a level is closed. -/
theorem At.rest_eq (h : w.At f fs done ahead tail) (hmode : f.mode = .hydrate) :
    (w.ahead f).takeWhile (f.stop ≠ some ·) = ahead := by
  have hbefore : ∀ x ∈ ahead, decide (f.stop ≠ some x) = true := by
    intro x hx
    rw [decide_eq_true_eq, h.stop]
    exact fun hstop => h.disjoint.2 x hx (List.mem_of_mem_head? hstop)
  rw [h.ahead_eq hmode, List.takeWhile_append_of_pos hbefore]
  have hstop := h.stop
  cases tail with
  | nil => simp
  | cons y tail => simp [hstop]

/-- What is still ahead when a level is closed had no skeleton, or the walk is unresolved. -/
theorem At.settleFrame_spec (h : w.At f fs done ahead tail) :
    (w.settleFrame f).document = w.document ∧ (w.settleFrame f).cursor = w.cursor ∧
      (w.unresolved = true → (w.settleFrame f).unresolved = true) ∧
      (f.mode = .create → (w.settleFrame f).unresolved = w.unresolved) ∧
      ((w.settleFrame f).unresolved = false → ∀ x ∈ ahead, Silent (w.document.kind x)) := by
  rw [settleFrame]
  cases hmode : f.mode with
  | create =>
    obtain ⟨-, rfl⟩ := h.creating hmode
    exact ⟨rfl, rfl, fun hw => hw, fun _ => rfl, fun _ x hx => absurd hx List.not_mem_nil⟩
  | hydrate =>
    simp only [h.rest_eq hmode]
    by_cases hleft : (ahead.filter fun id => isCandidate false (w.document.kind id)).isEmpty = true
    · rw [if_pos hleft]
      refine ⟨rfl, rfl, fun hw => hw, fun _ => rfl, fun _ x hx => ?_⟩
      rw [List.isEmpty_iff, List.filter_eq_nil_iff] at hleft
      exact Bool.eq_false_iff.2 (hleft x hx)
    · rw [if_neg hleft]
      refine ⟨rfl, rfl, fun _ => rfl, ?_, ?_⟩
      · intro hcreate
        cases hcreate
      · intro hresolved
        cases hresolved

/-- Where nothing that is still ahead had a skeleton, it is passed over. -/
theorem At.settleFrame_silent (h : w.At f fs done ahead tail)
    (hsilent : ∀ x ∈ ahead, Silent (w.document.kind x)) :
    w.settleFrame f = { w with report := w.report.addSkipped ahead.length } := by
  have hnone : (ahead.filter fun id => isCandidate false (w.document.kind id)) = [] :=
    List.filter_eq_nil_iff.2 fun x hx => Bool.eq_false_iff.1 (hsilent x hx)
  rw [settleFrame]
  cases hmode : f.mode with
  | create =>
    obtain ⟨-, rfl⟩ := h.creating hmode
    rfl
  | hydrate =>
    simp only [h.rest_eq hmode, hnone]
    rfl

/-- A level that was entered is left. -/
theorem exitChildren_run (hframes : w.cursor.frames = g :: f :: fs) :
    exitChildren.run w = .ok ((), { w.settleFrame g with
      cursor := ⟨f :: fs, some (g.parent, g.mode = .create)⟩ }) := by
  have hlength : ¬w.cursor.frames.length ≤ 1 := by simp [hframes]
  rw [exitChildren, bind_ok (x := get) (b := w) rfl, if_neg hlength]
  refine congrArg (fun u => Except.ok ((), u)) ?_
  rw [closeFrame, hframes]

/-- A walk over a single level is over when that level is closed. -/
theorem finish_eq (hframes : w.cursor.frames = [f]) :
    w.finish = { w.settleFrame f with cursor := ⟨[], some (f.parent, f.mode = .create)⟩ } := by
  rw [finish, hframes]
  show w.closeFrame = _
  rw [closeFrame, hframes]

end Walk

/-! ## The ends of fragments -/

/-- The level between the ends of a fragment. -/
def Frame.between {α : Type} (d : Document α) (parent opening closing : DomId) (mode : Mode) :
    Frame where
  parent
  next := match mode with
    | .hydrate => d.nextSibling? opening
    | .create => none
  stop := some closing
  mode

/-- Where nothing is, nothing is left open. -/
theorem closed_nil (kindOf : DomId → Kind) : Closed kindOf [] := by
  intro a x b h
  simp at h

namespace Walk

variable {α : Type} {w w' w'' v : Walk α} {f f' g : Frame} {fs : List Frame}
  {done new used ahead tail inside skipped rest : List DomId} {opening closing p : DomId}

/-- A walk between the ends of a fragment. -/
theorem at_between {mode : Mode} {a b : List DomId}
    (hframes : w.cursor.frames = Frame.between w.document p opening closing mode :: fs)
    (hd : w.document.Treelike)
    (hchildren : w.document.children p = a ++ opening :: (inside ++ closing :: b))
    (hnone : mode = .create → inside = [])
    (hclosed : mode = .hydrate → Closed w.document.kind inside) :
    w.At (Frame.between w.document p opening closing mode) fs (a ++ [opening]) inside
      (closing :: b) where
  frames := hframes
  treelike := hd
  held := Document.lt_size_of_child (p := p) (c := opening) (by simp [hchildren])
  children := by simp [Frame.between, hchildren]
  stop := rfl
  next hmode := by
    obtain rfl : mode = .hydrate := hmode
    exact hd.nextSibling?_eq hchildren
  creating hmode := by
    obtain rfl : mode = .create := hmode
    exact ⟨rfl, hnone rfl⟩
  closed _ := by
    cases mode with
    | hydrate => exact hclosed rfl
    | create =>
      rw [hnone rfl]
      exact closed_nil _

/-- What the ends of a fragment are, and what is between them. -/
structure Ends (w w' : Walk α) (f f' : Frame) (fs : List Frame) (m : Markers)
    (done skipped inside used ahead tail : List DomId) : Prop where
  /-- The walk goes on behind the fragment. -/
  advances : w.Advances w' f f' fs done (skipped ++ m.opening :: (inside ++ [m.closing])) used ahead
    tail
  /-- What was passed over has no skeleton. -/
  silent : ∀ x ∈ skipped, Silent (w'.document.kind x)
  /-- Where the fragment starts. -/
  opening : w'.document.kind m.opening = .marker .opening
  /-- Where the fragment ends. -/
  closing : w'.document.kind m.closing = .marker .closing
  /-- What is between the ends was ahead. -/
  among : ∀ x ∈ inside, x ∈ used
  /-- Only the level changes. -/
  level : w.document.Redrawn w'.document f.parent []
  /-- There is nothing between new ends. -/
  fresh : m.mode = .create → inside = []
  /-- New ends are not counted as claimed. -/
  created : m.mode = .create → w.document.nodes.size ≤ m.opening.index ∧
    w.document.nodes.size ≤ m.closing.index ∧ w'.report.claimed = w.report.claimed
  /-- Only a walk that claims claims the ends of a fragment. -/
  hydrates : m.mode = .hydrate → f.mode = .hydrate ∧ Closed w'.document.kind inside
  /-- Old ends were ahead and are counted as claimed. -/
  claimed : m.mode = .hydrate → m.opening ∈ used ∧ m.closing ∈ used ∧
    w'.report.claimed = w.report.claimed + 2

/-- The ends of a fragment are created one after the other. -/
theorem createMarkers_run (hframes : w.cursor.frames = f :: fs)
    (hp : f.parent.index < w.document.nodes.size) :
    let first : DomId := ⟨w.document.nodes.size⟩
    let d := (w.document.create (.marker .opening)).2.insertBefore f.parent first f.anchor
    let second : DomId := ⟨d.nodes.size⟩
    createMarkers.run w = .ok (⟨first, second, .create⟩, { w with
      document := (d.create (.marker .closing)).2.insertBefore f.parent second f.anchor
      report := w.report.addCreated 2 }) := by
  intro first d second
  have halone : (w.document.create (.marker .opening)).2.parent? first = none := by
    rw [Document.parent?_create]
    exact Document.parent?_of_size_le (Nat.le_refl _)
  have hdocument := Document.insertBefore_create f.anchor halone
    (p := f.parent) (by rw [Document.size_create]; exact Nat.lt_succ_of_lt hp)
    (by rw [Document.size_create]; exact Nat.lt_succ_self _) (.marker .closing)
  have hid : ((w.document.create (.marker .opening)).2.create (.marker .closing)).1 = second := by
    rw [Document.create_fst]
    exact congrArg DomId.mk (Document.size_insertBefore f.anchor halone).symm
  have hrun : createMarkers.run w = .ok (⟨first,
      ((w.document.create (.marker .opening)).2.create (.marker .closing)).1, .create⟩, { w with
        document :=
          (((w.document.create (.marker .opening)).2.create (.marker .closing)).2.insertBefore
          f.parent first f.anchor).insertBefore f.parent
            ((w.document.create (.marker .opening)).2.create (.marker .closing)).1 f.anchor
        report := w.report.addCreated 2 }) := by
    rw [createMarkers, bind_ok (frame_run hframes), bind_ok (x := get) (b := w) rfl]
    rfl
  rw [hrun, hid, hdocument]

/-- New ends of a fragment stand where the walk stood. -/
theorem At.createMarkers_spec (h : w.At f fs done ahead tail) : ∃ m w',
    createMarkers.run w = .ok (m, w') ∧ w.Ends w' f f fs m done [] [] [] ahead tail ∧
      m.mode = .create ∧ w'.unresolved = w.unresolved := by
  let anchor := (ahead ++ tail).head?
  let first : DomId := ⟨w.document.nodes.size⟩
  let d := (w.document.create (.marker .opening)).2.insertBefore f.parent first anchor
  have hfirst : w.document.Inserted d f.parent first anchor (.marker .opening) :=
    h.treelike.inserted h.held _ anchor
  have hheld : f.parent.index < d.nodes.size := Nat.lt_of_lt_of_le h.held hfirst.redrawn.size
  let second : DomId := ⟨d.nodes.size⟩
  let d' := (d.create (.marker .closing)).2.insertBefore f.parent second anchor
  have hsecond : d.Inserted d' f.parent second anchor (.marker .closing) :=
    hfirst.redrawn.treelike.inserted hheld _ anchor
  have hne : first ≠ second := by
    simp [first, second, hfirst.size]
  have hredrawn := hfirst.redrawn.trans h.treelike hsecond.redrawn
  have hold {x : DomId} (hx : x ∈ ahead) : x ∈ w.document.children f.parent := by
    rw [h.children]
    exact List.mem_append_right _ (List.mem_append_left _ hx)
  have hchildren : d'.children f.parent = done ++ first :: second :: (ahead ++ tail) := by
    have hnodup := h.nodup
    have hone : d.children f.parent = (done ++ [first]) ++ (ahead ++ tail) := by
      rw [hfirst.children, h.children, Document.insertIn_head first hnodup]
      simp
    have hnodup' : ((done ++ [first]) ++ (ahead ++ tail)).Nodup := by
      rw [← hone]
      exact hfirst.redrawn.treelike.nodup f.parent
    rw [hsecond.children, hone, Document.insertIn_head second hnodup']
    simp
  let w' : Walk α := { w with document := d', report := w.report.addCreated 2 }
  have hthere : w'.At f fs (done ++ [first, second]) ahead tail := by
    refine ⟨h.frames, hredrawn.treelike, Nat.lt_of_lt_of_le h.held hredrawn.size, ?_, h.stop,
      h.next, h.creating, fun hstop => (h.closed hstop).congr fun x hx =>
        marker_iff_of_bare (hredrawn.bare x (h.treelike.holds _ _ (hold hx)))⟩
    show d'.children f.parent = _
    rw [hchildren]
    simp
  have hends : w.Ends w' f f fs ⟨first, second, .create⟩ done [] [] [] ahead tail :=
    { advances := ⟨h, hthere, .refl f, ⟨hredrawn, fun hw => hw⟩, fun _ => rfl⟩
      silent := by simp
      opening := by
        show d'.kind first = _
        rw [hsecond.others first hne, hfirst.kind]
      closing := hsecond.kind
      among := by simp
      level := hredrawn
      fresh := fun _ => rfl
      created := fun _ => ⟨Nat.le_refl _, hfirst.redrawn.size, rfl⟩
      hydrates := nofun
      claimed := nofun }
  refine ⟨⟨first, second, .create⟩, w', ?_, hends, rfl, rfl⟩
  rw [createMarkers_run h.frames h.held, h.anchor]

/-- Markers are found where an opening end stands that is closed. -/
theorem markersAt_eq {d : Document α} {found : DomId} {m : Markers}
    (h : markersAt d found = some m) : ∃ closing, m = ⟨found, closing, .hydrate⟩ ∧
      d.kind found = .marker .opening ∧ closeAmong d.kind 0 (d.following found) = some closing := by
  rw [markersAt] at h
  split at h
  · rename_i hopening
    obtain ⟨closing, hclose, rfl⟩ := Option.map_eq_some_iff.1 h
    exact ⟨closing, rfl, hopening, hclose⟩
  · cases h

/-- A fragment that starts ahead ends on the level. -/
theorem At.matching {found closing : DomId} (h : w.At f fs done (found :: ahead) tail)
    (hopening : w.document.kind found = .marker .opening)
    (hclose : closeAmong w.document.kind 0 (w.document.following found) = some closing) :
    ∃ inside rest, ahead = inside ++ closing :: rest ∧
      w.document.kind closing = .marker .closing ∧ Closed w.document.kind inside := by
  have hfollowing : w.document.following found = ahead ++ tail :=
    h.treelike.following_eq h.children
  rw [hfollowing] at hclose
  have hmem : closing ∈ ahead := by
    cases htail : tail with
    | nil =>
      rw [htail, List.append_nil] at hclose
      exact mem_of_closeAmong hclose
    | cons y tail' =>
      -- Between the ends of an outer fragment all fragments end before that one does.
      have hclosed := h.closed (by rw [h.stop, htail]; simp) [] found ahead rfl hopening
      obtain ⟨c, hc⟩ := Option.isSome_iff_exists.1 hclosed
      rw [closeAmong_append hc, Option.some.injEq] at hclose
      exact hclose ▸ mem_of_closeAmong hc
  obtain ⟨inside, rest, rfl⟩ := List.append_of_mem hmem
  rw [List.append_assoc, List.cons_append] at hclose
  have hnodup : (found :: (inside ++ closing :: (rest ++ tail))).Nodup := by
    have hlevel := (List.nodup_append.1 h.nodup).2.1
    rwa [List.cons_append, List.append_assoc, List.cons_append] at hlevel
  rw [List.nodup_cons, List.nodup_append, List.nodup_cons] at hnodup
  obtain ⟨-, -, ⟨hrest, -⟩, hapart⟩ := hnodup
  exact ⟨inside, rest, rfl, kind_of_closeAmong hclose,
    .between (fun hin => hapart closing hin closing List.mem_cons_self rfl) hrest hclose⟩

/-- A fragment behind nodes that were passed over. -/
theorem Ends.behind {m : Markers} {more : List DomId}
    (h : w'.Ends w'' f' g fs m (done ++ skipped) more inside used ahead tail)
    (hskip : w.Advances w' f f' fs done skipped skipped (used ++ ahead) tail)
    (hdocument : w'.document = w.document) (hclaimed : w'.report.claimed = w.report.claimed)
    (hsilent : ∀ x ∈ skipped, Silent (w'.document.kind x)) :
    w.Ends w'' f g fs m done (skipped ++ more) inside (skipped ++ used) ahead tail where
  advances := by
    rw [List.append_assoc]
    exact hskip.trans h.advances
  silent x hx := by
    rcases List.mem_append.1 hx with hx | hx
    · exact h.advances.silent_passed (fun y hy => List.mem_append_right _ hy) hsilent x hx
    · exact h.silent x hx
  opening := h.opening
  closing := h.closing
  among x hx := List.mem_append_right _ (h.among x hx)
  level := hskip.same.parent ▸ hdocument ▸ h.level
  fresh := h.fresh
  created hmode := by
    obtain ⟨hopening, hclosing, hcount⟩ := h.created hmode
    exact ⟨hdocument ▸ hopening, hdocument ▸ hclosing, hcount.trans hclaimed⟩
  hydrates hmode := ⟨hskip.same.mode ▸ (h.hydrates hmode).1, (h.hydrates hmode).2⟩
  claimed hmode := by
    obtain ⟨hopening, hclosing, hcount⟩ := h.claimed hmode
    exact ⟨List.mem_append_right _ hopening, List.mem_append_right _ hclosing, hclaimed ▸ hcount⟩

section Looking

variable {w₁ : Walk α}

/-- Where nodes are created, so are the ends of a fragment. -/
theorem claimMarkers_create (hmode : mode.run w = .ok (.create, w)) :
    (claimMarkers (α := α)).run w = createMarkers.run w := by
  rw [claimMarkers, bind_ok hmode]

/-- Without a candidate the ends are created. -/
theorem claimMarkers_none (hmode : mode.run w = .ok (.hydrate, w))
    (hlook : (candidate false).run w = .ok (none, w₁)) :
    (claimMarkers (α := α)).run w =
      createMarkers.run (w₁.modifyReport (·.record "boundary open" none .inserted)) := by
  rw [claimMarkers, bind_ok hmode]
  exact bind_ok hlook

/-- A candidate that is an opening end is claimed with its closing end. -/
theorem claimMarkers_claimed {found : DomId} {m : Markers} (hmode : mode.run w = .ok (.hydrate, w))
    (hlook : (candidate false).run w = .ok (some found, w₁))
    (hmarkers : markersAt w₁.document found = some m) :
    (claimMarkers (α := α)).run w =
      .ok (m, (w₁.advancePast m.closing).modifyReport (·.addClaimed 2)) := by
  rw [claimMarkers, bind_ok hmode]
  refine (bind_ok hlook).trans ((bind_ok (x := get) (b := w₁) rfl).trans ?_)
  rw [hmarkers]
  rfl

/-- A candidate that is no opening end is refused. -/
theorem claimMarkers_refused {found : DomId} (hmode : mode.run w = .ok (.hydrate, w))
    (hlook : (candidate false).run w = .ok (some found, w₁))
    (hmarkers : markersAt w₁.document found = none) :
    (claimMarkers (α := α)).run w = createMarkers.run (w₁.escalate.modifyReport
      (·.record "boundary open" (some (w₁.document.kind found).describe) .escalated)) := by
  rw [claimMarkers, bind_ok hmode]
  refine (bind_ok hlook).trans ((bind_ok (x := get) (b := w₁) rfl).trans ?_)
  rw [hmarkers]
  rfl

end Looking

/-- The ends of a fragment that is ahead are claimed. -/
theorem At.ends_claimed (h : w.At f fs done (opening :: (inside ++ closing :: ahead)) tail)
    (hmode : f.mode = .hydrate) (hopening : w.document.kind opening = .marker .opening)
    (hclosing : w.document.kind closing = .marker .closing)
    (hclosed : Closed w.document.kind inside) :
    let f' : Frame := { f with next := (ahead ++ tail).head? }
    let w' : Walk α := { w with
      report := w.report.addClaimed 2
      cursor := { w.cursor with frames := f' :: fs } }
    (w.advancePast closing).modifyReport (·.addClaimed 2) = w' ∧
      w.Ends w' f f' fs ⟨opening, closing, .hydrate⟩ done [] inside
        (opening :: (inside ++ [closing]))
        ahead tail := by
  intro f' w'
  have hfacing : w.Facing f fs (done ++ opening :: inside) closing ahead tail :=
    ⟨h.frames, h.treelike, h.held, by simp [h.children], h.stop, hmode,
      fun hstop => ((h.closed hstop).suffix (a := opening :: inside)).suffix (a := [closing])⟩
  have hthere := hfacing.at_advancePast
  rw [hfacing.advancePast_eq] at hthere ⊢
  have hadvances : w.Advances w' f f' fs done (opening :: (inside ++ [closing]))
      (opening :: (inside ++ [closing])) ahead tail :=
    { here := by simpa using h
      there := ⟨rfl, hthere.treelike, hthere.held, by simp [w', f', h.children], hthere.stop,
        hthere.next, hthere.creating, hthere.closed⟩
      same := ⟨rfl, rfl, rfl⟩
      moves := ⟨.refl h.treelike _ _, fun hw => hw⟩
      creates := fun _ => rfl }
  exact ⟨rfl,
    { advances := hadvances
      silent := by simp
      opening := hopening
      closing := hclosing
      among := fun x hx => by simp [hx]
      level := .refl h.treelike _ _
      fresh := nofun
      created := nofun
      hydrates := fun _ => ⟨hmode, hclosed⟩
      claimed := fun _ => ⟨by simp, by simp, rfl⟩ }⟩

/-- What a walk does for a fragment that is asked for. -/
theorem At.claimMarkers_spec (h : w.At f fs done ahead tail) : ∃ m w' f' skipped inside used rest,
    claimMarkers.run w = .ok (m, w') ∧ ahead = used ++ rest ∧
      w.Ends w' f f' fs m done skipped inside used rest tail := by
  have hhere := mode_run h.frames
  cases hmode : f.mode with
  | create =>
    rw [hmode] at hhere
    obtain ⟨m, w', hrun, hends, -, -⟩ := h.createMarkers_spec
    exact ⟨m, w', f, [], [], [], ahead, (claimMarkers_create hhere).trans hrun, rfl, hends⟩
  | hydrate =>
    rw [hmode] at hhere
    obtain ⟨w₁, f₁, skipped, rest, hlook, rfl, hskip, hdocument, hclaimed, hsilent, hfound⟩ :=
      h.skips hmode false
    have hat := hskip.there
    have hmode₁ : f₁.mode = .hydrate := hskip.same.mode.trans hmode
    -- New ends, after something else about the walk was changed.
    have hcreate {w₂ : Walk α} (hrun : claimMarkers.run w = createMarkers.run w₂)
        (hd : w₂.document = w₁.document) (hc : w₂.cursor = w₁.cursor)
        (hr : w₂.report.claimed = w₁.report.claimed)
        (hu : w₁.unresolved = true → w₂.unresolved = true) : ∃ m w' f' skipped' inside used rest',
          claimMarkers.run w = .ok (m, w') ∧ skipped ++ rest = used ++ rest' ∧
            w.Ends w' f f' fs m done skipped' inside used rest' tail := by
      have hskip₂ : w.Advances w₂ f f₁ fs done skipped skipped rest tail :=
        hskip.remark hd (by rw [hc]) hu fun hcreates => by rw [hmode] at hcreates; cases hcreates
      obtain ⟨m, w', hnew, hends, -, -⟩ := hskip₂.there.createMarkers_spec
      exact ⟨m, w', f₁, skipped ++ [], [], skipped ++ [], rest, hrun.trans hnew, by simp,
        hends.behind hskip₂ (hd.trans hdocument) (hr.trans hclaimed) (hd ▸ hsilent)⟩
    cases rest with
    | nil =>
      exact hcreate (claimMarkers_none hhere hlook) rfl rfl rfl fun hw => hw
    | cons found rest =>
      cases hmarkers : markersAt w₁.document found with
      | none =>
        exact hcreate (claimMarkers_refused hhere hlook hmarkers) rfl rfl rfl fun _ => rfl
      | some m =>
        have hrun := claimMarkers_claimed hhere hlook hmarkers
        obtain ⟨closing, rfl, hopening, hmatch⟩ := markersAt_eq hmarkers
        obtain ⟨inside, rest, rfl, hclosing, hclosed⟩ := hat.matching hopening hmatch
        obtain ⟨hstep, hends⟩ := hat.ends_claimed hmode₁ hopening hclosing hclosed
        refine ⟨_, _, _, skipped ++ [], inside, skipped ++ found :: (inside ++ [closing]), rest, ?_,
          by simp, hends.behind (by simpa using hskip) hdocument hclaimed hsilent⟩
        exact hrun.trans (congrArg (fun u : Walk α =>
          Except.ok ((⟨found, closing, .hydrate⟩ : Markers), u)) hstep)

end Walk

end Rivulet.Hydration
