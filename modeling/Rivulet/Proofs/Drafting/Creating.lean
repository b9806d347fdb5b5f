import Rivulet.Proofs.Drafting.Mounting
import Rivulet.Proofs.Drafting.Sketching

/-!
# Walks that create

A walk that creates puts the trees that its template stands for where it stands, and leaves all else
as it is. New nodes go in front of what the level stops at: the end of a fragment when the walk is
between its ends, and nothing when it is below a node.
-/

namespace Rivulet

open Markup Hydration

namespace Document

variable {α : Type} {d d₁ d' : Document α} {p : Spot} {new : List DomId} {x : DomId}

/-- New nodes may be dressed otherwise. -/
theorem Gains.dressed (h : d.Gains d₁ p new) (hdressed : d₁.Dressed d')
    (hkind : ∀ j, j.index < d.nodes.size → d'.kind j = d₁.kind j) : d.Gains d' p new where
  size := hdressed.size ▸ h.size
  treelike := h.treelike.congr hdressed.size hdressed.children hdressed.parent
  kind j hj := (hkind j hj).trans (h.kind j hj)
  children j hj hne := (hdressed.children j).trans (h.children j hj hne)
  spot := (hdressed.children p.parent).trans h.spot
  new := h.new

private theorem kind_setText_self (d : Document α) (hx : x.index < d.nodes.size)
    (content : String) :
    (d.setText x content).kind x = (d.kind x).setText content := by
  rw [kind, setText, modifyKind, entry_modify_self hx, kind]

private theorem kind_setText_of_ne (d : Document α) {j : DomId} (h : j ≠ x) (content : String) :
    (d.setText x content).kind j = d.kind j := by
  rw [kind, setText, modifyKind, entry_modify_of_ne d h, kind]

end Document

mutual

/-- Only elements of a fragment have children. -/
theorem Fragment.holdable_tree : ∀ f : Fragment, f.tree.Holdable
  | .text _ => .node rfl fun _ h => nomatch h
  | .element _ _ children => .node rfl (holdable_trees children)

/-- Only elements of several fragments have children. -/
theorem Fragment.holdable_trees : ∀ fs : List Fragment, ∀ t ∈ Fragment.trees fs, t.Holdable
  | [], _, h => nomatch h
  | f :: fs, t, h => by
    rw [Fragment.trees, List.mem_cons] at h
    rcases h with rfl | h
    · exact Fragment.holdable_tree f
    · exact holdable_trees fs t h

end

namespace Hydration

/-- Where new nodes go on a level that is created. -/
def Frame.spot (f : Frame) : Document.Spot := ⟨f.parent, f.stop⟩

namespace Walk

variable {α : Type} {w w' w₁ : Walk α} {f : Frame} {fs : List Frame} {d : Document α}
  {new more : List DomId} {ts : List Tree} {id : DomId} {m : Markers}

/-- A walk that creates stands on a level. -/
structure Stands (w : Walk α) (f : Frame) (fs : List Frame) : Prop where
  /-- The open levels. -/
  frames : w.cursor.frames = f :: fs
  /-- Nodes are made on the innermost one. -/
  mode : f.mode = .create
  /-- None is ahead. -/
  next : f.next = none
  /-- The nodes of the document form trees. -/
  treelike : w.document.Treelike
  /-- The level lies in the document. -/
  lies : f.spot.Lies w.document

/-- What a step has put on the level where the walk stands. -/
structure Puts (w w' : Walk α) (f : Frame) (fs : List Frame) (more : List DomId) (ts : List Tree) :
    Prop where
  /-- The walk goes on on the level. -/
  frames : w'.cursor.frames = f :: fs
  /-- The last of the new nodes may be entered. -/
  last : w'.cursor.last = more.getLast?.map (·, true)
  /-- There is one. -/
  some : more ≠ []
  /-- The nodes stand on the level. -/
  gains : w.document.Gains w'.document f.spot more
  /-- These are their trees. -/
  trees : more.map w'.document.tree = ts

/-- The ends of a fragment have been put on the level where the walk stands. -/
structure Marks (w w' : Walk α) (f : Frame) (m : Markers) : Prop where
  /-- They are new. -/
  mode : m.mode = .create
  /-- The walk stands where it stood. -/
  cursor : w'.cursor = w.cursor
  /-- They stand on the level. -/
  gains : w.document.Gains w'.document f.spot ([m.opening] ++ [m.closing])
  /-- They are not the same. -/
  apart : m.closing ∉ [m.opening]
  /-- The first of them opens the fragment. -/
  opening : w'.document.tree m.opening = .leaf (.marker .opening)
  /-- The other one closes it. -/
  closing : w'.document.tree m.closing = .leaf (.marker .closing)

namespace Stands

/-- Nodes are created where the walk stands. -/
theorem mode_run (h : w.Stands f fs) : (Walk.mode : WalkM α Mode).run w = .ok (.create, w) := by
  rw [Walk.mode_run h.frames, h.mode]

/-- They are put in front of the end of the level. -/
theorem anchor (h : w.Stands f fs) : f.anchor = f.stop := by
  rw [Frame.anchor, h.next, Option.none_or]

/-- The children of a node are created below it. -/
theorem open_create (hd : w.document.Treelike) (hid : id.index < w.document.nodes.size)
    (hframes : w.cursor.frames = Frame.open w.document id .create :: fs) :
    w.Stands (.open w.document id .create) fs :=
  ⟨hframes, rfl, rfl, hd, hid, fun _ hc => nomatch hc⟩

/-- A node that is asked for is put where the walk stands. -/
theorem claimed (h : w.Stands f fs) (expected : Expected) (attrs : List (String × String))
    (patch : Bool) : ∃ id w', (claimNode expected attrs patch).run w = .ok (id, w') ∧
      w.Puts w' f fs [id] [.leaf (expected.kind attrs)] := by
  obtain ⟨hgains, htree⟩ := h.treelike.gains_create h.lies (expected.kind attrs)
  rw [claimNode_create _ _ h.mode_run, createHere, bind_ok (frame_run h.frames), h.anchor]
  exact ⟨_, _, rfl, h.frames, rfl, by simp, hgains, congrArg (· :: []) htree⟩

/-- A fragment is put where the walk stands. -/
theorem appended (h : w.Stands f fs) (fragment : Fragment) : ∃ id w',
    (append fragment).run w = .ok (id, w') ∧ w.Puts w' f fs [id] [fragment.tree] := by
  have hget : (get : WalkM α (Walk α)).run w = .ok (w, w) := rfl
  obtain ⟨hid, hextended, hsize, halone, -⟩ := Document.plant_extended h.treelike fragment.tree
  rw [append, bind_ok h.mode_run]
  simp only [pure_bind, Option.filter_none]
  rw [bind_ok hget, bind_ok (frame_run h.frames), h.anchor]
  refine ⟨_, _, rfl, ?_⟩
  rw [Document.build, hid]
  obtain ⟨hgains, htree⟩ := hextended.gains h.treelike h.lies halone (Nat.le_refl _) hsize
  refine ⟨h.frames, rfl, by simp, hgains, congrArg (· :: []) (htree.trans ?_)⟩
  exact Document.tree_plant h.treelike fragment.holdable_tree

/-- The ends of a fragment are put where the walk stands. -/
theorem marked (h : w.Stands f fs) :
    ∃ m w', claimMarkers.run w = .ok (m, w') ∧ w.Marks w' f m := by
  obtain ⟨hfirst, hopening⟩ := h.treelike.gains_create h.lies (.marker .opening)
  obtain ⟨hsecond, hclosing⟩ :=
    hfirst.treelike.gains_create (h.lies.mono hfirst.size) (.marker .closing)
  have hkept := hsecond.trees hfirst.treelike fun _ hc => hfirst.mem hc
  have hnew := hfirst.lt_size (List.mem_singleton_self _)
  have hrun := (claimMarkers_create h.mode_run).trans (createMarkers_run h.frames h.lies.parent)
  rw [h.anchor] at hrun
  refine ⟨_, _, hrun, rfl, rfl, hfirst.trans h.lies hsecond, ?_,
    (List.cons.inj hkept).1.trans hopening, hclosing⟩
  rw [List.mem_singleton, DomId.mk.injEq]
  exact Nat.ne_of_gt hnew

end Stands

namespace Puts

variable {t : Tree}

/-- Below a new node more nodes are put. -/
theorem filled (h : w.Puts w₁ f fs [id] [t]) (hw : w.Stands f fs)
    (hgains : w₁.document.Gains d ⟨id, none⟩ more) (hdocument : w'.document = d)
    (hcursor : w'.cursor = w₁.cursor) : w.Puts w' f fs [id] [t.grown (more.map d.tree)] := by
  subst hdocument
  have hfirst : w.document.Gains w₁.document f.spot ([] ++ [id]) := h.gains
  have htrees := (hfirst.trees_nest hgains).trans (congrArg (graft _) h.trees)
  exact ⟨hcursor ▸ h.frames, hcursor ▸ h.last, h.some, hfirst.nest hgains hw.lies, htrees⟩

/-- A new text is written. -/
theorem written (h : w.Puts w₁ f fs [id] [.leaf (.text "")]) (content : String) :
    w.Puts (w₁.modifyDocument (·.setText id content)) f fs [id] [.leaf (.text content)] := by
  have hid := h.gains.lt_size (List.mem_singleton_self id)
  have hdressed := Document.Dressed.setText w₁.document id content
  have hgains : w.document.Gains (w₁.document.setText id content) f.spot [id] := by
    refine h.gains.dressed hdressed fun j hj => Document.kind_setText_of_ne _ ?_ content
    rintro rfl
    exact Nat.lt_irrefl _ (Nat.lt_of_lt_of_le hj (h.gains.new j (List.mem_singleton_self j)))
  have hkind : w₁.document.kind id = .text "" :=
    h.gains.treelike.kind_of_tree (List.cons.inj h.trees).1
  have htree : (w₁.document.setText id content).tree id = .leaf (.text content) := by
    rw [hgains.treelike.tree_eq, Document.kind_setText_self _ hid, hkind]
    rfl
  exact ⟨h.frames, h.last, h.some, hgains, congrArg (· :: []) htree⟩

end Puts

/-- Between the new ends of a fragment more nodes are put. -/
theorem Marks.puts (h : w.Marks w₁ f m) (hw : w.Stands f fs)
    (hgains : w₁.document.Gains d ⟨f.parent, some m.closing⟩ more) (hdocument : w'.document = d)
    (hcursor : w'.cursor = ⟨w₁.cursor.frames, some (m.closing, true)⟩) :
    w.Puts w' f fs ([m.opening] ++ (more ++ [m.closing])) (enclosed (more.map d.tree)) := by
  subst hdocument
  refine ⟨?_, ?_, by simp, h.gains.before hw.treelike h.apart hgains, ?_⟩
  · rw [hcursor, h.cursor, hw.frames]
  · rw [hcursor, ← List.append_assoc, List.getLast?_concat]
    rfl
  · rw [h.gains.trees_before hgains, h.closing, List.map_singleton, h.opening]
    rfl

/-! ## What a walk has put -/

/-- A walk that creates, on a level that was opened over a document, with the nodes that it has put
there. -/
structure Creates (w : Walk α) (f : Frame) (fs : List Frame) (d : Document α) (new : List DomId) :
    Prop where
  /-- The open levels. -/
  frames : w.cursor.frames = f :: fs
  /-- Nodes are made on the innermost one. -/
  mode : f.mode = .create
  /-- None is ahead. -/
  next : f.next = none
  /-- The last of the nodes may be entered, if there is one. -/
  last : new ≠ [] → w.cursor.last = new.getLast?.map (·, true)
  /-- The nodes of the document formed trees. -/
  treelike : d.Treelike
  /-- The level lies in it. -/
  lies : f.spot.Lies d
  /-- The nodes stand on the level. -/
  gains : d.Gains w.document f.spot new

/-- The trees of the nodes that a walk has put. -/
def trees (w : Walk α) (new : List DomId) : List Tree := new.map w.document.tree

/-- At first nothing was put. -/
theorem Stands.creates (h : w.Stands f fs) : w.Creates f fs w.document [] where
  frames := h.frames
  mode := h.mode
  next := h.next
  last hne := absurd rfl hne
  treelike := h.treelike
  lies := h.lies
  gains := .refl h.treelike _

namespace Creates

/-- The walk stands where more nodes can be put. -/
theorem stands (h : w.Creates f fs d new) : w.Stands f fs where
  frames := h.frames
  mode := h.mode
  next := h.next
  treelike := h.gains.treelike
  lies := h.lies.mono h.gains.size

/-- More nodes are put behind those that are there. -/
theorem puts (h : w.Creates f fs d new) (hputs : w.Puts w' f fs more ts) :
    w'.Creates f fs d (new ++ more) ∧ w'.trees (new ++ more) = w.trees new ++ ts := by
  have hcreates : w'.Creates f fs d (new ++ more) := by
    refine { h with frames := hputs.frames, last := ?_, gains := h.gains.trans h.lies hputs.gains }
    intro _
    rw [hputs.last, List.getLast?_append_of_ne_nil _ hputs.some]
  refine ⟨hcreates, ?_⟩
  rw [trees, h.gains.trees_trans hputs.gains, hputs.trees, trees]

/-- More nodes are put below the last one. -/
theorem nested {x : DomId} (h : w.Creates f fs d (new ++ [x]))
    (hgains : w.document.Gains w'.document ⟨x, none⟩ more)
    (hcursor : w'.cursor = ⟨f :: fs, some (x, true)⟩) :
    w'.Creates f fs d (new ++ [x]) ∧
      w'.trees (new ++ [x]) = graft (w'.trees more) (w.trees (new ++ [x])) := by
  have hcreates : w'.Creates f fs d (new ++ [x]) := by
    refine { h with
      frames := congrArg Cursor.frames hcursor, last := ?_, gains := h.gains.nest hgains h.lies }
    intro _
    rw [hcursor]
    simp
  exact ⟨hcreates, h.gains.trees_nest hgains⟩

/-- The end of the walk changes nothing about the document. -/
theorem document_finish (h : w.Creates f [] d new) : w.finish.document = w.document := by
  rw [finish_eq h.frames, settleFrame, h.mode]

end Creates

namespace Puts

/-- A walk of its own starts below a new node. -/
theorem opened (h : w.Puts w₁ f fs [id] ts) :
    (w₁.onLevel (.open w₁.document id .create)).Stands (.open w₁.document id .create) [] :=
  .open_create (w := w₁.onLevel _) h.gains.treelike
    (h.gains.lt_size (List.mem_singleton_self id)) rfl

/-- What is done below a new node is creating. -/
theorem childMode_run (h : w.Puts w₁ f fs [id] ts) :
    (childMode : WalkM α Mode).run w₁ = .ok (.create, w₁) := by
  rw [childMode, bind_ok (x := get) (b := w₁) rfl, h.last]
  rfl

/-- A new wrapper is empty. -/
theorem children {wrapper : Wrapper} (h : w.Puts w₁ f fs [id] [.leaf (.wrapper wrapper [])]) :
    w₁.document.children id = [] := by
  have htree : w₁.document.tree id = .node (.wrapper wrapper []) [] := (List.cons.inj h.trees).1
  have hkind := h.gains.treelike.kind_of_tree htree
  rw [h.gains.treelike.tree_eq, hkind] at htree
  exact List.map_eq_nil_iff.1 (Tree.node.inj htree).2

/-- It need not be emptied. -/
theorem emptyWrapper_run (h : w.Puts w₁ f fs [id] ts) :
    (emptyWrapper id).run w₁ = .ok ((), w₁) := by
  rw [emptyWrapper, bind_ok h.childMode_run]
  rfl

end Puts

/-- A walk of its own starts between the new ends of a fragment. -/
theorem Marks.amid (h : w.Marks w₁ f m) (hw : w.Stands f fs) :
    (w₁.amid f.parent m).Stands (.between w₁.document f.parent m.opening m.closing m.mode) [] := by
  refine ⟨rfl, h.mode, ?_, h.gains.treelike, Nat.lt_of_lt_of_le hw.lies.parent h.gains.size,
    fun c hc => ?_⟩
  · rw [h.mode]
    rfl
  · cases hc
    exact h.gains.lt_size (by simp)

/-- A level was opened over a document, in the last of the nodes that were put on the level around
it, and so on outwards, down to a level that was opened over a given document. The trees are those
on the levels around. -/
inductive Around (f : Frame) (fs : List Frame) (d : Document α) :
    Frame → List Frame → Document α → Levels → Prop
  /-- The level itself. -/
  | here : Around f fs d f fs d []
  /-- A level inside of the last node. -/
  | inside {w : Walk α} {g : Frame} {gs : List Frame} {d' : Document α} {front : List DomId}
      {x : DomId} {levels : Levels} (around : Around f fs d g gs d' levels)
      (creates : w.Creates g gs d' (front ++ [x])) :
      Around f fs d (.open w.document x .create) (g :: gs) w.document
        (w.trees (front ++ [x]) :: levels)

/-- A walk that creates has put trees on the levels that are open, down to one that was opened over
a document. -/
def Builds (w : Walk α) (f : Frame) (fs : List Frame) (d : Document α) (levels : Levels) : Prop :=
  ∃ g gs d' new around, Around f fs d g gs d' around ∧ w.Creates g gs d' new ∧
    levels = w.trees new :: around

namespace Builds

variable {levels levels' : Levels}

theorem of_stands (h : w.Stands f fs) : w.Builds f fs w.document [[]] :=
  ⟨f, fs, w.document, [], [], .here, h.creates, rfl⟩

/-- No level is open but the first one. -/
theorem only (h : w.Builds f fs d [ts]) : ∃ new, w.Creates f fs d new ∧ w.trees new = ts := by
  obtain ⟨g, gs, d', new, around, haround, hw, hlevels⟩ := h
  obtain ⟨hts, rfl⟩ := List.cons.inj hlevels
  cases haround
  exact ⟨new, hw, hts.symm⟩

/-- The walk stands on the innermost level, and what it puts there comes behind the rest. -/
theorem stands (h : w.Builds f fs d levels) : ∃ g gs, w.Stands g gs ∧
    ∀ {w' more ts}, w.Puts w' g gs more ts → w'.Builds f fs d (levels.put ts) := by
  obtain ⟨g, gs, d', new, around, haround, hw, rfl⟩ := h
  refine ⟨g, gs, hw.stands, fun {w' more ts} hputs => ?_⟩
  obtain ⟨hw', htrees⟩ := hw.puts hputs
  exact ⟨g, gs, d', new ++ more, around, haround, hw', by rw [htrees]; rfl⟩

/-- The last of the nodes is entered. -/
theorem enter (h : w.Builds f fs d levels) (hlevels : levels.enter = some levels') :
    ∃ g gs x, w.cursor.frames = g :: gs ∧ w.cursor.last = some (x, true) ∧
      Builds { w with cursor := ⟨.open w.document x .create :: g :: gs, none⟩ } f fs d levels' := by
  obtain ⟨g, gs, d', new, around, haround, hw, rfl⟩ := h
  rw [Levels.enter] at hlevels
  split at hlevels
  · cases hlevels
  · next hne =>
    cases hlevels
    have hnew : new ≠ [] := by
      rintro rfl
      exact hne rfl
    obtain ⟨front, x, rfl⟩ := (List.eq_nil_or_concat new).resolve_left hnew
    rw [List.concat_eq_append] at hw hnew ⊢
    have hlast : w.cursor.last = some (x, true) := by
      rw [hw.last hnew, List.getLast?_concat]
      rfl
    have hx : x.index < w.document.nodes.size := hw.gains.lt_size (by simp)
    let w' : Walk α := { w with cursor := ⟨.open w.document x .create :: g :: gs, none⟩ }
    have hopened : w'.Stands (.open w.document x .create) (g :: gs) :=
      .open_create (w := w') hw.gains.treelike hx rfl
    exact ⟨g, gs, x, hw.frames, hlast, _, _, _, [], _, .inside haround hw, hopened.creates, rfl⟩

/-- A node that was entered is left. -/
theorem exit (h : w.Builds f fs d levels) (hlevels : levels.leave = some levels') :
    ∃ i g gs, w.cursor.frames = i :: g :: gs ∧ Builds { w.settleFrame i with
      cursor := ⟨g :: gs, some (i.parent, i.mode = .create)⟩ } f fs d levels' := by
  obtain ⟨i, is, d', new, around, haround, hw, rfl⟩ := h
  cases haround with
  | here => cases hlevels
  | @inside w₀ g gs _ front x levels haround houter =>
    have hne : w₀.trees (front ++ [x]) ≠ [] := by simp [Walk.trees]
    rw [Levels.leave, if_neg hne] at hlevels
    cases hlevels
    have hsettled : w.settleFrame (.open w₀.document x .create) = w := by
      rw [settleFrame]
      rfl
    let w' : Walk α := { w with cursor := ⟨g :: gs, some (x, true)⟩ }
    have hgains : w₀.document.Gains w'.document ⟨x, none⟩ new := hw.gains
    obtain ⟨hback, htrees⟩ := houter.nested hgains rfl
    refine ⟨_, g, gs, hw.frames, ?_⟩
    rw [hsettled]
    exact ⟨g, gs, _, front ++ [x], levels, haround, hback, congrArg (· :: levels) htrees.symm⟩

end Builds

end Walk

end Hydration

namespace Document

variable {α : Type} {d d' : Document α} {x : DomId} {ts : List Tree}

/-- A document in which trees were put behind those that are below a node, and nothing else has
changed. -/
structure Appends (d d' : Document α) (x : DomId) (ts : List Tree) : Prop where
  /-- The node has new children behind the others, and these are their trees. -/
  added : ∃ new, d'.children x = d.children x ++ new ∧ (∀ c ∈ new, d.nodes.size ≤ c.index) ∧
    new.map d'.tree = ts
  /-- The others have the trees that they had. -/
  trees : ∀ c ∈ d.children x, d'.tree c = d.tree c
  /-- Old nodes are what they were. -/
  kind : ∀ j, j.index < d.nodes.size → d'.kind j = d.kind j
  /-- Other old nodes have the children that they had. -/
  children : ∀ j, j.index < d.nodes.size → j ≠ x → d'.children j = d.children j

theorem Appends.forest (h : d.Appends d' x ts) : d'.forest x = d.forest x ++ ts := by
  obtain ⟨new, hchildren, -, rfl⟩ := h.added
  rw [Document.forest, hchildren, List.map_append, List.map_congr_left h.trees, Document.forest]

/-- What is put at the end of a level is put behind what is there. -/
theorem Gains.appends {new : List DomId} (h : d.Gains d' ⟨x, none⟩ new) (hd : d.Treelike) :
    d.Appends d' x (new.map d'.tree) where
  added := ⟨new, h.spot, h.new, rfl⟩
  trees := List.map_inj_left.1 (h.trees hd fun _ hc => hc)
  kind := h.kind
  children := h.children

end Document

end Rivulet
