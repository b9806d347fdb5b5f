import Mathlib.Data.Finset.Card
import Rivulet.Hydration.Cursor
import Rivulet.Proofs.Document.Treelike

/-!
# What a template puts into a document

Of a tree that was rendered here the skeleton is what a template asked for by name: the elements
that carry the key, with their tags up to case, the wrappers, and the ends of fragments. Texts are
not part of it, and neither is what others have put there, with all that stands below.
-/

namespace Rivulet

open Markup

namespace Markup

/-- A keyed element, a wrapper or an end of a fragment, with what stands below it. -/
inductive Skeleton where
  /-- An element, by its tag in lower case. -/
  | element (tag : List Char) (children : List Skeleton)
  /-- A wrapper. -/
  | wrapper (w : Wrapper) (children : List Skeleton)
  /-- An end of a fragment. -/
  | marker (edge : Edge)

mutual

/-- The skeleton of a tree: nothing for a text, and nothing for a node of others. -/
def Tree.skeleton : Tree → List Skeleton
  | .node (.element tag attrs) children =>
    if attrs.has keyAttribute then [.element (Text.lowerAscii tag.toList) (skeletons children)]
    else []
  | .node (.wrapper w _) children => [.wrapper w (skeletons children)]
  | .node (.marker edge) _ => [.marker edge]
  | .node (.text _) _ | .node (.comment _) _ => []

/-- The skeletons of trees that stand side by side. -/
def skeletons : List Tree → List Skeleton
  | [] => []
  | t :: ts => t.skeleton ++ skeletons ts

end

end Markup

namespace Document

variable {α : Type}

namespace Treelike

variable {d : Document α}

open Classical in
/-- How many nodes stand below a node, itself among them. -/
noncomputable def count (d : Document α) (id : DomId) : Nat :=
  ((Finset.range d.nodes.size).filter fun i => d.Below ⟨i⟩ id).card

private theorem count_le (d : Document α) (id : DomId) : count d id ≤ d.nodes.size := by
  classical
  rw [count]
  exact Nat.le_trans (Finset.card_filter_le _ _) (Finset.card_range _).le

/-- Fewer nodes stand below a child than below its parent. -/
theorem count_lt (h : d.Treelike) {p c : DomId} (hc : c ∈ d.children p) :
    count d c < count d p := by
  classical
  apply Finset.card_lt_card
  rw [Finset.ssubset_iff_of_subset]
  · refine ⟨p.index, ?_, ?_⟩
    · rw [Finset.mem_filter, Finset.mem_range]
      exact ⟨lt_size_of_child hc, .refl d p⟩
    · rw [Finset.mem_filter]
      exact fun hmem => h.not_below_child hc hmem.2
  · intro i hi
    rw [Finset.mem_filter] at hi ⊢
    exact ⟨hi.1, Relation.ReflTransGen.tail hi.2 ((h.child p c).1 hc)⟩

/-- Folding no deeper than there are nodes is as good as folding deeper. -/
theorem foldWithin_eq {β : Type} (h : d.Treelike) (f : DomId → Kind → List β → β) {id : DomId}
    {m n : Nat} (hm : count d id ≤ m) (hn : count d id ≤ n) :
    d.foldWithin f m id = d.foldWithin f n id := by
  have hnone (h0 : count d id = 0) : d.children id = [] := by
    rw [List.eq_nil_iff_forall_not_mem]
    intro c hc
    have := h.count_lt hc
    omega
  induction m generalizing id n with
  | zero =>
    cases n with
    | zero => rfl
    | succ n => rw [foldWithin, foldWithin, hnone (by omega), List.map_nil]
  | succ m ih =>
    cases n with
    | zero => rw [foldWithin, foldWithin, hnone (by omega), List.map_nil]
    | succ n =>
      rw [foldWithin, foldWithin]
      congr 1
      apply List.map_congr_left
      intro c hc
      have hlt := h.count_lt hc
      refine ih (by omega) (by omega) fun h0 => ?_
      rw [List.eq_nil_iff_forall_not_mem]
      intro e he
      have := h.count_lt he
      omega

/-- What is known of a node is put together from what is known of its children. -/
theorem fold_eq {β : Type} (h : d.Treelike) (f : DomId → Kind → List β → β) (id : DomId) :
    d.fold f id = f id (d.kind id) ((d.children id).map (d.fold f)) := by
  rw [fold, h.foldWithin_eq f (count_le d id) (Nat.le_succ_of_le (count_le d id)), foldWithin]
  rfl

/-- The tree below a node is made of the trees below its children. -/
theorem tree_eq (h : d.Treelike) (id : DomId) : d.tree id = (d.kind id).over (d.forest id) := by
  rw [tree, h.fold_eq]
  rfl

/-- What a node is of is told by its tree. -/
theorem kind_of_tree (h : d.Treelike) {id : DomId} {kind : Kind} {ts : List Tree}
    (htree : d.tree id = .node kind ts) : d.kind id = kind := by
  rw [h.tree_eq] at htree
  cases hkind : d.kind id <;> rw [hkind] at htree <;> cases htree <;> rfl

end Treelike

/-- Skeletons of nodes that stand side by side. -/
inductive Bears (d : Document α) : List DomId → List Skeleton → Prop
  /-- There are no nodes. -/
  | nil : Bears d [] []
  /-- A text or a node of others. -/
  | skip {id : DomId} {ids : List DomId} {ts : List Skeleton}
      (h : Hydration.isCandidate false (d.kind id).bare = false) (rest : Bears d ids ts) :
      Bears d (id :: ids) ts
  /-- A keyed element. -/
  | element {id : DomId} {ids : List DomId} {tag : String} {us ts : List Skeleton}
      (h : (d.kind id).bare = .element tag [(keyAttribute, "")])
      (below : Bears d (d.children id) us) (rest : Bears d ids ts) :
      Bears d (id :: ids) (.element (Text.lowerAscii tag.toList) us :: ts)
  /-- A wrapper. -/
  | wrapper {id : DomId} {ids : List DomId} {w : Wrapper} {us ts : List Skeleton}
      (h : (d.kind id).bare = .wrapper w []) (below : Bears d (d.children id) us)
      (rest : Bears d ids ts) : Bears d (id :: ids) (.wrapper w us :: ts)
  /-- An end of a fragment. -/
  | marker {id : DomId} {ids : List DomId} {edge : Edge} {ts : List Skeleton}
      (h : (d.kind id).bare = .marker edge) (rest : Bears d ids ts) :
      Bears d (id :: ids) (.marker edge :: ts)

namespace Bears

variable {d d' : Document α} {ids js : List DomId} {ts us : List Skeleton}

theorem append (h : d.Bears ids ts) (h' : d.Bears js us) : d.Bears (ids ++ js) (ts ++ us) := by
  induction h with
  | nil => exact h'
  | skip hk _ ih => exact .skip hk ih
  | element hk below _ _ ih => exact .element hk below ih
  | wrapper hk below _ _ ih => exact .wrapper hk below ih
  | marker hk _ ih => exact .marker hk ih

/-- Texts and nodes of others have no skeleton. -/
theorem silent (h : ∀ id ∈ ids, Hydration.isCandidate false (d.kind id).bare = false) :
    d.Bears ids [] := by
  induction ids with
  | nil => exact .nil
  | cons id ids ih =>
    exact .skip (h id List.mem_cons_self) (ih fun j hj => h j (List.mem_cons_of_mem id hj))

/-- Skeletons depend only on the nodes and on what stands below them. -/
theorem congr (h : d.Bears ids ts) (hd : d.Treelike)
    (hsame : ∀ x ∈ ids, ∀ j, d.Below j x →
      (d'.kind j).bare = (d.kind j).bare ∧ d'.children j = d.children j) : d'.Bears ids ts := by
  have hself {id : DomId} {ids : List DomId} (hsame : ∀ x ∈ id :: ids, ∀ j, d.Below j x →
      (d'.kind j).bare = (d.kind j).bare ∧ d'.children j = d.children j) :=
    hsame id List.mem_cons_self id (.refl d id)
  have hrest {id : DomId} {ids : List DomId} (hsame : ∀ x ∈ id :: ids, ∀ j, d.Below j x →
      (d'.kind j).bare = (d.kind j).bare ∧ d'.children j = d.children j) :=
    fun x hx => hsame x (List.mem_cons_of_mem id hx)
  have hbelow {id : DomId} {ids : List DomId} (hsame : ∀ x ∈ id :: ids, ∀ j, d.Below j x →
      (d'.kind j).bare = (d.kind j).bare ∧ d'.children j = d.children j) :
      ∀ x ∈ d.children id, ∀ j, d.Below j x →
        (d'.kind j).bare = (d.kind j).bare ∧ d'.children j = d.children j :=
    fun x hx j hj => hsame id List.mem_cons_self j
      (Relation.ReflTransGen.tail hj ((hd.child id x).1 hx))
  induction h with
  | nil => exact .nil
  | skip hk _ ih =>
    obtain ⟨hbare, -⟩ := hself hsame
    exact .skip (by rw [hbare, hk]) (ih (hrest hsame))
  | element hk _ _ ihbelow ih =>
    obtain ⟨hbare, hchildren⟩ := hself hsame
    refine .element (by rw [hbare, hk]) ?_ (ih (hrest hsame))
    rw [hchildren]
    exact ihbelow (hbelow hsame)
  | wrapper hk _ _ ihbelow ih =>
    obtain ⟨hbare, hchildren⟩ := hself hsame
    refine .wrapper (by rw [hbare, hk]) ?_ (ih (hrest hsame))
    rw [hchildren]
    exact ihbelow (hbelow hsame)
  | marker hk _ ih =>
    obtain ⟨hbare, -⟩ := hself hsame
    exact .marker (by rw [hbare, hk]) (ih (hrest hsame))

/-- What is done below other children of a node leaves the skeletons of some of them alone. -/
theorem redrawn {p : DomId} {used : List DomId} (h : d.Bears ids ts) (hd : d.Treelike)
    (hr : d.Redrawn d' p used) (hused : ∀ a ∈ used, a ∈ d.children p)
    (hids : ∀ x ∈ ids, x ∈ d.children p ∧ x ∉ used) : d'.Bears ids ts := by
  refine h.congr hd fun x hx j hj => ?_
  obtain ⟨hmem, hout⟩ := hids x hx
  have hlt : j.index < d.nodes.size := by
    rcases hj.up with rfl | ⟨q, hq, -⟩
    · exact hd.holds p j hmem
    · exact hd.holds q j ((hd.child q j).2 hq)
  exact ⟨hr.bare j hlt, hr.children_apart hd hused hmem hout hj hlt⟩

/-- The skeletons of nodes are those of their trees. -/
theorem skeletons (h : d.Bears ids ts) (hd : d.Treelike) : skeletons (ids.map d.tree) = ts := by
  induction h with
  | nil => rfl
  | @skip id ids ts hk _ ih =>
    rw [List.map_cons, Markup.skeletons, ih, hd.tree_eq]
    cases hkind : d.kind id with
    | element tag attrs =>
      by_cases hkey : attrs.has keyAttribute = true
      · rw [Hydration.isCandidate, Kind.isForeign_bare, Kind.isText_bare, hkind] at hk
        simp [Kind.isForeign, Kind.isText, hkey] at hk
      · simp [Kind.over, Tree.skeleton, hkey]
    | text content => rfl
    | comment content => rfl
    | wrapper w attrs =>
      simp [Hydration.isCandidate, hkind, Kind.bare, Kind.isForeign, Kind.isText] at hk
    | marker edge =>
      simp [Hydration.isCandidate, hkind, Kind.bare, Kind.isForeign, Kind.isText] at hk
  | @element id ids tag us ts hk _ _ ihbelow ih =>
    rw [List.map_cons, Markup.skeletons, ih, hd.tree_eq, forest]
    cases hkind : d.kind id with
    | element tag' attrs =>
      rw [hkind, Kind.bare, Kind.element.injEq] at hk
      obtain ⟨rfl, hkey⟩ := hk
      have hhas : attrs.has keyAttribute = true := by
        by_contra hno
        rw [if_neg hno] at hkey
        cases hkey
      rw [Kind.over, Tree.skeleton, if_pos hhas, ihbelow, List.singleton_append]
    | _ => simp [hkind, Kind.bare] at hk
  | @wrapper id ids w us ts hk _ _ ihbelow ih =>
    rw [List.map_cons, Markup.skeletons, ih, hd.tree_eq, forest]
    cases hkind : d.kind id with
    | wrapper w' attrs =>
      rw [hkind, Kind.bare, Kind.wrapper.injEq] at hk
      rw [Kind.over, Tree.skeleton, ihbelow, List.singleton_append, hk.1]
    | _ => simp [hkind, Kind.bare] at hk
  | @marker id ids edge ts hk _ ih =>
    rw [List.map_cons, Markup.skeletons, ih, hd.tree_eq, Kind.eq_marker_of_bare hk]
    rfl

end Bears

end Document

namespace Markup

/-- A node with what is kept of the trees below it: a keyed element, by its tag in lower case, a
wrapper, or an end of a fragment. An end of a fragment keeps what stands below it if asked for. Of
a text or a node of others nothing is kept. -/
def Kind.outline (pinned : Bool) (kind : Kind) (below : List Tree) : List Tree :=
  match kind with
  | .element tag attrs =>
    if attrs.has keyAttribute then
      [.node (.element (String.ofList (Text.lowerAscii tag.toList)) []) below]
    else []
  | .wrapper w _ => [.node (.wrapper w []) below]
  | .marker edge => [.node (.marker edge) (if pinned then below else [])]
  | .text _ | .comment _ => []

private theorem Kind.outline_bare (pinned : Bool) (kind : Kind) (below : List Tree) :
    kind.bare.outline pinned below = kind.outline pinned below := by
  cases kind with
  | element tag attrs =>
    by_cases hkey : attrs.has keyAttribute = true
    · rw [bare, outline, if_pos hkey, outline, if_pos hkey, if_pos (by decide)]
    · rw [bare, outline, if_neg hkey, outline, if_neg hkey, if_neg (by decide)]
  | _ => rfl

private theorem Kind.outline_eq_nil {pinned : Bool} {kind : Kind} {below : List Tree}
    (h : Hydration.isCandidate false kind = false) : kind.outline pinned below = [] := by
  cases kind with
  | element tag attrs => simpa [Hydration.isCandidate, isForeign, isText, outline] using h
  | wrapper w attrs => simp [Hydration.isCandidate, isForeign, isText] at h
  | marker edge => simp [Hydration.isCandidate, isForeign, isText] at h
  | _ => rfl

mutual

/-- A skeleton as a tree. -/
def Skeleton.tree : Skeleton → Tree
  | .element tag us => .node (.element (String.ofList tag) []) (skeletonTrees us)
  | .wrapper w us => .node (.wrapper w []) (skeletonTrees us)
  | .marker edge => .leaf (.marker edge)

/-- The trees of skeletons that stand side by side. -/
def skeletonTrees : List Skeleton → List Tree
  | [] => []
  | u :: us => u.tree :: skeletonTrees us

end

end Markup

namespace Document

variable {α : Type} {d : Document α} {ids : List DomId} {us : List Skeleton}

/-- The keyed elements, the wrappers and the ends of fragments below a node. What others have put
below the ends of fragments, where no markup puts anything, counts if asked for. -/
def outline (d : Document α) (pinned : Bool) (id : DomId) : List Tree :=
  (d.children id).flatMap (d.fold fun _ kind below => kind.outline pinned below.flatten)

theorem Bears.outline (h : d.Bears ids us) (hd : d.Treelike) :
    ids.flatMap (d.fold fun _ kind below => kind.outline false below.flatten) =
      skeletonTrees us := by
  have hfold (id : DomId) : d.fold (fun _ kind below => kind.outline false below.flatten) id =
      (d.kind id).bare.outline false (d.outline false id) := by
    rw [hd.fold_eq, Document.outline, List.flatMap_def, Kind.outline_bare]
  induction h with
  | nil => rfl
  | skip hk _ ih => rw [List.flatMap_cons, ih, hfold, Kind.outline_eq_nil hk, List.nil_append]
  | element hk _ _ ihbelow ih =>
    rw [List.flatMap_cons, ih, hfold, hk, Document.outline, ihbelow, skeletonTrees, Skeleton.tree]
    rfl
  | wrapper hk _ _ ihbelow ih =>
    rw [List.flatMap_cons, ih, hfold, hk, Document.outline, ihbelow, skeletonTrees, Skeleton.tree]
    rfl
  | marker hk _ ih =>
    rw [List.flatMap_cons, ih, hfold, hk]
    rfl

end Document

end Rivulet
