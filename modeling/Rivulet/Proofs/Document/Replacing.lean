import Rivulet.Proofs.Document.Edits
import Rivulet.Proofs.Document.Gaining
import Rivulet.Proofs.Markup.Tolerant

/-!
# Markup in place of the children of a node

The children of a node are taken out, with the listeners on them and below them, before the markup
that replaces them is read, and what is read is put in their place as far as it goes. So a fault
does not bring them back: the trees in front of it stand where they stood, and the node keeps its
children only if it had none and nothing stands in front of the fault. Everything else stays as it
was.
-/

namespace Rivulet.Document

open Markup

variable {α : Type}

/-- The listeners on a node. -/
def listeners (d : Document α) (id : DomId) : List (Listener α) := (d.entry id).listeners

section Staying

variable (d : Document α) (id j : DomId)

theorem listeners_modify {f : Entry α → Entry α} (h : ∀ e, (f e).listeners = e.listeners) :
    (d.modify id f).listeners j = d.listeners j := by
  rw [listeners, entry_modify]
  split
  · rename_i hj
    rw [h, hj.1, listeners]
  · rfl

theorem listeners_detach : (d.detach id).listeners j = d.listeners j := by
  rw [detach]
  split
  · rfl
  · rw [listeners_modify, listeners_modify] <;> exact fun _ => rfl

private theorem listeners_insertBefore (parent child : DomId) (anchor : Option DomId) :
    (d.insertBefore parent child anchor).listeners j = d.listeners j := by
  rw [← listeners_detach d child j, insertBefore]
  rw [listeners_modify, listeners_modify] <;> exact fun _ => rfl

private theorem listeners_create {j : DomId} (hj : j.index < d.nodes.size) (kind : Kind) :
    (d.create kind).2.listeners j = d.listeners j := by
  rw [listeners, entry_create_of_lt hj, listeners]

end Staying

mutual

/-- Building a tree leaves the listeners on old nodes alone. -/
theorem listeners_plant {d : Document α} (hd : d.Treelike) {j : DomId}
    (hj : j.index < d.nodes.size) : ∀ t : Tree, (d.plant t).2.listeners j = d.listeners j
  | .node kind children => by
    have htop : (⟨d.nodes.size⟩ : DomId).index < (d.create kind).2.nodes.size := by simp
    have hj' : j.index < (d.create kind).2.nodes.size := by rw [size_create]; omega
    rw [plant_node, ← listeners_create d hj kind]
    exact listeners_plantUnder (hd.create kind) htop hj' children

/-- Building trees below a node leaves the listeners on old nodes alone. -/
theorem listeners_plantUnder {d : Document α} (hd : d.Treelike) {x j : DomId}
    (hx : x.index < d.nodes.size) (hj : j.index < d.nodes.size) :
    ∀ ts : List Tree, (d.plantUnder x ts).listeners j = d.listeners j
  | [] => by rw [plantUnder]
  | t :: ts => by
    obtain ⟨hid, hextended, hsize, halone, -⟩ := plant_extended hd t
    have hspot : (⟨x, none⟩ : Spot).Lies d := ⟨hx, fun c hc => by cases hc⟩
    have hput := (hextended.gains hd hspot halone (Nat.le_refl _) hsize).1
    rw [plantUnder_cons, hid, listeners_plantUnder hput.treelike (Nat.lt_of_lt_of_le hx hput.size)
      (Nat.lt_of_lt_of_le hj hput.size) ts, listeners_insertBefore, listeners_plant hd hj t]

end

theorem listeners_dropListeners (ids : List DomId) (d : Document α) (j : DomId) :
    (ids.foldl (fun d n => d.modify n fun e => { e with listeners := [] }) d).listeners j =
      if j ∈ ids then [] else d.listeners j := by
  induction ids generalizing d with
  | nil => rfl
  | cons n ids ih =>
    rw [List.foldl_cons, ih]
    by_cases hids : j ∈ ids
    · rw [if_pos hids, if_pos (List.mem_cons_of_mem n hids)]
    rw [if_neg hids, listeners, entry_modify, listeners]
    by_cases hn : j = n
    · subst hn
      rw [if_pos List.mem_cons_self]
      split
      · rfl
      · rename_i hout
        rw [entry_of_size_le (Nat.not_lt.1 fun hlt => hout ⟨rfl, hlt⟩)]
        rfl
    · rw [if_neg fun hj => hn hj.1, if_neg (by simp [hn, hids])]

namespace Treelike

variable {d : Document α} {p c j x : DomId}

/-- The nodes of a subtree are those that stand below its top. -/
theorem mem_subtree (h : d.Treelike) : j ∈ d.subtree x ↔ d.Below j x := by
  induction hn : count d x using Nat.strong_induction_on generalizing x with
  | _ n ih =>
    have hsubtree : d.subtree x = x :: ((d.children x).map d.subtree).flatten := h.fold_eq _ x
    rw [hsubtree, List.mem_cons, List.mem_flatten]
    constructor
    · rintro (rfl | ⟨below, hbelow, hj⟩)
      · exact .refl d j
      · obtain ⟨c, hc, rfl⟩ := List.mem_map.1 hbelow
        exact Relation.ReflTransGen.tail ((ih _ (hn ▸ h.count_lt hc) rfl).1 hj) ((h.child x c).1 hc)
    · intro hb
      rcases Relation.ReflTransGen.cases_tail hb with rfl | ⟨c, hjc, hc⟩
      · exact .inl rfl
      · have hmem := (h.child x c).2 hc
        exact .inr ⟨_, List.mem_map.2 ⟨c, hmem, rfl⟩, (ih _ (hn ▸ h.count_lt hmem) rfl).2 hjc⟩

/-- The same nodes stand below a node after it was taken out. -/
theorem below_detach_self : (d.detach c).Below j c ↔ d.Below j c := by
  refine ⟨below_of_detach, fun hb => ?_⟩
  induction hb using Relation.ReflTransGen.head_induction_on with
  | refl => exact .refl _ c
  | @head j q hstep _ ih =>
    by_cases hj : j = c
    · rw [hj]
      exact .refl _ c
    · refine .head ?_ ih
      rw [parent?_detach, if_neg hj, hstep]

/-- The same nodes stand below another child of the parent. -/
theorem below_detach (h : d.Treelike) (hc : c ∈ d.children p) (hx : x ∈ d.children p)
    (hne : x ≠ c) : (d.detach c).Below j x ↔ d.Below j x := by
  refine ⟨below_of_detach, fun hb => ?_⟩
  induction hb using Relation.ReflTransGen.head_induction_on with
  | refl => exact .refl _ x
  | @head j q hstep hq ih =>
    refine .head ?_ ih
    rw [parent?_detach, if_neg, hstep]
    rintro rfl
    rw [(h.child p j).1 hc, Option.some.injEq] at hstep
    exact h.not_below_child hx (hstep ▸ hq)

/-- What stands below a node has nothing to do with listeners. -/
theorem below_remove_iff : (d.remove c).Below j x ↔ (d.detach c).Below j x := by
  simp only [Below, parent?_remove, parent?_detach]

open Classical in
/-- Taking a node out drops the listeners on it and below it. -/
theorem listeners_remove (h : d.Treelike) (c j : DomId) :
    (d.remove c).listeners j = if d.Below j c then [] else d.listeners j := by
  rw [Document.remove, listeners_dropListeners, listeners_detach]
  simp only [(h.detach c).mem_subtree, below_detach_self]

open Classical in
/-- Taking children out drops the listeners on them and below them. -/
theorem listeners_removeAll {cs : List DomId} (h : d.Treelike) (hnodup : cs.Nodup)
    (hcs : ∀ c ∈ cs, c ∈ d.children p) (j : DomId) :
    (d.removeAll cs).listeners j = if ∃ c ∈ cs, d.Below j c then [] else d.listeners j := by
  induction cs generalizing d with
  | nil => simp [Document.removeAll]
  | cons c cs ih =>
    have hc := hcs c List.mem_cons_self
    obtain ⟨hnew, hnodup⟩ := List.nodup_cons.1 hnodup
    have hmem {x : DomId} (hx : x ∈ cs) : x ∈ d.children p := hcs x (List.mem_cons_of_mem c hx)
    have hne {x : DomId} (hx : x ∈ cs) : x ≠ c := by
      rintro rfl
      exact hnew hx
    have hrest := ih (h.remove c) hnodup fun x hx => by
      rw [h.children_remove_self hc, List.mem_filter, decide_eq_true_eq]
      exact ⟨hmem hx, hne hx⟩
    have hsame : (∃ x ∈ cs, (d.remove c).Below j x) ↔ ∃ x ∈ cs, d.Below j x :=
      exists_congr fun x => and_congr_right fun hx =>
        below_remove_iff.trans (h.below_detach hc (hmem hx) (hne hx))
    simp only [hsame, h.listeners_remove] at hrest
    refine hrest.trans ?_
    simp only [List.exists_mem_cons_iff]
    by_cases hfirst : d.Below j c
    · rw [if_pos hfirst, if_pos (Or.inl hfirst), ite_self]
    · simp only [hfirst, if_false, false_or]

/-- What stands below a node, other than itself, stands below one of its children. -/
theorem exists_below_child (h : d.Treelike) :
    (∃ c ∈ d.children p, d.Below j c) ↔ j ≠ p ∧ d.Below j p := by
  constructor
  · rintro ⟨c, hc, hjc⟩
    refine ⟨?_, Relation.ReflTransGen.tail hjc ((h.child p c).1 hc)⟩
    rintro rfl
    exact h.not_below_child hc hjc
  · rintro ⟨hne, hjp⟩
    obtain rfl | ⟨c, hjc, hc⟩ := Relation.ReflTransGen.cases_tail hjp
    · exact absurd rfl hne
    · exact ⟨c, (h.child p c).2 hc, hjc⟩

end Treelike

/-- A document in which new nodes with the given trees have taken the place of the children of a
node. -/
structure Replaced (d d' : Document α) (id : DomId) (ts : List Tree) : Prop where
  /-- No node got lost. -/
  size : d.nodes.size ≤ d'.nodes.size
  /-- The nodes still form trees. -/
  treelike : d'.Treelike
  /-- Old nodes are what they were. -/
  kind : ∀ j, j.index < d.nodes.size → d'.kind j = d.kind j
  /-- Other old nodes have the children that they had. -/
  children : ∀ j, j.index < d.nodes.size → j ≠ id → d'.children j = d.children j
  /-- No child is an old node. -/
  fresh : ∀ c ∈ d'.children id, d.nodes.size ≤ c.index
  /-- The trees of the children are the given ones. -/
  forest : d'.forest id = ts
  /-- What stood below the node has lost its listeners. -/
  dropped : ∀ j, j.index < d.nodes.size → j ≠ id → d.Below j id → d'.listeners j = []
  /-- The node itself and what stood elsewhere has the listeners that it had. -/
  listeners : ∀ j, j.index < d.nodes.size → j = id ∨ ¬d.Below j id → d'.listeners j = d.listeners j

/-- What is read can be held by a document, also in front of a fault. -/
theorem holdable_parsePartial (markup : String) : ∀ t ∈ (parsePartial markup).1, t.Holdable :=
  fun t ht => Tree.holdable_of_writable
    (Tree.allWritable_iff.1 (allWritable_parsePartial markup) t ht)

/-- The trees that markup holds, up to its fault if it has one, take the place of the children. -/
theorem Treelike.replaced_setInner {d : Document α} (h : d.Treelike) {id : DomId}
    (hid : id.index < d.nodes.size) (markup : String) :
    d.Replaced (d.setInner id markup).1 id (parsePartial markup).1 := by
  classical
  obtain ⟨hclear, hempty, hkind⟩ := h.clear id
  have hid' := Nat.lt_of_lt_of_le hid hclear.size
  obtain ⟨new, hgains, htrees⟩ := gains_plantUnder hclear.treelike hid' (parsePartial markup).1
    (holdable_parsePartial markup)
  have hchildren : (d.setInner id markup).1.children id = new := by
    rw [setInner, hgains.spot, hempty]
    rfl
  have hlisteners {j : DomId} (hj : j.index < d.nodes.size) :
      (d.setInner id markup).1.listeners j =
        if j ≠ id ∧ d.Below j id then [] else d.listeners j := by
    have hheld := Nat.lt_of_lt_of_le hj hclear.size
    refine (listeners_plantUnder hclear.treelike hid' hheld _).trans ?_
    refine (h.listeners_removeAll (h.nodup id) (fun _ hc => hc) j).trans ?_
    simp only [h.exists_below_child]
  refine ⟨Nat.le_trans hclear.size hgains.size, hgains.treelike, fun j hj => ?_, fun j hj hne => ?_,
    fun c hc => ?_, ?_, fun j hj hne hb => ?_, fun j hj hout => ?_⟩
  · rw [← hkind j]
    exact hgains.kind j (Nat.lt_of_lt_of_le hj hclear.size)
  · rw [← hclear.children j hj hne (by simp)]
    exact hgains.children j (Nat.lt_of_lt_of_le hj hclear.size) hne
  · rw [hchildren] at hc
    exact Nat.le_trans hclear.size (hgains.new c hc)
  · rw [Document.forest, hchildren]
    exact htrees
  · rw [hlisteners hj, if_pos ⟨hne, hb⟩]
  · rw [hlisteners hj, if_neg]
    rintro ⟨hne, hb⟩
    exact hout.elim hne fun hnot => hnot hb

/-- Old nodes that the node does not stand below have the trees that they had. -/
theorem Replaced.tree {d d' : Document α} {id x : DomId} {ts : List Tree} (h : d.Replaced d' id ts)
    (hd : d.Treelike) (hx : x.index < d.nodes.size) (hout : ¬d.Below id x) :
    d'.tree x = d.tree x := by
  refine hd.tree_congr h.treelike fun j hj => ?_
  have hheld := hd.lt_size_below hx hj
  refine ⟨h.kind j hheld, h.children j hheld ?_⟩
  rintro rfl
  exact hout hj

/-- The outcome is the one of reading the markup by itself, and without a fault its trees are put
in. -/
theorem Treelike.setInner_outcome {d : Document α} (h : d.Treelike) {id : DomId}
    (hid : id.index < d.nodes.size) (markup : String) :
    match (parse markup : Except ParseError (Document α)) with
    | .ok read => (d.setInner id markup).2 = none ∧
        (d.setInner id markup).1.forest id = read.forest root
    | .error e => (d.setInner id markup).2 = some e := by
  have hforest := (h.replaced_setInner hid markup).forest
  have hholdable := holdable_parsePartial markup
  have hfault : (d.setInner id markup).2 = (parsePartial markup).2 := rfl
  rw [hforest, hfault, parse, Markup.parse]
  revert hholdable
  rcases parsePartial markup with ⟨ts, _ | e⟩
  · intro hholdable
    refine ⟨rfl, ?_⟩
    rw [forest_created, forest_plantUnder hholdable]
  · exact fun _ => rfl

/-- The children stay, with or without a fault, only if there are none and nothing is read. -/
theorem Treelike.children_setInner_eq_iff {d : Document α} (h : d.Treelike) {id : DomId}
    (hid : id.index < d.nodes.size) (markup : String) :
    (d.setInner id markup).1.children id = d.children id ↔
      d.children id = [] ∧ (parsePartial markup).1 = [] := by
  have hreplaced := h.replaced_setInner hid markup
  constructor
  · intro hsame
    have hnone : d.children id = [] := by
      rw [List.eq_nil_iff_forall_not_mem]
      intro c hc
      exact absurd (h.holds id c hc) (Nat.not_lt.2 (hreplaced.fresh c (hsame ▸ hc)))
    refine ⟨hnone, ?_⟩
    rw [← hreplaced.forest, Document.forest, hsame, hnone, List.map_nil]
  · rintro ⟨hnone, hnothing⟩
    have hforest := hreplaced.forest
    rw [hnothing, Document.forest, List.map_eq_nil_iff] at hforest
    rw [hforest, hnone]

/-- A comment without an end costs a paragraph its text, and what stands in front of the comment is
put in its place. -/
example :
    let d : Document Unit :=
      ({} : Document Unit).plantUnder root [.node (.element "p" []) [.leaf (.text "old")]]
    (d.setInner ⟨1⟩ "new<!--").2 = some ⟨3, "unterminated comment"⟩ ∧
      d.inner root = "<p>old</p>" ∧ (d.setInner ⟨1⟩ "new<!--").1.inner root = "<p>new</p>" := by
  decide +kernel

end Rivulet.Document
