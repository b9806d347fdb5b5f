import Rivulet.Document.Fragment
import Rivulet.Proofs.Hydration.Skeleton

/-!
# New nodes in a document

A node that is created and put under another one, and trees that are built there, bear the
skeletons that they should, and nothing else changes.
-/

namespace Rivulet.Document

open Markup

variable {α : Type}

/-- A node of two documents that is the same in both, in the same place. -/
structure Kept (d d' : Document α) (j : DomId) : Prop where
  /-- It is of the same kind. -/
  kind : d'.kind j = d.kind j
  /-- It has the same children. -/
  children : d'.children j = d.children j
  /-- It has the same parent. -/
  parent : d'.parent? j = d.parent? j

theorem Kept.trans {d d₁ d' : Document α} {j : DomId} (h : d.Kept d₁ j) (h' : d₁.Kept d' j) :
    d.Kept d' j :=
  ⟨h'.kind.trans h.kind, h'.children.trans h.children, h'.parent.trans h.parent⟩

/-- Creating a node keeps the others. -/
theorem kept_create {d : Document α} (kind : Kind) {j : DomId} (hj : j.index < d.nodes.size) :
    d.Kept (d.create kind).2 j where
  kind := by rw [Document.kind, entry_create_of_lt hj, Document.kind]
  children := children_create d kind j
  parent := parent?_create d kind j

private theorem kept_insertBefore {d : Document α} {p c : DomId} (anchor : Option DomId)
    (hc : d.parent? c = none) (hp : p.index < d.nodes.size) (hne : p ≠ c) {j : DomId} (hjp : j ≠ p)
    (hjc : j ≠ c) : d.Kept (d.insertBefore p c anchor) j where
  kind := kind_insertBefore anchor hc j
  children := by rw [children_insertBefore anchor hc hp hne, if_neg hjp]
  parent := parent?_insertBefore anchor hc hjc

/-- A document with new nodes, none of them below an old one. -/
structure Extended (d d' : Document α) : Prop where
  /-- No node got lost. -/
  size : d.nodes.size ≤ d'.nodes.size
  /-- The nodes still form trees. -/
  treelike : d'.Treelike
  /-- Old nodes are what they were, where they were. -/
  kept : ∀ j, j.index < d.nodes.size → d.Kept d' j

/-- New nodes do not stand above old ones. -/
theorem Extended.not_below {d d' : Document α} (h : d.Extended d') (hd : d.Treelike) {j c : DomId}
    (hj : j.index < d.nodes.size) (hc : d.nodes.size ≤ c.index) : ¬d'.Below j c := by
  intro hb
  induction hb using Relation.ReflTransGen.head_induction_on with
  | refl => exact absurd hj (Nat.not_lt.2 hc)
  | @head j q hstep _ ih =>
    rw [(h.kept j hj).parent] at hstep
    exact ih (lt_size_of_child ((hd.child q j).2 hstep))

/-- A document with one new node, which stands under an old one. -/
structure Inserted (d d' : Document α) (p x : DomId) (anchor : Option DomId) (kind : Kind) :
    Prop where
  /-- Only the children of the node above have changed. -/
  redrawn : d.Redrawn d' p []
  /-- The node is new. -/
  fresh : x.index = d.nodes.size
  /-- There is no other new node. -/
  size : d'.nodes.size = d.nodes.size + 1
  /-- It stands in front of the anchor. -/
  children : d'.children p = insertIn x anchor (d.children p)
  /-- Nothing stands below it. -/
  inside : d'.children x = []
  /-- It is of the kind that was asked for. -/
  kind : d'.kind x = kind
  /-- Other nodes are of the kind that they were of. -/
  others : ∀ j, j ≠ x → d'.kind j = d.kind j

/-- A new node is inserted among the children of another one. -/
theorem Treelike.inserted {d : Document α} (h : d.Treelike) {p : DomId}
    (hp : p.index < d.nodes.size) (kind : Kind) (anchor : Option DomId) :
    d.Inserted ((d.create kind).2.insertBefore p ⟨d.nodes.size⟩ anchor) p ⟨d.nodes.size⟩ anchor
      kind := by
  have halone : (d.create kind).2.parent? ⟨d.nodes.size⟩ = none := by
    rw [parent?_create]
    exact parent?_of_size_le (Nat.le_refl _)
  have hne : p ≠ ⟨d.nodes.size⟩ := by
    rintro rfl
    exact Nat.lt_irrefl _ hp
  have hps : p.index < (d.create kind).2.nodes.size := by
    rw [size_create]
    omega
  have hextended : d.Extended (d.create kind).2 :=
    ⟨by rw [size_create]; omega, h.create kind, fun j hj => kept_create kind hj⟩
  have hkind (j : DomId) (hj : j ≠ ⟨d.nodes.size⟩) :
      ((d.create kind).2.insertBefore p ⟨d.nodes.size⟩ anchor).kind j = d.kind j := by
    rw [kind_insertBefore anchor halone, kind_create_of_ne hj]
  have hold {j : DomId} (hj : j.index < d.nodes.size) : j ≠ ⟨d.nodes.size⟩ := by
    rintro rfl
    exact Nat.lt_irrefl _ hj
  refine ⟨⟨⟨?_, ?_, fun j hj => ?_, fun j hj hjp _ => ?_⟩, fun j hj => ?_⟩, rfl, ?_, ?_, ?_, ?_,
    hkind⟩
  · rw [size_insertBefore anchor halone, size_create]
    omega
  · exact (h.create kind).insertBefore anchor halone hps
      (by rw [size_create]; exact Nat.lt_succ_self _)
      (hextended.not_below h hp (Nat.le_refl _))
  · rw [parent?_insertBefore anchor halone (hold hj), parent?_create]
    exact Or.inl rfl
  · rw [children_insertBefore anchor halone hps hne, if_neg hjp, children_create]
  · rw [hkind j (hold hj)]
  · rw [size_insertBefore anchor halone, size_create]
  · rw [children_insertBefore anchor halone hps hne, if_pos rfl, children_create]
  · rw [children_insertBefore anchor halone hps hne, if_neg hne.symm, children_create]
    exact children_of_size_le (Nat.le_refl _)
  · rw [kind_insertBefore anchor halone, kind_create_self]

/-- It does not matter whether an entry is changed before a node is created. -/
theorem modify_create (d : Document α) {id : DomId} (h : id.index < d.nodes.size)
    (f : Entry α → Entry α) (kind : Kind) :
    (d.create kind).2.modify id f = ((d.modify id f).create kind).2 := by
  have hnodes : (d.nodes.push { kind }).modify id.index f =
      (d.nodes.modify id.index f).push { kind } := by
    apply Array.ext_getElem?
    intro i
    rw [Array.getElem?_modify, Array.getElem?_push, Array.getElem?_push, Array.getElem?_modify,
      Array.size_modify]
    by_cases hi : i = d.nodes.size
    · subst hi
      simp [Nat.ne_of_lt h]
    · simp [hi]
  simp only [create, modify, hnodes]

/-- It does not matter whether another node is created before or after one is put in its place. -/
theorem insertBefore_create {d : Document α} {p c : DomId} (anchor : Option DomId)
    (hc : d.parent? c = none) (hp : p.index < d.nodes.size) (hs : c.index < d.nodes.size)
    (kind : Kind) : (d.create kind).2.insertBefore p c anchor =
      ((d.insertBefore p c anchor).create kind).2 := by
  rw [insertBefore, insertBefore, detach_of_parent?_none hc,
    detach_of_parent?_none (by rw [parent?_create, hc]), modify_create d hp, modify_create]
  rwa [size_modify]

/-- A document with trees built as the last children of a node. -/
structure Grafted (d d' : Document α) (p : DomId) (ts : List Tree) : Prop where
  /-- No node got lost. -/
  size : d.nodes.size ≤ d'.nodes.size
  /-- The nodes still form trees. -/
  treelike : d'.Treelike
  /-- Other old nodes are what they were, where they were. -/
  kept : ∀ j, j.index < d.nodes.size → j ≠ p → d.Kept d' j
  /-- The node above is of the same kind. -/
  kind : d'.kind p = d.kind p
  /-- The node above is where it was. -/
  parent : d'.parent? p = d.parent? p
  /-- The trees stand behind what was there. -/
  children : ∃ new, d'.children p = d.children p ++ new ∧ (∀ x ∈ new, d.nodes.size ≤ x.index) ∧
    d'.Bears new (skeletons ts)

/-- Grafted trees are new children and leave the others. -/
theorem Grafted.redrawn {d d' : Document α} {p : DomId} {ts : List Tree} (h : d.Grafted d' p ts) :
    d.Redrawn d' p [] where
  size := h.size
  treelike := h.treelike
  bare j hj := by
    by_cases hjp : j = p
    · rw [hjp, h.kind]
    · rw [(h.kept j hj hjp).kind]
  parent j hj := by
    by_cases hjp : j = p
    · rw [hjp, h.parent]
      exact Or.inl rfl
    · exact Or.inl (h.kept j hj hjp).parent
  children j hj hjp _ := (h.kept j hj hjp).children

mutual

/-- A tree is built out of new nodes and stands alone. -/
theorem plant_extended {d : Document α} (hd : d.Treelike) : ∀ t : Tree,
    (d.plant t).1 = ⟨d.nodes.size⟩ ∧ d.Extended (d.plant t).2 ∧
      d.nodes.size < (d.plant t).2.nodes.size ∧ (d.plant t).2.parent? ⟨d.nodes.size⟩ = none ∧
      (d.plant t).2.Bears [⟨d.nodes.size⟩] t.skeleton
  | .node kind children => by
    have htop : (⟨d.nodes.size⟩ : DomId).index < (d.create kind).2.nodes.size := by simp
    have hunder := plantUnder_grafted (hd.create kind) htop children
    have hsize := hunder.size
    rw [size_create] at hsize
    obtain ⟨new, hnew, -, hbears⟩ := hunder.children
    have hnone : d.children ⟨d.nodes.size⟩ = [] := children_of_size_le (Nat.le_refl _)
    rw [children_create, hnone, List.nil_append] at hnew
    have hkind : ((d.create kind).2.plantUnder ⟨d.nodes.size⟩ children).kind
        ⟨d.nodes.size⟩ = kind := by
      rw [hunder.kind, kind_create_self]
    rw [plant_node]
    refine ⟨rfl, ⟨by simp only; omega, hunder.treelike, fun j hj => ?_⟩, by simp only; omega,
      ?_, ?_⟩
    · have hne : j ≠ ⟨d.nodes.size⟩ := by
        rintro rfl
        exact Nat.lt_irrefl _ hj
      exact (kept_create kind hj).trans (hunder.kept j (by rw [size_create]; omega) hne)
    · rw [hunder.parent, parent?_create]
      exact parent?_of_size_le (Nat.le_refl _)
    · cases kind with
      | element tag attrs =>
        rw [Tree.skeleton]
        split
        · rename_i hkey
          refine .element (by rw [hkind, Kind.bare, if_pos hkey]) ?_ .nil
          rwa [hnew]
        · rename_i hkey
          refine .skip ?_ .nil
          rw [hkind, Hydration.isCandidate, Kind.isForeign_bare]
          simp [Kind.isForeign, hkey]
      | wrapper w attrs => exact .wrapper (by rw [hkind]; rfl) (by rwa [hnew]) .nil
      | marker edge => exact .marker (by rw [hkind]; rfl) .nil
      | text content => exact .skip (by rw [hkind]; rfl) .nil
      | comment content => exact .skip (by rw [hkind]; rfl) .nil

/-- Trees are built as the last children of a node. -/
theorem plantUnder_grafted {d : Document α} (hd : d.Treelike) {p : DomId}
    (hp : p.index < d.nodes.size) : ∀ ts : List Tree, d.Grafted (d.plantUnder p ts) p ts
  | [] => ⟨Nat.le_refl _, hd, fun _ _ _ => ⟨rfl, rfl, rfl⟩, rfl, rfl, [],
      by simp [plantUnder], by simp, .nil⟩
  | t :: ts => by
    obtain ⟨hid, hextended, hsize, halone, hbears⟩ := plant_extended hd t
    have hps : p.index < (d.plant t).2.nodes.size := Nat.lt_trans hp hsize
    have hne : p ≠ ⟨d.nodes.size⟩ := by
      rintro rfl
      exact Nat.lt_irrefl _ hp
    have hout := hextended.not_below hd hp (Nat.le_refl _)
    have htreelike := hextended.treelike.insertBefore none halone hps hsize hout
    have hsize' : ((d.plant t).2.insertBefore p ⟨d.nodes.size⟩ none).nodes.size =
        (d.plant t).2.nodes.size := size_insertBefore none halone
    have hchildren := children_insertBefore none halone hps hne
    have hrest := plantUnder_grafted htreelike (by rwa [hsize']) ts
    obtain ⟨new, hnew, hnewer, hmore⟩ := hrest.children
    have hold {j : DomId} (hj : j.index < d.nodes.size) : j ≠ ⟨d.nodes.size⟩ := by
      rintro rfl
      exact Nat.lt_irrefl _ hj
    have hgrown := hrest.size
    rw [plantUnder_cons, hid]
    refine ⟨by omega, hrest.treelike, fun j hj hjp => ?_, ?_, ?_, ⟨d.nodes.size⟩ :: new, ?_, ?_, ?_⟩
    · exact ((hextended.kept j hj).trans (kept_insertBefore none halone hps hne hjp
        (hold hj))).trans
        (hrest.kept j (by omega) hjp)
    · rw [hrest.kind, kind_insertBefore none halone, (hextended.kept p hp).kind]
    · rw [hrest.parent, parent?_insertBefore none halone hne, (hextended.kept p hp).parent]
    · rw [hnew, hchildren, if_pos rfl, insertIn, (hextended.kept p hp).children, List.append_assoc,
        List.singleton_append]
    · intro x hx
      rcases List.mem_cons.1 hx with rfl | hx
      · exact Nat.le_refl _
      · have := hnewer x hx
        omega
    · -- The tree stays what it is while it is put under the node and others are put behind it.
      have hput : ((d.plant t).2.insertBefore p ⟨d.nodes.size⟩ none).Bears [⟨d.nodes.size⟩]
          t.skeleton := by
        refine hbears.congr hextended.treelike fun x hx j hj => ?_
        obtain rfl := List.mem_singleton.1 hx
        have hjp : j ≠ p := by
          rintro rfl
          exact hout hj
        exact ⟨by rw [kind_insertBefore none halone], by rw [hchildren, if_neg hjp]⟩
      have hmem : (⟨d.nodes.size⟩ : DomId) ∈
          ((d.plant t).2.insertBefore p ⟨d.nodes.size⟩ none).children p := by
        rw [hchildren, if_pos rfl]
        simp [insertIn]
      have hkept := hput.redrawn htreelike hrest.redrawn (by simp) fun x hx => by
        obtain rfl := List.mem_singleton.1 hx
        exact ⟨hmem, List.not_mem_nil⟩
      exact hkept.append hmore

end

/-- The node that was built first is the top of the tree. -/
theorem kind_plant {d : Document α} (hd : d.Treelike) :
    ∀ t : Tree, (d.plant t).2.kind ⟨d.nodes.size⟩ = t.kind
  | .node kind children => by
    have htop : (⟨d.nodes.size⟩ : DomId).index < (d.create kind).2.nodes.size := by simp
    rw [plant_node]
    show ((d.create kind).2.plantUnder ⟨d.nodes.size⟩ children).kind _ = kind
    rw [(plantUnder_grafted (hd.create kind) htop children).kind, kind_create_self]

/-- Taking a child out changes the children of its parent. -/
theorem Treelike.redrawn_remove {d : Document α} (h : d.Treelike) {p c : DomId}
    (hc : c ∈ d.children p) : d.Redrawn (d.remove c) p [] where
  size := (size_remove d c).ge
  treelike := h.remove c
  bare j _ := by rw [kind_remove]
  parent j _ := by
    rw [parent?_remove]
    split
    · exact Or.inr rfl
    · exact Or.inl rfl
  children j _ hjp _ := by
    rw [children_remove, (h.child p c).1 hc, if_neg (by simpa using hjp.symm)]

/-- A child that is removed is missing from the children of its parent. -/
theorem Treelike.children_remove_self {d : Document α} (h : d.Treelike) {p c : DomId}
    (hc : c ∈ d.children p) : (d.remove c).children p = (d.children p).filter (· ≠ c) := by
  rw [children_remove, (h.child p c).1 hc, if_pos rfl]

/-- Taking several children out. -/
theorem Treelike.removeAll {p : DomId} : ∀ (cs : List DomId) {d : Document α}, d.Treelike →
    cs.Nodup → (∀ c ∈ cs, c ∈ d.children p) → d.Redrawn (d.removeAll cs) p [] ∧
      (d.removeAll cs).children p = (d.children p).filter (· ∉ cs) ∧
      ∀ j, (d.removeAll cs).kind j = d.kind j
  | [], d, h, _, _ => ⟨.refl h p [], by simp [Document.removeAll], fun _ => rfl⟩
  | c :: cs, d, h, hnodup, hcs => by
    have hc := hcs c List.mem_cons_self
    rw [List.nodup_cons] at hnodup
    have hchildren := h.children_remove_self hc
    obtain ⟨hredrawn, hrest, hkind⟩ := Treelike.removeAll (p := p) cs (h.remove c) hnodup.2
        fun e he => by
      rw [hchildren, List.mem_filter]
      refine ⟨hcs e (List.mem_cons_of_mem c he), ?_⟩
      rw [decide_eq_true_eq]
      rintro rfl
      exact hnodup.1 he
    refine ⟨(h.redrawn_remove hc).trans h hredrawn, ?_, fun j => ?_⟩
    · show ((d.remove c).removeAll cs).children p = _
      rw [hrest, hchildren, List.filter_filter]
      apply List.filter_congr
      intro e _
      by_cases hec : e = c <;> by_cases he : e ∈ cs <;> simp [hec, he]
    · exact (hkind j).trans (kind_remove d c j)

/-- Emptying a node. -/
theorem Treelike.clear {d : Document α} (h : d.Treelike) (p : DomId) :
    d.Redrawn (d.clear p) p [] ∧ (d.clear p).children p = [] ∧
      ∀ j, (d.clear p).kind j = d.kind j := by
  obtain ⟨hredrawn, hchildren, hkind⟩ :=
    Treelike.removeAll (d.children p) h (h.nodup p) fun _ hc => hc
  refine ⟨hredrawn, ?_, hkind⟩
  rw [Document.clear, hchildren, List.filter_eq_nil_iff]
  simp

end Rivulet.Document
