import Rivulet.Proofs.Document.Arena

/-!
# Building trees in a document

A node that stands alone is put under another one without a change of any third node. So a tree
is built behind everything that is there: the older nodes keep what they are and what stands
below them, and the tree is found where it was put.
-/

namespace Rivulet

/-- Whether only elements and wrappers of a tree have children. -/
inductive Markup.Tree.Holdable : Markup.Tree → Prop
  /-- The children of a node can be held, and it has some only as an element or a wrapper. -/
  | node {kind : Markup.Kind} {children : List Markup.Tree}
      (holds : kind.over children = .node kind children)
      (below : ∀ t ∈ children, Holdable t) : Holdable (.node kind children)

namespace Document

variable {α : Type}

/-- A node without a parent is detached already. -/
theorem detach_of_parent?_none {d : Document α} {id : DomId} (h : d.parent? id = none) :
    d.detach id = d := by
  rw [detach, h]

/-- Putting a node that stands alone under another one changes the children of that one. -/
theorem children_insertBefore {d : Document α} {parent child : DomId} (anchor : Option DomId)
    (hc : d.parent? child = none) (hp : parent.index < d.nodes.size) (hne : parent ≠ child)
    (j : DomId) : (d.insertBefore parent child anchor).children j =
      if j = parent then insertIn child anchor (d.children parent) else d.children j := by
  rw [insertBefore, detach_of_parent?_none hc]
  by_cases hj : j = parent
  · subst hj
    rw [if_pos rfl, children, entry_modify_of_ne _ hne, entry_modify_self hp]
    rfl
  · rw [if_neg hj, children, entry_modify]
    by_cases hj' : j = child ∧ child.index <
        (d.modify parent
          fun e => { e with children := insertIn child anchor e.children }).nodes.size
    · rw [if_pos hj', entry_modify_of_ne _ hj]
      rfl
    · rw [if_neg hj', entry_modify_of_ne _ hj]
      rfl

/-- Inserting a node changes no kind. -/
theorem kind_insertBefore {d : Document α} {parent child : DomId} (anchor : Option DomId)
    (hc : d.parent? child = none) (j : DomId) :
    (d.insertBefore parent child anchor).kind j = d.kind j := by
  rw [insertBefore, detach_of_parent?_none hc, kind, entry_modify, entry_modify, kind]
  split <;> split <;> rfl

/-- Inserting a node leaves the parents of the others. -/
theorem parent?_insertBefore {d : Document α} {parent child : DomId} (anchor : Option DomId)
    (hc : d.parent? child = none) {j : DomId} (hj : j ≠ child) :
    (d.insertBefore parent child anchor).parent? j = d.parent? j := by
  rw [insertBefore, detach_of_parent?_none hc, parent?, entry_modify_of_ne _ hj, entry_modify,
    parent?]
  split <;> rfl

/-- Inserting a node adds none to the arena. -/
theorem size_insertBefore {d : Document α} {parent child : DomId} (anchor : Option DomId)
    (hc : d.parent? child = none) :
    (d.insertBefore parent child anchor).nodes.size = d.nodes.size := by
  rw [insertBefore, detach_of_parent?_none hc, size_modify, size_modify]

/-- Among the children there are those of before and the new one. -/
theorem mem_insertIn {c : DomId} {anchor : Option DomId} {cs : List DomId} {x : DomId} :
    x ∈ insertIn c anchor cs ↔ x = c ∨ x ∈ cs := by
  cases anchor with
  | none => simp [insertIn, or_comm]
  | some a =>
    conv_rhs => rw [← List.takeWhile_append_dropWhile (p := fun y => decide (y ≠ a)) (l := cs)]
    simp only [insertIn, List.mem_append, List.mem_cons]
    tauto

/-- No child stands twice among the children. -/
theorem nodup_insertIn {c : DomId} {cs : List DomId} (h : cs.Nodup) (hc : c ∉ cs)
    (anchor : Option DomId) : (insertIn c anchor cs).Nodup := by
  have hperm : (insertIn c anchor cs).Perm (c :: cs) := by
    cases anchor with
    | none => exact List.perm_append_comm
    | some a =>
      have hsplit := List.takeWhile_append_dropWhile (p := fun y => decide (y ≠ a)) (l := cs)
      conv_rhs => rw [← hsplit]
      exact List.perm_middle
  rw [hperm.nodup_iff, List.nodup_cons]
  exact ⟨hc, h⟩

/-- A node that was put under another one has it as its parent. -/
theorem parent?_insertBefore_self {d : Document α} {parent child : DomId} (anchor : Option DomId)
    (hc : d.parent? child = none) (hs : child.index < d.nodes.size) :
    (d.insertBefore parent child anchor).parent? child = some parent := by
  rw [insertBefore, detach_of_parent?_none hc, parent?, entry_modify_self (by rwa [size_modify])]

/-- The list from its first place of an item on. -/
theorem dropWhile_ne_append {a b : List DomId} {x : DomId} (h : x ∉ a) :
    (a ++ x :: b).dropWhile (· ≠ x) = x :: b := by
  induction a with
  | nil => simp
  | cons y a ih =>
    rw [List.mem_cons, not_or] at h
    simpa [Ne.symm h.1] using ih h.2

/-- The list in front of its first place of an item. -/
theorem takeWhile_ne_append {a b : List DomId} {x : DomId} (h : x ∉ a) :
    (a ++ x :: b).takeWhile (· ≠ x) = a := by
  induction a with
  | nil => simp
  | cons y a ih =>
    rw [List.mem_cons, not_or] at h
    simpa [Ne.symm h.1] using ih h.2

/-- Putting a newer node that stands alone under another one keeps the order. -/
theorem Ordered.insertBefore {d : Document α} (h : d.Ordered) {parent child : DomId}
    (anchor : Option DomId) (hc : d.parent? child = none) (hlt : parent.index < child.index)
    (hs : child.index < d.nodes.size) : (d.insertBefore parent child anchor).Ordered := by
  have hne : parent ≠ child := by
    rintro rfl
    omega
  intro j c hj
  rw [size_insertBefore anchor hc]
  rw [children_insertBefore anchor hc (Nat.lt_trans hlt hs) hne] at hj
  by_cases hp : j = parent
  · rw [if_pos hp, mem_insertIn] at hj
    rcases hj with rfl | hj
    · exact ⟨hp ▸ hlt, hs⟩
    · exact hp ▸ h parent c hj
  · rw [if_neg hp] at hj
    exact h j c hj

/-- A tree that does not hold the node above is not changed by what that node is given. -/
theorem tree_insertBefore {d : Document α} (h : d.Ordered) {parent child : DomId}
    (anchor : Option DomId) (hc : d.parent? child = none) (hlt : parent.index < child.index)
    (hs : child.index < d.nodes.size) {j : DomId} (hj : parent.index < j.index) :
    (d.insertBefore parent child anchor).tree j = d.tree j := by
  have hne : parent ≠ child := by
    rintro rfl
    omega
  have hpart : ∀ i : DomId, parent.index < i.index →
      (d.insertBefore parent child anchor).kind i = d.kind i ∧
        (d.insertBefore parent child anchor).children i = d.children i ∧
        ∀ c ∈ d.children i, parent.index < c.index := by
    intro i hi
    have hip : i ≠ parent := by
      rintro rfl
      omega
    refine ⟨kind_insertBefore anchor hc i, ?_, ?_⟩
    · rw [children_insertBefore anchor hc (Nat.lt_trans hlt hs) hne, if_neg hip]
    · intro c hcm
      have := h i c hcm
      omega
  exact tree_congr h (h.insertBefore anchor hc hlt hs) hpart hj

/-- A document that grew out of another one: the older nodes of a set are unchanged. -/
structure Grows (d d' : Document α) (P : DomId → Prop) : Prop where
  /-- The arena is still in order. -/
  ordered : d'.Ordered
  /-- No node got lost. -/
  size : d.nodes.size ≤ d'.nodes.size
  /-- The nodes of the set are what they were, where they were. -/
  entry : ∀ j, j.index < d.nodes.size → P j → d'.entry j = d.entry j

/-- A tree stays what it is as long as the nodes of it are unchanged. -/
theorem Grows.tree {d d' : Document α} {P : DomId → Prop} (h : d.Grows d' P) (hd : d.Ordered)
    (id : DomId) (hid : id.index < d.nodes.size) (hP : ∀ j, id.index ≤ j.index → P j) :
    d'.tree id = d.tree id := by
  have hpart : ∀ i, id.index ≤ i.index ∧ i.index < d.nodes.size →
      d'.kind i = d.kind i ∧ d'.children i = d.children i ∧
        ∀ c ∈ d.children i, id.index ≤ c.index ∧ c.index < d.nodes.size := by
    rintro i ⟨hle, hlt⟩
    have hentry := h.entry i hlt (hP i hle)
    refine ⟨by rw [kind, hentry, kind], by rw [children, hentry, children], ?_⟩
    intro c hc
    have := hd i c hc
    omega
  exact tree_congr hd h.ordered hpart ⟨Nat.le_refl _, hid⟩

/-- Putting a newer node that stands alone under another one changes no third node. -/
theorem grows_insertBefore {d : Document α} (h : d.Ordered) {parent child : DomId}
    (anchor : Option DomId) (hc : d.parent? child = none) (hlt : parent.index < child.index)
    (hs : child.index < d.nodes.size) :
    d.Grows (d.insertBefore parent child anchor) fun j => j ≠ parent ∧ j ≠ child := by
  refine ⟨h.insertBefore anchor hc hlt hs, Nat.le_of_eq (size_insertBefore anchor hc).symm, ?_⟩
  rintro j - ⟨hp, hj⟩
  rw [insertBefore, detach_of_parent?_none hc, entry_modify_of_ne _ hj, entry_modify_of_ne _ hp]

/-- What building trees under a node does: they become its last children. -/
structure Planted (d d' : Document α) (parent : DomId) (ts : List Markup.Tree) : Prop where
  /-- Only the node above changes. -/
  grows : d.Grows d' (· ≠ parent)
  /-- It is of the kind that it was of. -/
  kind : d'.kind parent = d.kind parent
  /-- It stands where it stood. -/
  stands : d'.parent? parent = d.parent? parent
  /-- It has new children behind the old ones, with the trees below them. -/
  forest : ∃ new, d'.children parent = d.children parent ++ new ∧ new.map d'.tree = ts

/-- A tree is planted by creating its root and planting its children below. -/
theorem plant_node (d : Document α) (kind : Markup.Kind) (children : List Markup.Tree) :
    d.plant (.node kind children) =
      (⟨d.nodes.size⟩, (d.create kind).2.plantUnder ⟨d.nodes.size⟩ children) := by
  rw [plant, create]

/-- Trees are planted one after the other. -/
theorem plantUnder_cons (d : Document α) (parent : DomId) (t : Markup.Tree)
    (ts : List Markup.Tree) : d.plantUnder parent (t :: ts) =
      ((d.plant t).2.insertBefore parent (d.plant t).1 none).plantUnder parent ts := by
  rw [plantUnder]
  rfl

/-- Two lists of trees are planted one after the other. -/
theorem plantUnder_append (d : Document α) (parent : DomId) (ts us : List Markup.Tree) :
    d.plantUnder parent (ts ++ us) = (d.plantUnder parent ts).plantUnder parent us := by
  induction ts generalizing d with
  | nil => rw [List.nil_append, plantUnder]
  | cons t ts ih => rw [List.cons_append, plantUnder_cons, plantUnder_cons, ih]

mutual

/-- A tree is built behind all nodes and stands alone. -/
theorem plant_spec {d : Document α} (hd : d.Ordered) : ∀ {t : Markup.Tree}, t.Holdable →
    (d.plant t).1 = ⟨d.nodes.size⟩ ∧ d.Grows (d.plant t).2 (fun _ => True) ∧
      d.nodes.size < (d.plant t).2.nodes.size ∧
      (d.plant t).2.parent? ⟨d.nodes.size⟩ = none ∧ (d.plant t).2.tree ⟨d.nodes.size⟩ = t
  | .node kind children, .node hover hbelow => by
    have hs : (⟨d.nodes.size⟩ : DomId).index < (d.create kind).2.nodes.size := by simp
    have hunder := plantUnder_spec (hd.create kind) hs children hbelow
    have hsize := hunder.grows.size
    rw [size_create] at hsize
    obtain ⟨new, hnew, htrees⟩ := hunder.forest
    have hself := entry_create_self d kind
    rw [plant_node]
    refine ⟨rfl, ⟨hunder.grows.ordered, by simp only; omega, ?_⟩, by simp only; omega, ?_, ?_⟩
    · intro j hj _
      have hne : j ≠ ⟨d.nodes.size⟩ := by
        rintro rfl
        exact Nat.lt_irrefl _ hj
      rw [hunder.grows.entry j (by rw [size_create]; omega) hne, entry_create_of_lt hj]
    · rw [hunder.stands, parent?, hself]
    · rw [tree_eq hunder.grows.ordered, hunder.kind, Document.forest, hnew, Document.children,
        hself, List.nil_append, htrees, Document.kind, hself, hover]

/-- Trees are built as the last children of a node. -/
theorem plantUnder_spec {d : Document α} (hd : d.Ordered) {parent : DomId}
    (hp : parent.index < d.nodes.size) : ∀ ts : List Markup.Tree, (∀ t ∈ ts, t.Holdable) →
      d.Planted (d.plantUnder parent ts) parent ts
  | [], _ => ⟨⟨hd, Nat.le_refl _, fun _ _ _ => rfl⟩, rfl, rfl, [], by simp [plantUnder], rfl⟩
  | t :: ts, h => by
    obtain ⟨hid, hgrows, hsize, hparent, htree⟩ := plant_spec hd (h t List.mem_cons_self)
    have hput := grows_insertBefore hgrows.ordered none hparent hp hsize
    have hps : parent.index < (d.plant t).2.nodes.size := Nat.lt_trans hp hsize
    have hne : parent ≠ ⟨d.nodes.size⟩ := by
      rintro rfl
      exact Nat.lt_irrefl _ hp
    have hrest := plantUnder_spec hput.ordered (Nat.lt_of_lt_of_le hps hput.size) ts
      fun u hu => h u (List.mem_cons_of_mem t hu)
    obtain ⟨new, hnew, htrees⟩ := hrest.forest
    have hentry := hgrows.entry parent hp trivial
    rw [plantUnder_cons, hid]
    refine ⟨⟨hrest.grows.ordered, ?_, ?_⟩, ?_, ?_, ⟨d.nodes.size⟩ :: new, ?_, ?_⟩
    · have h1 := hput.size
      have h2 := hrest.grows.size
      omega
    · intro j hj hjp
      have hjs : j.index < (d.plant t).2.nodes.size := Nat.lt_trans hj hsize
      have hjne : j ≠ ⟨d.nodes.size⟩ := by
        rintro rfl
        exact Nat.lt_irrefl _ hj
      rw [hrest.grows.entry j (Nat.lt_of_lt_of_le hjs hput.size) hjp,
        hput.entry j hjs ⟨hjp, hjne⟩, hgrows.entry j hj trivial]
    · rw [hrest.kind, kind_insertBefore none hparent, Document.kind, hentry, Document.kind]
    · rw [hrest.stands, parent?_insertBefore none hparent hne, parent?, hentry, parent?]
    · rw [hnew, children_insertBefore none hparent hps hne, if_pos rfl, insertIn,
        Document.children, hentry, Document.children, List.append_assoc, List.singleton_append]
    · have hput' : (((d.plant t).2.insertBefore parent ⟨d.nodes.size⟩ none).tree
          ⟨d.nodes.size⟩) = t := by
        rw [tree_insertBefore hgrows.ordered none hparent hp hsize (j := ⟨d.nodes.size⟩) hp, htree]
      have hbehind : ∀ j : DomId, d.nodes.size ≤ j.index → j ≠ parent := by
        rintro j hj rfl
        exact absurd hp (Nat.not_lt.2 hj)
      have hkept := hrest.grows.tree hput.ordered ⟨d.nodes.size⟩
        (Nat.lt_of_lt_of_le hsize hput.size) hbehind
      rw [List.map_cons, hkept, hput', htrees]

end

end Document

end Rivulet
