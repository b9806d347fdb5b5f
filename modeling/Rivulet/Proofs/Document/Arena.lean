import Mathlib.Data.List.Forall2
import Rivulet.Document.Basic

/-!
# Laws of the arena

A document that was built by creating nodes and putting them under older ones keeps every child
behind its parent in the arena. In such a document the tree below a node is made of the trees
below its children, so two documents that look alike from two nodes on hold the same tree there.
-/

namespace Rivulet

/-- The tree of a node above the given ones; only elements and wrappers hold any. -/
def Markup.Kind.over (kind : Markup.Kind) (children : List Markup.Tree) : Markup.Tree :=
  match kind with
  | .element _ _ | .wrapper _ _ => .node kind children
  | _ => .leaf kind

namespace Document

variable {α : Type}

/-- Every child lies behind its parent in the arena. -/
def Ordered (d : Document α) : Prop :=
  ∀ id, ∀ c ∈ d.children id, id.index < c.index ∧ c.index < d.nodes.size

/-- What is not in the arena is as the root. -/
theorem entry_of_size_le {d : Document α} {id : DomId} (h : d.nodes.size ≤ id.index) :
    d.entry id = rootEntry := by
  rw [entry, Array.getElem?_eq_none h, Option.getD_none]

/-- Changing a node of the arena changes that node and no other one. -/
theorem entry_modify (d : Document α) (id j : DomId) (f : Entry α → Entry α) :
    (d.modify id f).entry j =
      if j = id ∧ id.index < d.nodes.size then f (d.entry j) else d.entry j := by
  rw [entry, modify, Array.getElem?_modify]
  by_cases hj : id.index = j.index
  · have hid : j = id := by
      cases j
      cases id
      simp_all
    subst hid
    by_cases hs : j.index < d.nodes.size
    · simp [entry, hs]
    · simp [entry, hs]
  · have hne : j ≠ id := by
      rintro rfl
      exact hj rfl
    simp [hj, hne, entry]

/-- An entry that was changed is found changed. -/
theorem entry_modify_self {d : Document α} {id : DomId} (h : id.index < d.nodes.size)
    (f : Entry α → Entry α) : (d.modify id f).entry id = f (d.entry id) := by
  rw [entry_modify, if_pos ⟨rfl, h⟩]

/-- Changing an entry leaves the others alone. -/
theorem entry_modify_of_ne (d : Document α) {id j : DomId} (h : j ≠ id) (f : Entry α → Entry α) :
    (d.modify id f).entry j = d.entry j := by
  rw [entry_modify, if_neg fun hj => h hj.1]

/-- Changing an entry adds none. -/
@[simp] theorem size_modify (d : Document α) (id : DomId) (f : Entry α → Entry α) :
    (d.modify id f).nodes.size = d.nodes.size := by
  simp [modify]

/-- A new node lies behind all others. -/
@[simp] theorem create_fst (d : Document α) (kind : Markup.Kind) :
    (d.create kind).1 = ⟨d.nodes.size⟩ := rfl

/-- Creating a node adds one entry. -/
@[simp] theorem size_create (d : Document α) (kind : Markup.Kind) :
    (d.create kind).2.nodes.size = d.nodes.size + 1 := by
  simp [create]

/-- A new node stands alone. -/
theorem entry_create_self (d : Document α) (kind : Markup.Kind) :
    (d.create kind).2.entry ⟨d.nodes.size⟩ = { kind } := by
  simp [entry, create]

/-- Creating a node leaves the entries of before. -/
theorem entry_create_of_lt {d : Document α} {j : DomId} (h : j.index < d.nodes.size)
    (kind : Markup.Kind) : (d.create kind).2.entry j = d.entry j := by
  simp [entry, create, Array.getElem?_push_lt, h]

/-- A place outside of the arena has no children. -/
theorem children_of_size_le {d : Document α} {id : DomId} (h : d.nodes.size ≤ id.index) :
    d.children id = [] := by
  rw [children, entry_of_size_le h, rootEntry]

/-- Creating a node leaves all entries but its own. -/
theorem entry_create_of_ne {d : Document α} {j : DomId} (h : j ≠ ⟨d.nodes.size⟩)
    (kind : Markup.Kind) : (d.create kind).2.entry j = d.entry j := by
  rcases Nat.lt_trichotomy j.index d.nodes.size with hlt | heq | hgt
  · exact entry_create_of_lt hlt kind
  · exact absurd (by cases j; simp_all) h
  · rw [entry_of_size_le (by rw [size_create]; omega), entry_of_size_le (by omega)]

/-- A new node has no children, and no other node gets any. -/
@[simp] theorem children_create (d : Document α) (kind : Markup.Kind) (j : DomId) :
    (d.create kind).2.children j = d.children j := by
  by_cases h : j = ⟨d.nodes.size⟩
  · have hout : d.nodes.size ≤ (⟨d.nodes.size⟩ : DomId).index := Nat.le_refl _
    rw [h, children, entry_create_self, children_of_size_le hout]
  · rw [children, entry_create_of_ne h, children]

/-- A new node has no parent, and the others keep theirs. -/
@[simp] theorem parent?_create (d : Document α) (kind : Markup.Kind) (j : DomId) :
    (d.create kind).2.parent? j = d.parent? j := by
  by_cases h : j = ⟨d.nodes.size⟩
  · have hout : d.nodes.size ≤ (⟨d.nodes.size⟩ : DomId).index := Nat.le_refl _
    rw [h, parent?, entry_create_self, parent?, entry_of_size_le hout, rootEntry]
  · rw [parent?, entry_create_of_ne h, parent?]

/-- A new node is of the kind that was asked for. -/
theorem kind_create_self (d : Document α) (kind : Markup.Kind) :
    (d.create kind).2.kind ⟨d.nodes.size⟩ = kind := by
  rw [Document.kind, entry_create_self]

/-- Creating a node leaves the kinds of the others. -/
theorem kind_create_of_ne {d : Document α} {j : DomId} (h : j ≠ ⟨d.nodes.size⟩)
    (kind : Markup.Kind) : (d.create kind).2.kind j = d.kind j := by
  rw [Document.kind, entry_create_of_ne h, Document.kind]

/-- What is not in the arena has no parent. -/
theorem parent?_of_size_le {d : Document α} {id : DomId} (h : d.nodes.size ≤ id.index) :
    d.parent? id = none := by
  rw [parent?, entry_of_size_le h, rootEntry]

/-- Creating a node keeps the order. -/
theorem Ordered.create {d : Document α} (h : d.Ordered) (kind : Markup.Kind) :
    (d.create kind).2.Ordered := by
  intro id c hc
  rw [size_create]
  rcases Nat.lt_trichotomy id.index d.nodes.size with hlt | heq | hgt
  · rw [children, entry_create_of_lt hlt] at hc
    have := h id c hc
    omega
  · have hid : id = ⟨d.nodes.size⟩ := by
      cases id
      simp_all
    rw [hid, children, entry_create_self] at hc
    simp at hc
  · rw [children_of_size_le (by rw [size_create]; omega)] at hc
    simp at hc

/-- A document with no node but the root is in order. -/
theorem ordered_empty : ({} : Document α).Ordered := by
  intro id c hc
  have hnil : ({} : Document α).children id = [] := by
    rw [children, entry]
    rcases id with ⟨_ | n⟩ <;> simp [rootEntry]
  rw [hnil] at hc
  simp at hc

/-- A bound that reaches from a node to the end of the arena is as good as any other one. -/
theorem foldWithin_eq {β : Type} {d : Document α} (h : d.Ordered)
    (f : DomId → Markup.Kind → List β → β) {id : DomId} {m n : Nat}
    (hm : d.nodes.size ≤ id.index + m) (hn : d.nodes.size ≤ id.index + n) :
    d.foldWithin f m id = d.foldWithin f n id := by
  induction m generalizing id n with
  | zero =>
    cases n with
    | zero => rfl
    | succ n => rw [foldWithin, foldWithin, children_of_size_le (by omega), List.map_nil]
  | succ m ih =>
    cases n with
    | zero => rw [foldWithin, foldWithin, children_of_size_le (by omega), List.map_nil]
    | succ n =>
      rw [foldWithin, foldWithin]
      congr 1
      apply List.map_congr_left
      intro c hc
      have hlt := (h id c hc).1
      exact ih (by omega) (by omega)

/-- What is known of a node comes from what is known of its children. -/
theorem fold_eq {β : Type} {d : Document α} (h : d.Ordered)
    (f : DomId → Markup.Kind → List β → β) (id : DomId) :
    d.fold f id = f id (d.kind id) ((d.children id).map (d.fold f)) := by
  rw [fold, foldWithin_eq h f (Nat.le_add_left _ _) (Nat.le_add_left_of_le (Nat.le_succ _)),
    foldWithin]
  rfl

/-- The tree below a node is made of the trees below its children. -/
theorem tree_eq {d : Document α} (h : d.Ordered) (id : DomId) :
    d.tree id = (d.kind id).over (d.forest id) := by
  rw [tree, fold_eq h]
  rfl

/-- Nodes that look alike, as do the nodes below them, hold the same tree. -/
theorem tree_eq_of_alike {β : Type} {d : Document α} {d' : Document β} (h : d.Ordered)
    (h' : d'.Ordered) {R : DomId → DomId → Prop}
    (hR : ∀ i j, R i j → d.kind i = d'.kind j ∧ List.Forall₂ R (d.children i) (d'.children j))
    {i j : DomId} (hij : R i j) : d.tree i = d'.tree j := by
  obtain ⟨hkind, hchildren⟩ := hR i j hij
  rw [tree_eq h, tree_eq h', hkind, forest, forest]
  congr 1
  have hbelow : List.Forall₂ (fun a b => d.tree a = d'.tree b) (d.children i) (d'.children j) := by
    have hbehind := (List.forall₂_and_left _ _).2 ⟨h i, hchildren⟩
    refine hbehind.imp ?_
    rintro a b ⟨_, hab⟩
    exact tree_eq_of_alike h h' hR hab
  have hmap := List.forall₂_map_left_iff.2 (List.forall₂_map_right_iff.2 hbelow)
  exact List.forall₂_eq_eq_eq ▸ hmap
termination_by d.nodes.size - i.index

/-- The tree below a node depends only on a part of the arena that holds it with all below it. -/
theorem tree_congr {d d' : Document α} (h : d.Ordered) (h' : d'.Ordered) {P : DomId → Prop}
    (hP : ∀ i, P i → d'.kind i = d.kind i ∧ d'.children i = d.children i ∧
      ∀ c ∈ d.children i, P c) {i : DomId} (hi : P i) : d'.tree i = d.tree i := by
  have halike : ∀ i j, P i ∧ i = j →
      d.kind i = d'.kind j ∧ List.Forall₂ (fun a b => P a ∧ a = b) (d.children i)
          (d'.children j) := by
    rintro i j ⟨hi, rfl⟩
    obtain ⟨hkind, hchildren, hbelow⟩ := hP i hi
    refine ⟨hkind.symm, ?_⟩
    rw [hchildren, List.forall₂_same]
    intro c hc
    exact ⟨hbelow c hc, rfl⟩
  exact (tree_eq_of_alike h h' halike ⟨hi, rfl⟩).symm

end Document

end Rivulet
