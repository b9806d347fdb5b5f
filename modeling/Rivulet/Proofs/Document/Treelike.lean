import Mathlib.Logic.Relation
import Rivulet.Proofs.Markup.Bare

/-!
# Documents as trees

However a document came about, its nodes form trees as long as nothing was put below itself: a
child may be older than its parent. What is done below some of the children of a node then stays
away from everything else.
-/

namespace Rivulet.Document

open Markup

variable {α : Type}

/-- A document whose nodes form trees. -/
structure Treelike (d : Document α) : Prop where
  /-- The children of a node are the nodes that it is the parent of. -/
  child : ∀ p c, c ∈ d.children p ↔ d.parent? c = some p
  /-- No node stands twice under its parent. -/
  nodup : ∀ p, (d.children p).Nodup
  /-- Children are in the arena. -/
  holds : ∀ p c, c ∈ d.children p → c.index < d.nodes.size
  /-- No node stands below itself. -/
  grounded : ∃ rank : DomId → Nat, ∀ p c, c ∈ d.children p → rank p < rank c

/-- In a new document there is nothing but the root. -/
theorem Treelike.empty : ({} : Document α).Treelike := by
  have hchildren (p : DomId) : ({} : Document α).children p = [] := by
    rw [Document.children, entry]
    rcases p with ⟨_ | n⟩ <;> simp [rootEntry]
  have hparent (c : DomId) : ({} : Document α).parent? c = none := by
    rw [Document.parent?, entry]
    rcases c with ⟨_ | n⟩ <;> simp [rootEntry]
  constructor
  case grounded => exact ⟨DomId.index, by simp [hchildren]⟩
  all_goals simp [hchildren, hparent]

/-- A node stands below another one, or is that one. -/
def Below (d : Document α) : DomId → DomId → Prop :=
  Relation.ReflTransGen fun c p => d.parent? c = some p

theorem Below.refl (d : Document α) (j : DomId) : d.Below j j := Relation.ReflTransGen.refl

/-- What is below the parent of a node is below of what the node is below. -/
theorem Below.head {d : Document α} {j q a : DomId} (hj : d.parent? j = some q)
    (h : d.Below q a) : d.Below j a := Relation.ReflTransGen.head hj h

/-- What stands below a node is that node, or has a parent that stands below it. -/
theorem Below.up {d : Document α} {j a : DomId} (hb : d.Below j a) :
    j = a ∨ ∃ q, d.parent? j = some q ∧ d.Below q a := by
  rcases Relation.ReflTransGen.cases_head hb with rfl | ⟨q, hq, hbelow⟩
  · exact Or.inl rfl
  · exact Or.inr ⟨q, hq, hbelow⟩

/-- Only nodes of the arena have children. -/
theorem lt_size_of_child {d : Document α} {p c : DomId} (hc : c ∈ d.children p) :
    p.index < d.nodes.size := by
  by_contra hle
  rw [children_of_size_le (Nat.not_lt.1 hle)] at hc
  exact List.not_mem_nil hc

namespace Treelike

variable {d : Document α} {p a b c j : DomId}

private theorem rank_le {rank : DomId → Nat} (h : d.Treelike)
    (hrank : ∀ p c, c ∈ d.children p → rank p < rank c) (hb : d.Below j a) : rank a ≤ rank j := by
  induction hb with
  | refl => exact Nat.le_refl _
  | tail _ hstep ih => exact Nat.le_trans (Nat.le_of_lt (hrank _ _ ((h.child _ _).2 hstep))) ih

/-- What a node of the arena stands below is in the arena. -/
theorem lt_size_of_below (h : d.Treelike) (hj : j.index < d.nodes.size) (hb : d.Below j a) :
    a.index < d.nodes.size := by
  induction hb with
  | refl => exact hj
  | tail _ hstep _ => exact lt_size_of_child ((h.child _ _).2 hstep)

/-- A node does not stand below its children. -/
theorem not_below_child (h : d.Treelike) (hc : c ∈ d.children p) : ¬d.Below p c := by
  intro hb
  obtain ⟨rank, hrank⟩ := h.grounded
  exact absurd (h.rank_le hrank hb) (Nat.not_le.2 (hrank p c hc))

/-- A node is no child of itself. -/
theorem ne_child (h : d.Treelike) (hc : c ∈ d.children p) : p ≠ c := by
  rintro rfl
  exact h.not_below_child hc (.refl d p)

/-- Nothing stands below two children of a node. -/
theorem eq_of_below (h : d.Treelike) (ha : a ∈ d.children p) (hb : b ∈ d.children p)
    (hja : d.Below j a) (hjb : d.Below j b) : a = b := by
  have hunique : Relator.RightUnique fun c q : DomId => d.parent? c = some q := by
    intro c q q' hq hq'
    exact Option.some.inj (hq.symm.trans hq')
  have hside {x y : DomId} (hx : x ∈ d.children p) (hy : y ∈ d.children p) (hxy : d.Below x y) :
      x = y := by
    rcases hxy.up with rfl | ⟨q, hq, hqy⟩
    · rfl
    · rw [(h.child p x).1 hx, Option.some.injEq] at hq
      exact absurd (hq ▸ hqy) (h.not_below_child hy)
  rcases Relation.ReflTransGen.total_of_right_unique hunique hja hjb with hab | hba
  · exact hside ha hb hab
  · exact (hside hb ha hba).symm

/-- A node that was just put under a parent is none of its older children. -/
theorem not_mem_of_parent (h : d.Treelike) (hc : d.parent? c = none) : ∀ p, c ∉ d.children p := by
  intro p hmem
  rw [h.child, hc] at hmem
  exact absurd hmem (by simp)

end Treelike

section Detaching

variable (d : Document α) (id j : DomId)

private theorem kind_detach : (d.detach id).kind j = d.kind j := by
  rw [detach]
  split
  · rfl
  · rw [kind, entry_modify, entry_modify, kind]
    split <;> split <;> rfl

/-- Detaching a node leaves it in the arena. -/
theorem size_detach : (d.detach id).nodes.size = d.nodes.size := by
  rw [detach]
  split
  · rfl
  · rw [size_modify, size_modify]

/-- A node that is taken out is no child any more. -/
theorem children_detach : (d.detach id).children j =
    if d.parent? id = some j then (d.children j).filter (· ≠ id) else d.children j := by
  rw [detach]
  split
  · rename_i hnone
    rw [if_neg (by simp [hnone])]
  · rename_i p hp
    rw [hp, children, entry_modify, entry_modify]
    by_cases hj : p = j
    · subst hj
      rw [if_pos rfl]
      by_cases hs : p.index < d.nodes.size
      · rw [if_pos ⟨rfl, by rwa [size_modify]⟩]
        split <;> rfl
      · rw [if_neg (by simp [hs]), children_of_size_le (Nat.not_lt.1 hs), List.filter_nil]
        split
        · exact children_of_size_le (Nat.not_lt.1 hs)
        · exact children_of_size_le (Nat.not_lt.1 hs)
    · have hne : ¬(j = p ∧ p.index < (d.modify id fun e => { e with parent := none }).nodes.size) :=
        fun h => hj h.1.symm
      have hsome : ¬some p = some j := fun h => hj (Option.some.inj h)
      rw [if_neg hne, if_neg hsome]
      split <;> rfl

/-- A node that is taken out has no parent any more. -/
theorem parent?_detach : (d.detach id).parent? j = if j = id then none else d.parent? j := by
  rw [detach]
  split
  · rename_i hnone
    split
    · rename_i hj
      rw [hj, hnone]
    · rfl
  · rename_i p hp
    have hs : id.index < d.nodes.size := by
      by_contra hle
      rw [parent?_of_size_le (Nat.not_lt.1 hle)] at hp
      cases hp
    rw [parent?, entry_modify, entry_modify]
    by_cases hj : j = id
    · rw [if_pos hj]
      subst hj
      split <;> simp [hs]
    · rw [if_neg hj]
      split <;> simp [hj, parent?]

end Detaching

section Listeners

/-- Dropping the listeners of nodes changes nothing else. -/
theorem dropListeners_same (ids : List DomId) (d : Document α) (j : DomId) :
    let d' := ids.foldl (fun d n => d.modify n fun e => { e with listeners := [] }) d
    d'.kind j = d.kind j ∧ d'.children j = d.children j ∧ d'.parent? j = d.parent? j ∧
      d'.nodes.size = d.nodes.size := by
  induction ids generalizing d with
  | nil => exact ⟨rfl, rfl, rfl, rfl⟩
  | cons n ids ih =>
    obtain ⟨hkind, hchildren, hparent, hsize⟩ := ih (d.modify n fun e => { e with listeners := [] })
    refine ⟨hkind.trans ?_, hchildren.trans ?_, hparent.trans ?_, hsize.trans (size_modify _ _ _)⟩
    · rw [kind, entry_modify, kind]
      split <;> rfl
    · rw [children, entry_modify, children]
      split <;> rfl
    · rw [parent?, entry_modify, parent?]
      split <;> rfl

variable (d : Document α) (id j : DomId)

/-- Removing a node changes no kind. -/
theorem kind_remove : (d.remove id).kind j = d.kind j :=
  (dropListeners_same _ _ j).1.trans (kind_detach d id j)

/-- Removing a node leaves it in the arena. -/
theorem size_remove : (d.remove id).nodes.size = d.nodes.size :=
  (dropListeners_same _ _ id).2.2.2.trans (size_detach d id)

/-- A node that was removed is no child of its parent, and all else stays. -/
theorem children_remove : (d.remove id).children j =
    if d.parent? id = some j then (d.children j).filter (· ≠ id) else d.children j :=
  (dropListeners_same _ _ j).2.1.trans (children_detach d id j)

/-- A node that was removed has no parent, and all others keep theirs. -/
theorem parent?_remove : (d.remove id).parent? j = if j = id then none else d.parent? j :=
  (dropListeners_same _ _ j).2.2.1.trans (parent?_detach d id j)

end Listeners

namespace Treelike

variable {d : Document α} {p c j : DomId}

/-- A new node is above and below of nothing. -/
theorem create (h : d.Treelike) (kind : Kind) : (d.create kind).2.Treelike where
  child p c := by
    rw [children_create, parent?_create]
    exact h.child p c
  nodup p := by
    rw [children_create]
    exact h.nodup p
  holds p c hc := by
    rw [children_create] at hc
    rw [size_create]
    exact Nat.lt_succ_of_lt (h.holds p c hc)
  grounded := by
    obtain ⟨rank, hrank⟩ := h.grounded
    refine ⟨rank, fun p c hc => hrank p c ?_⟩
    rwa [children_create] at hc

/-- A node that stands alone may be put under any node that does not stand below it. -/
theorem insertBefore (h : d.Treelike) (anchor : Option DomId) (hc : d.parent? c = none)
    (hp : p.index < d.nodes.size) (hs : c.index < d.nodes.size) (hout : ¬d.Below p c) :
    (d.insertBefore p c anchor).Treelike := by
  have hne : p ≠ c := by
    rintro rfl
    exact hout (.refl d p)
  have hnew := h.not_mem_of_parent hc
  have hchildren := children_insertBefore anchor hc hp hne
  constructor
  · intro q j
    rw [hchildren]
    by_cases hj : j = c
    · subst hj
      rw [parent?_insertBefore_self anchor hc hs]
      by_cases hq : q = p
      · simp [hq, mem_insertIn]
      · simp [hq, hnew, Ne.symm hq]
    · rw [parent?_insertBefore anchor hc hj, ← h.child]
      by_cases hq : q = p
      · rw [if_pos hq, mem_insertIn, hq]
        exact or_iff_right hj
      · rw [if_neg hq]
  · intro q
    rw [hchildren]
    split
    · exact nodup_insertIn (h.nodup p) (hnew p) anchor
    · exact h.nodup q
  · intro q j hj
    rw [size_insertBefore anchor hc]
    rw [hchildren] at hj
    split at hj
    · rcases mem_insertIn.1 hj with rfl | hj
      · exact hs
      · exact h.holds p j hj
    · exact h.holds q j hj
  · obtain ⟨rank, hrank⟩ := h.grounded
    -- All that stands below the node goes deeper by as much as the new parent is deep.
    classical
    refine ⟨fun j => if d.Below j c then rank j + rank p + 1 else rank j, fun q j hj => ?_⟩
    have hold : q = p ∧ j = c ∨ j ∈ d.children q := by
      rw [hchildren] at hj
      split at hj
      · rename_i hq
        rw [hq]
        exact (mem_insertIn.1 hj).imp (fun hj => ⟨rfl, hj⟩) id
      · exact Or.inr hj
    rcases hold with ⟨rfl, rfl⟩ | hmem
    · simp only [if_neg hout, if_pos (Below.refl d j)]
      omega
    · have hlt := hrank q j hmem
      have hqj := (h.child q j).1 hmem
      by_cases hb : d.Below j c
      · rcases hb.up with rfl | ⟨q', hq', hb'⟩
        · exact absurd hmem (hnew q)
        · rw [hqj, Option.some.injEq] at hq'
          subst hq'
          simp only [if_pos hb, if_pos hb']
          omega
      · have hbq : ¬d.Below q c := fun hb' => hb (.head hqj hb')
        simp only [if_neg hb, if_neg hbq]
        exact hlt

/-- Removing a node leaves a tree. -/
theorem remove (h : d.Treelike) (id : DomId) : (d.remove id).Treelike := by
  have hsub {q j : DomId} (hj : j ∈ (d.remove id).children q) : j ∈ d.children q := by
    rw [children_remove] at hj
    split at hj
    · exact List.mem_of_mem_filter hj
    · exact hj
  constructor
  · intro q j
    rw [children_remove, parent?_remove]
    by_cases hj : j = id
    · subst hj
      by_cases hq : d.parent? j = some q
      · simp [hq]
      · simp [hq, h.child]
    · rw [if_neg hj]
      split
      · simp [hj, h.child]
      · exact h.child q j
  · intro q
    rw [children_remove]
    split
    · exact (h.nodup q).filter _
    · exact h.nodup q
  · intro q j hj
    rw [size_remove]
    exact h.holds q j (hsub hj)
  · obtain ⟨rank, hrank⟩ := h.grounded
    exact ⟨rank, fun q j hj => hrank q j (hsub hj)⟩

/-- What only changes kinds keeps the trees. -/
theorem congr {d' : Document α} (h : d.Treelike) (hsize : d'.nodes.size = d.nodes.size)
    (hchildren : ∀ j, d'.children j = d.children j) (hparent : ∀ j, d'.parent? j = d.parent? j) :
    d'.Treelike where
  child p c := by rw [hchildren, hparent, h.child]
  nodup p := by rw [hchildren]; exact h.nodup p
  holds p c hc := by
    rw [hchildren] at hc
    rw [hsize]
    exact h.holds p c hc
  grounded := by
    obtain ⟨rank, hrank⟩ := h.grounded
    refine ⟨rank, fun p c hc => hrank p c ?_⟩
    rwa [hchildren] at hc

end Treelike

/-! ## What is done below some children of a node -/

/-- A document in which only the children of one node have changed, and what stood below some of
those children. Old nodes keep their parent or lose it. -/
structure Regrown (d d' : Document α) (p : DomId) (used : List DomId) : Prop where
  /-- No node got lost. -/
  size : d.nodes.size ≤ d'.nodes.size
  /-- The nodes still form trees. -/
  treelike : d'.Treelike
  /-- Old nodes have the parent that they had, or none. -/
  parent : ∀ j, j.index < d.nodes.size → d'.parent? j = d.parent? j ∨ d'.parent? j = none
  /-- Old nodes elsewhere have the children that they had. -/
  children : ∀ j, j.index < d.nodes.size → j ≠ p → (∀ a ∈ used, ¬d.Below j a) →
    d'.children j = d.children j

namespace Regrown

variable {d d₁ d' : Document α} {p x j a : DomId} {used more inside : List DomId}

theorem refl (h : d.Treelike) (p : DomId) (used : List DomId) : d.Regrown d p used where
  size := Nat.le_refl _
  treelike := h
  parent _ _ := Or.inl rfl
  children _ _ _ _ := rfl

/-- What an old node stands below is old, and stood above it before. -/
theorem below (h : d.Regrown d' p used) (hd : d.Treelike) (hj : j.index < d.nodes.size)
    (hb : d'.Below j a) : a.index < d.nodes.size ∧ d.Below j a := by
  induction hb using Relation.ReflTransGen.head_induction_on with
  | refl => exact ⟨hj, .refl d a⟩
  | @head j q hstep _ ih =>
    rcases h.parent j hj with hsame | hnone
    · have hq : d.parent? j = some q := hsame ▸ hstep
      obtain ⟨ha, hqa⟩ := ih (lt_size_of_child ((hd.child q j).2 hq))
      exact ⟨ha, .head hq hqa⟩
    · rw [hnone] at hstep
      cases hstep

/-- One change behind another one. -/
theorem trans (h : d.Regrown d₁ p used) (hd : d.Treelike) (h' : d₁.Regrown d' p more) :
    d.Regrown d' p (used ++ more) where
  size := Nat.le_trans h.size h'.size
  treelike := h'.treelike
  parent j hj := by
    rcases h'.parent j (Nat.lt_of_lt_of_le hj h.size) with hsame | hnone
    · rw [hsame]
      exact h.parent j hj
    · exact Or.inr hnone
  children j hj hjp hout := by
    rw [h'.children j (Nat.lt_of_lt_of_le hj h.size) hjp fun a ha hb =>
        hout a (List.mem_append_right _ ha) (h.below hd hj hb).2]
    exact h.children j hj hjp fun a ha => hout a (List.mem_append_left _ ha)

/-- A change further down, below a new node or below one of those that may change. -/
theorem nest (h : d.Regrown d₁ p used) (hd : d.Treelike)
    (hx : d.nodes.size ≤ x.index ∨ x ∈ used) (h' : d₁.Regrown d' x inside)
    (hinside : ∀ a ∈ inside, a ∈ d₁.children x) : d.Regrown d' p used where
  size := Nat.le_trans h.size h'.size
  treelike := h'.treelike
  parent j hj := by
    rcases h'.parent j (Nat.lt_of_lt_of_le hj h.size) with hsame | hnone
    · rw [hsame]
      exact h.parent j hj
    · exact Or.inr hnone
  children j hj hjp hout := by
    have hnot : ¬d₁.Below j x := by
      intro hb
      obtain ⟨hlt, hb'⟩ := h.below hd hj hb
      rcases hx with hnew | hmem
      · exact absurd hlt (Nat.not_lt.2 hnew)
      · exact hout x hmem hb'
    have hjx : j ≠ x := by
      rintro rfl
      exact hnot (.refl d₁ j)
    rw [h'.children j (Nat.lt_of_lt_of_le hj h.size) hjx fun a ha hb => hnot ?_]
    · exact h.children j hj hjp hout
    · exact Relation.ReflTransGen.tail hb ((h.treelike.child x a).1 (hinside a ha))

/-- More may be said to change; new nodes need not be named. -/
theorem mono (h : d.Regrown d' p used) (hd : d.Treelike)
    (hsub : ∀ a ∈ used, a.index < d.nodes.size → a ∈ more) : d.Regrown d' p more where
  size := h.size
  treelike := h.treelike
  parent := h.parent
  children j hj hjp hout := h.children j hj hjp fun a ha hb =>
    hout a (hsub a ha (hd.lt_size_of_below hj hb)) hb

/-- Nothing changes below the other children of the node. -/
theorem children_apart (h : d.Regrown d' p used) (hd : d.Treelike)
    (hused : ∀ a ∈ used, a ∈ d.children p) (hx : x ∈ d.children p) (hout : x ∉ used)
    (hj : d.Below j x) (hlt : j.index < d.nodes.size) : d'.children j = d.children j := by
  apply h.children j hlt
  · rintro rfl
    exact hd.not_below_child hx hj
  · intro a ha hb
    exact hout (hd.eq_of_below hx (hused a ha) hj hb ▸ ha)

/-- The children of the parent of the node stay what they are. -/
theorem children_parent (h : d.Regrown d' x inside) (hd : d.Treelike) (hx : x ∈ d.children p)
    (hinside : ∀ a ∈ inside, a ∈ d.children x) : d'.children p = d.children p := by
  apply h.children p (lt_size_of_child hx) (hd.ne_child hx)
  intro a ha hb
  exact hd.not_below_child hx
    (Relation.ReflTransGen.tail hb ((hd.child x a).1 (hinside a ha)))

end Regrown

/-- A document in which only the children of one node have changed, and what stood below some of
those children, and in which old nodes are of the bare kind that they were of. -/
structure Redrawn (d d' : Document α) (p : DomId) (used : List DomId) : Prop
    extends d.Regrown d' p used where
  /-- Old nodes are of the bare kind that they were of. -/
  bare : ∀ j, j.index < d.nodes.size → (d'.kind j).bare = (d.kind j).bare

namespace Redrawn

variable {d d₁ d' : Document α} {p x : DomId} {used more inside : List DomId}

theorem refl (h : d.Treelike) (p : DomId) (used : List DomId) : d.Redrawn d p used where
  toRegrown := .refl h p used
  bare _ _ := rfl

/-- One change behind another one. -/
theorem trans (h : d.Redrawn d₁ p used) (hd : d.Treelike) (h' : d₁.Redrawn d' p more) :
    d.Redrawn d' p (used ++ more) where
  toRegrown := h.toRegrown.trans hd h'.toRegrown
  bare j hj := (h'.bare j (Nat.lt_of_lt_of_le hj h.size)).trans (h.bare j hj)

/-- A change further down, below a new node or below one of those that may change. -/
theorem nest (h : d.Redrawn d₁ p used) (hd : d.Treelike)
    (hx : d.nodes.size ≤ x.index ∨ x ∈ used) (h' : d₁.Redrawn d' x inside)
    (hinside : ∀ a ∈ inside, a ∈ d₁.children x) : d.Redrawn d' p used where
  toRegrown := h.toRegrown.nest hd hx h'.toRegrown hinside
  bare j hj := (h'.bare j (Nat.lt_of_lt_of_le hj h.size)).trans (h.bare j hj)

/-- More may be said to change. -/
theorem mono (h : d.Redrawn d' p used) (hd : d.Treelike) (hsub : ∀ a ∈ used, a ∈ more) :
    d.Redrawn d' p more where
  toRegrown := h.toRegrown.mono hd fun a ha _ => hsub a ha
  bare := h.bare

end Redrawn

/-- A document in which nothing has changed but what does not show in bare kinds. -/
structure Tinted (d d' : Document α) : Prop where
  /-- There are as many nodes. -/
  size : d'.nodes.size = d.nodes.size
  /-- Each has the children that it had. -/
  children : ∀ j, d'.children j = d.children j
  /-- Each has the parent that it had. -/
  parent : ∀ j, d'.parent? j = d.parent? j
  /-- Each is of the bare kind that it was of. -/
  bare : ∀ j, (d'.kind j).bare = (d.kind j).bare

namespace Tinted

variable {d d₁ d' : Document α}

theorem refl (d : Document α) : d.Tinted d := ⟨rfl, fun _ => rfl, fun _ => rfl, fun _ => rfl⟩

theorem trans (h : d.Tinted d₁) (h' : d₁.Tinted d') : d.Tinted d' :=
  ⟨h'.size.trans h.size, fun j => (h'.children j).trans (h.children j),
    fun j => (h'.parent j).trans (h.parent j), fun j => (h'.bare j).trans (h.bare j)⟩

/-- A change that does not show is as good as none. -/
theorem redrawn (h : d.Tinted d') (hd : d.Treelike) (p : DomId) : d.Redrawn d' p [] :=
  ⟨⟨h.size.ge, hd.congr h.size h.children h.parent, fun j _ => Or.inl (h.parent j),
    fun j _ _ _ => h.children j⟩, fun j _ => h.bare j⟩

end Tinted

/-- A change of a node that leaves its bare kind. -/
theorem tinted_modifyKind (d : Document α) (id : DomId) {f : Kind → Kind}
    (hbare : (f (d.kind id)).bare = (d.kind id).bare) : d.Tinted (d.modifyKind id f) := by
  refine ⟨size_modify _ _ _, fun j => ?_, fun j => ?_, fun j => ?_⟩
  · rw [children, modifyKind, entry_modify, children]
    split <;> rfl
  · rw [parent?, modifyKind, entry_modify, parent?]
    split <;> rfl
  · rw [kind, modifyKind, entry_modify]
    split
    · rename_i hj
      rw [hj.1]
      exact hbare
    · rfl

/-- Another content of a text. -/
theorem tinted_setText (d : Document α) (id : DomId) (content : String) :
    d.Tinted (d.setText id content) := tinted_modifyKind d id (Kind.bare_setText content _)

/-- Another value of an attribute that is no key. -/
theorem tinted_setAttr (d : Document α) (id : DomId) {name : String} (h : name ≠ keyAttribute)
    (value : String) : d.Tinted (d.setAttr id name value) :=
  tinted_modifyKind d id (Kind.bare_put h value _)

/-- The loss of an attribute that is no key. -/
theorem tinted_removeAttr (d : Document α) (id : DomId) {name : String} (h : name ≠ keyAttribute) :
    d.Tinted (d.removeAttr id name) := tinted_modifyKind d id (Kind.bare_drop h _)

/-- Attributes do not show on a node that was rendered here, be it the key. -/
theorem tinted_setAttrs {d : Document α} {id : DomId} (h : (d.kind id).isForeign = false)
    (attrs : List (String × String)) : d.Tinted (d.setAttrs id attrs) := by
  induction attrs generalizing d with
  | nil => exact .refl d
  | cons a attrs ih =>
    have hfirst : d.Tinted (d.setAttr id a.1 a.2) :=
      tinted_modifyKind d id (Kind.bare_put_of_own h a.1 a.2)
    refine hfirst.trans (ih ?_)
    rw [← Kind.isForeign_bare, hfirst.bare, Kind.isForeign_bare, h]

end Rivulet.Document
