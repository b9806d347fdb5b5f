import Mathlib.Data.List.Nodup
import Mathlib.Logic.Relation
import Rivulet.Proofs.Scopes.Forest

/-!
# Subtrees

A scope with all below it, walked from the children up. In a forest every walk comes to an end, no
scope is met twice, and two subtrees side by side have nothing in common.

While scopes end, nothing is added to the forest. Each scope that stays keeps its parent, and of
its children those that stay; and in the end no scope is gone without all that was below it.
-/

namespace Rivulet.Scopes

variable {Cleanup Handler : Type} {t t' : Scopes Cleanup Handler} {id x y c d p : ScopeId}
  {s : Scope Cleanup Handler}

/-- A scope that is listed as a child of another one. -/
def Child (t : Scopes Cleanup Handler) (p c : ScopeId) : Prop :=
  ∃ s, t.find? p = some s ∧ c ∈ s.holdings.children

/-- A scope and what is below it. -/
abbrev Below (t : Scopes Cleanup Handler) : ScopeId → ScopeId → Prop :=
  Relation.ReflTransGen t.Child

/-- A scope without one of its children. -/
def Scope.forget (s : Scope Cleanup Handler) (c : ScopeId) : Scope Cleanup Handler :=
  { s with holdings := { s.holdings with children := s.holdings.children.filter (· ≠ c) } }

/-- To forget what is no child changes nothing. -/
theorem Scope.forget_of_not_mem (h : c ∉ s.holdings.children) : s.forget c = s := by
  rw [forget, List.filter_eq_self.2]
  intro x hx
  simp only [ne_eq, decide_eq_true_eq]
  rintro rfl
  exact h hx

namespace Forest

variable (h : t.Forest)
include h

/-- A child is created after its parent. -/
theorem lt_of_child (hc : t.Child p c) : p.index < c.index := by
  obtain ⟨s, hs, hmem⟩ := hc
  exact (h.child hs hmem).1

/-- A child knows its parent. -/
theorem parent_of_child (hc : t.Child p c) : ∃ s, t.find? c = some s ∧ s.parent = some p := by
  obtain ⟨s, hs, hmem⟩ := hc
  exact (h.child hs hmem).2

/-- A scope is the child of one scope only. -/
theorem parent_unique (hc : t.Child p c) (hc' : t.Child x c) : p = x := by
  obtain ⟨s, hs, hp⟩ := h.parent_of_child hc
  obtain ⟨s', hs', hx⟩ := h.parent_of_child hc'
  rw [hs, Option.some.injEq] at hs'
  rw [← hs', hp, Option.some.injEq] at hx
  exact hx

/-- What is below a scope is created after it. -/
theorem le_of_below (hx : t.Below id x) : id.index ≤ x.index := by
  induction hx with
  | refl => exact Nat.le_refl _
  | tail _ hstep ih => exact Nat.le_trans ih (Nat.le_of_lt (h.lt_of_child hstep))

/-- Of two scopes above a scope, one is above the other one. -/
theorem below_or_below (hx : t.Below c x) (hx' : t.Below d x) : t.Below c d ∨ t.Below d c := by
  induction hx with
  | refl => exact .inr hx'
  | tail hy hstep ih =>
    rcases Relation.ReflTransGen.cases_tail hx' with rfl | ⟨y', hy', hstep'⟩
    · exact .inl (hy.tail hstep)
    · obtain rfl := h.parent_unique hstep hstep'
      exact ih hy'

/-- Siblings are not above each other. -/
theorem not_below_sibling (hc : t.Child p c) (hd : t.Child p d) (hne : c ≠ d) :
    ¬ t.Below c d := by
  intro hbelow
  rcases Relation.ReflTransGen.cases_tail hbelow with rfl | ⟨y, hy, hstep⟩
  · exact hne rfl
  · obtain rfl := h.parent_unique hstep hd
    exact absurd (h.lt_of_child hc) (Nat.not_lt.2 (h.le_of_below hy))

/-- The subtrees of siblings have nothing in common. -/
theorem disjoint_siblings (hc : t.Child p c) (hd : t.Child p d) (hne : c ≠ d)
    (hx : t.Below c x) : ¬ t.Below d x := by
  intro hx'
  rcases h.below_or_below hx hx' with hbelow | hbelow
  · exact h.not_below_sibling hc hd hne hbelow
  · exact h.not_below_sibling hd hc hne.symm hbelow

/-- A property of scopes that is passed on from the children. -/
theorem induct {P : ScopeId → Prop} (gone : ∀ id, t.find? id = none → P id)
    (node : ∀ id s, t.find? id = some s → (∀ c ∈ s.holdings.children, P c) → P id)
    (id : ScopeId) : P id := by
  -- Children are younger, and nothing is younger than the last number given.
  induction hn : t.next - id.index using Nat.strongRecOn generalizing id with
  | ind n ih =>
    cases hs : t.find? id with
    | none => exact gone id hs
    | some s =>
      refine node id s hs fun c hc => ih _ ?_ c rfl
      have hlt := (h.child hs hc).1
      have hcreated := h.created hs
      omega

end Forest

section

variable {β : Type} {f : ScopeId → Scope Cleanup Handler → List β → List β}

/-- Walks a subtree from the children up, not deeper than the given bound. What the walk makes of a
scope is made of what it makes of its children, one after the other. -/
def walkUpTo (t : Scopes Cleanup Handler)
    (f : ScopeId → Scope Cleanup Handler → List β → List β) : Nat → ScopeId → List β
  | 0, _ => []
  | n + 1, id =>
    match t.find? id with
    | none => []
    | some s => f id s (s.holdings.children.flatMap (t.walkUpTo f n))

/-- Walks a subtree from the children up. No path down is longer than the last number given. -/
def walk (t : Scopes Cleanup Handler) (f : ScopeId → Scope Cleanup Handler → List β → List β)
    (id : ScopeId) : List β := t.walkUpTo f t.next id

/-- There is nothing to walk below a scope that is gone. -/
theorem walkUpTo_gone (hid : t.find? id = none) (n : Nat) : t.walkUpTo f n id = [] := by
  cases n with
  | zero => rfl
  | succ n => rw [walkUpTo, hid]

/-- A walk visits the children and then the scope. -/
theorem walkUpTo_live (hid : t.find? id = some s) (n : Nat) :
    t.walkUpTo f (n + 1) id = f id s (s.holdings.children.flatMap (t.walkUpTo f n)) := by
  rw [walkUpTo, hid]

/-- A bound that is large enough makes no difference. -/
theorem Forest.walkUpTo_eq (h : t.Forest) {m n : Nat} (hm : t.next ≤ m + id.index)
    (hn : t.next ≤ n + id.index) : t.walkUpTo f m id = t.walkUpTo f n id := by
  induction id using h.induct generalizing m n with
  | gone id hid => rw [walkUpTo_gone hid, walkUpTo_gone hid]
  | node id s hs ih =>
    have hcreated := h.created hs
    obtain ⟨m, rfl⟩ : ∃ k, m = k + 1 := ⟨m - 1, by omega⟩
    obtain ⟨n, rfl⟩ : ∃ k, n = k + 1 := ⟨n - 1, by omega⟩
    rw [walkUpTo_live hs, walkUpTo_live hs]
    congr 1
    refine List.flatMap_congr fun c hc => ?_
    have hlt := (h.child hs hc).1
    exact ih c hc (by omega) (by omega)

/-- There is nothing to walk below a scope that is gone, however deep the walk goes. -/
theorem walk_gone (hid : t.find? id = none) : t.walk f id = [] := walkUpTo_gone hid _

/-- In a forest a walk visits the children and then the scope, however deep the children go. -/
theorem Forest.walk_eq (h : t.Forest) (hs : t.find? id = some s) :
    t.walk f id = f id s (s.holdings.children.flatMap (t.walk f)) := by
  have hcreated := h.created hs
  obtain ⟨n, hn⟩ : ∃ n, t.next = n + 1 := ⟨t.next - 1, by omega⟩
  rw [walk, hn, walkUpTo_live hs]
  congr 1
  refine List.flatMap_congr fun c hc => ?_
  have hlt := (h.child hs hc).1
  exact h.walkUpTo_eq (by omega) (by omega)

end

/-- A scope and all below it, in the order in which they end: the subtrees of the children, in the
order of their creation, and then the scope. -/
def postorder (t : Scopes Cleanup Handler) : ScopeId → List ScopeId :=
  t.walk fun id _ below => below ++ [id]

/-- A scope that is gone has no subtree. -/
theorem postorder_gone (hid : t.find? id = none) : t.postorder id = [] := walk_gone hid

/-- A subtree is listed from the children up. -/
theorem Forest.postorder_eq (h : t.Forest) (hs : t.find? id = some s) :
    t.postorder id = s.holdings.children.flatMap t.postorder ++ [id] := h.walk_eq hs

/-- Exactly the scope and what is below it ends with it. -/
theorem Forest.mem_postorder (h : t.Forest) (hid : t.find? id ≠ none) :
    x ∈ t.postorder id ↔ t.Below id x := by
  induction id using h.induct with
  | gone id hgone => exact absurd hgone hid
  | node id s hs ih =>
    have hlive (c : ScopeId) (hc : c ∈ s.holdings.children) : t.find? c ≠ none := by
      obtain ⟨-, sc, hsc, -⟩ := h.child hs hc
      simp [hsc]
    rw [h.postorder_eq hs, List.mem_append, List.mem_flatMap, List.mem_singleton]
    constructor
    · rintro (⟨c, hc, hx⟩ | rfl)
      · exact .head ⟨s, hs, hc⟩ ((ih c hc (hlive c hc)).1 hx)
      · exact .refl
    · intro hx
      rcases Relation.ReflTransGen.cases_head hx with rfl | ⟨c, ⟨s', hs', hc⟩, hx⟩
      · exact .inr rfl
      · rw [hs, Option.some.injEq] at hs'
        subst hs'
        exact .inl ⟨c, hc, (ih c hc (hlive c hc)).2 hx⟩

/-- No scope ends twice. -/
theorem Forest.nodup_postorder (h : t.Forest) (id : ScopeId) : (t.postorder id).Nodup := by
  induction id using h.induct with
  | gone id hgone => simp [postorder_gone hgone]
  | node id s hs ih =>
    have hlive (c : ScopeId) (hc : c ∈ s.holdings.children) : t.find? c ≠ none := by
      obtain ⟨-, sc, hsc, -⟩ := h.child hs hc
      simp [hsc]
    have hbelow {c x : ScopeId} (hc : c ∈ s.holdings.children) (hx : x ∈ t.postorder c) :
        t.Below c x := (h.mem_postorder (hlive c hc)).1 hx
    rw [h.postorder_eq hs, List.nodup_append]
    refine ⟨List.nodup_flatMap.2 ⟨ih, ?_⟩, List.nodup_singleton id, fun x hx y hy => ?_⟩
    · refine (h.order hs).imp_of_mem fun hc hd hlt x hx hx' => ?_
      refine h.disjoint_siblings ⟨s, hs, hc⟩ ⟨s, hs, hd⟩ ?_ (hbelow hc hx) (hbelow hd hx')
      rintro rfl
      exact Nat.lt_irrefl _ hlt
    · obtain ⟨c, hc, hx⟩ := List.mem_flatMap.1 hx
      obtain rfl := List.mem_singleton.1 hy
      rintro rfl
      have hle := h.le_of_below (hbelow hc hx)
      exact absurd (h.child hs hc).1 (Nat.not_lt.2 hle)

/-! ## Taking scopes away -/

/-- A scope that is taken away is gone, and no other scope loses anything but it as a child. -/
theorem Forest.find?_remove_eq (h : t.Forest) :
    (t.remove id).2.find? x = if x = id then none else (t.find? x).map (·.forget id) := by
  have hsame (hx : ¬ t.Child x id) : (t.find? x).map (·.forget id) = t.find? x := by
    cases hsx : t.find? x with
    | none => rfl
    | some sx => rw [Option.map_some, Scope.forget_of_not_mem fun hmem => hx ⟨sx, hsx, hmem⟩]
  cases hs : t.find? id with
  | none =>
    rw [remove_of_gone hs]
    split
    · rename_i hx
      exact hx ▸ hs
    · refine (hsame fun hchild => ?_).symm
      obtain ⟨s, hs', -⟩ := h.parent_of_child hchild
      simp [hs] at hs'
  | some s =>
    rw [find?_remove hs]
    split
    · rfl
    · split
      · rfl
      · rename_i hparent
        refine (hsame fun hchild => ?_).symm
        obtain ⟨s', hs', hp⟩ := h.parent_of_child hchild
        rw [hs, Option.some.injEq] at hs'
        exact hparent (hs' ▸ hp)

/-- Nobody lists a scope whose parent is gone. -/
theorem Forest.forget_orphan (h : t.Forest) (hs : t.find? c = some s) (hp : s.parent = some p)
    (hgone : t.find? p = none) : (t.find? x).map (·.forget c) = t.find? x := by
  cases hsx : t.find? x with
  | none => rfl
  | some sx =>
    rw [Option.map_some, Scope.forget_of_not_mem]
    intro hmem
    obtain ⟨-, s', hs', hx⟩ := h.child hsx hmem
    rw [hs, Option.some.injEq] at hs'
    rw [← hs', hp, Option.some.injEq] at hx
    rw [hx, hsx] at hgone
    simp at hgone

variable {t'' : Scopes Cleanup Handler}

/-- Behind the end of some scopes. -/
structure Thins (t t' : Scopes Cleanup Handler) : Prop where
  /-- No scope is created. -/
  next : t'.next = t.next
  /-- No scope comes back. -/
  gone : ∀ {x}, t.find? x = none → t'.find? x = none
  /-- What stays keeps its parent, and of its children those that stay. -/
  kept : ∀ {x s'}, t'.find? x = some s' → ∃ s, t.find? x = some s ∧ s'.parent = s.parent ∧
    s'.holdings.children = s.holdings.children.filter fun c => (t'.find? c).isSome

/-- The scopes hang together as before, whatever else has become of them. -/
theorem Forest.thins_of_same (h : t.Forest) (hnext : t'.next = t.next)
    (hmap : ∀ x, Option.Rel (fun s s' => s'.parent = s.parent ∧
      s'.holdings.children = s.holdings.children) (t.find? x) (t'.find? x)) : t.Thins t' := by
  have hlive (x : ScopeId) : (t'.find? x).isSome = (t.find? x).isSome := by
    have hx := hmap x
    cases hs : t.find? x <;> cases hs' : t'.find? x <;> simp [hs, hs'] at hx ⊢
  refine ⟨hnext, fun {x} hx => ?_, fun {x s'} hs' => ?_⟩
  · have hlivex := hlive x
    rw [hx] at hlivex
    simpa using hlivex
  · have hx := hmap x
    rw [hs'] at hx
    cases hs : t.find? x with
    | none => simp [hs] at hx
    | some s =>
      rw [hs] at hx
      obtain ⟨hparent, hchildren⟩ := Option.rel_some_some.1 hx
      refine ⟨s, rfl, hparent, hchildren.trans (List.filter_eq_self.2 fun c hc => ?_).symm⟩
      obtain ⟨-, sc, hsc, -⟩ := h.child hs hc
      rw [hlive, hsc]
      rfl

/-- A forest that stays as it is. -/
theorem Forest.thins_refl (h : t.Forest) : t.Thins t :=
  h.thins_of_same rfl fun x => by cases t.find? x <;> simp

/-- Scopes are lost one after the other. -/
theorem Thins.trans (h : t.Thins t') (h' : t'.Thins t'') : t.Thins t'' where
  next := h'.next.trans h.next
  gone hx := h'.gone (h.gone hx)
  kept hs'' := by
    obtain ⟨s', hs', hparent', hchildren'⟩ := h'.kept hs''
    obtain ⟨s, hs, hparent, hchildren⟩ := h.kept hs'
    refine ⟨s, hs, hparent'.trans hparent, ?_⟩
    rw [hchildren', hchildren, List.filter_filter]
    refine List.filter_congr fun c _ => ?_
    cases hc : t'.find? c with
    | none => simp [h'.gone hc]
    | some sc => simp

/-- A forest that loses scopes stays one. -/
theorem Thins.forest (h : t.Thins t') (ht : t.Forest) : t'.Forest := by
  refine ht.shrink (Nat.le_of_eq h.next.symm) (fun {x s'} hs' => ?_) fun {p s' c} hs' hc _ => ?_
  · obtain ⟨s, hs, hparent, hchildren⟩ := h.kept hs'
    exact ⟨s, hs, hparent, hchildren ▸ List.filter_sublist⟩
  · obtain ⟨s, hs, hparent, hchildren⟩ := h.kept hs'
    rw [hchildren] at hc
    exact Option.isSome_iff_ne_none.1 (List.mem_filter.1 hc).2

/-- A forest loses one scope. -/
theorem Forest.thins_remove (h : t.Forest) (id : ScopeId) : t.Thins (t.remove id).2 := by
  refine ⟨next_remove, fun {x} hx => ?_, fun {x s'} hs' => ?_⟩
  · rw [h.find?_remove_eq, hx]
    simp
  · rw [h.find?_remove_eq] at hs'
    split at hs'
    · cases hs'
    · obtain ⟨s, hs, rfl⟩ := Option.map_eq_some_iff.1 hs'
      refine ⟨s, hs, rfl, List.filter_congr fun c hc => ?_⟩
      obtain ⟨-, sc, hsc, -⟩ := h.child hs hc
      rw [h.find?_remove_eq, hsc]
      by_cases hcid : c = id <;> simp [hcid]

/-- The forest does not depend on which scopes are current. -/
theorem Forest.of_live (h : t.Forest) (hlive : t'.live = t.live) (hnext : t'.next = t.next) :
    t'.Forest :=
  h.same hnext fun x => by
    rw [find?, find?, hlive]
    cases t.live[x]? <;> simp

/-- What goes does so with all below it. -/
def Culls (t t' : Scopes Cleanup Handler) : Prop :=
  ∀ ⦃y x⦄, t.find? y ≠ none → t'.find? y = none → t.Below y x → t'.find? x = none

/-- Where no scope is lost, none is lost alone. -/
theorem culls_of_live (hlive : ∀ x, t'.find? x = none → t.find? x = none) : t.Culls t' :=
  fun _ _ hy hgone _ => absurd (hlive _ hgone) hy

/-- A path either stays or leads to a scope that goes. -/
theorem Culls.below (hcull : t.Culls t') (ht : t.Forest) (hthin : t.Thins t') (hx : t.Below y x)
    (hy : t'.find? y ≠ none) : t'.find? x = none ∨ t'.Below y x := by
  induction hx using Relation.ReflTransGen.head_induction_on with
  | refl => exact .inr .refl
  | head hstep hrest ih =>
    rename_i y c
    by_cases hc : t'.find? c = none
    · obtain ⟨sc, hsc, -⟩ := ht.parent_of_child hstep
      exact .inl (hcull (by simp [hsc]) hc hrest)
    · refine (ih hc).imp id fun hbelow => .head ?_ hbelow
      obtain ⟨s', hs'⟩ := Option.ne_none_iff_exists'.1 hy
      obtain ⟨s, hs, -, hchildren⟩ := hthin.kept hs'
      obtain ⟨s₀, hs₀, hmem⟩ := hstep
      rw [hs, Option.some.injEq] at hs₀
      refine ⟨s', hs', hchildren ▸ List.mem_filter.2 ⟨hs₀ ▸ hmem, ?_⟩⟩
      exact Option.isSome_iff_ne_none.2 hc

/-- Subtrees are lost one after the other. -/
theorem Culls.trans (h : t.Culls t') (h' : t'.Culls t'') (ht : t.Forest) (hthin : t.Thins t')
    (hthin' : t'.Thins t'') : t.Culls t'' := by
  intro y x hy hgone hx
  by_cases hy' : t'.find? y = none
  · exact hthin'.gone (h hy hy' hx)
  · rcases h.below ht hthin hx hy' with hx' | hx'
    · exact hthin'.gone hx'
    · exact h' hy' hgone hx'

/-- A path that does not lead through the scope that is taken away stays. -/
theorem Forest.below_remove (h : t.Forest) (id : ScopeId) (hx : t.Below y x) :
    t.Below y id ∧ t.Below id x ∨ (t.remove id).2.Below y x := by
  induction hx using Relation.ReflTransGen.head_induction_on with
  | refl => exact .inr .refl
  | head hstep hrest ih =>
    rename_i y c
    rcases ih with ⟨hid, hx⟩ | hx
    · exact .inl ⟨.head hstep hid, hx⟩
    · by_cases hy : y = id
      · subst hy
        exact .inl ⟨.refl, .head hstep hrest⟩
      · by_cases hc : c = id
        · subst hc
          exact .inl ⟨.single hstep, hrest⟩
        · obtain ⟨s, hs, hmem⟩ := hstep
          refine .inr (.head ⟨s.forget id, ?_, ?_⟩ hx)
          · rw [h.find?_remove_eq, if_neg hy, hs]
            rfl
          · exact List.mem_filter.2 ⟨hmem, decide_eq_true hc⟩

/-- Behind the end of a scope whose children have ended with it. -/
theorem Culls.of_remove {s : Scope Cleanup Handler} (h : (t.remove id).2.Culls t')
    (ht : t.Forest) (hs : t.find? id = some s) (hthin : (t.remove id).2.Thins t')
    (hchildren : ∀ c ∈ s.holdings.children, t'.find? c = none) : t.Culls t' := by
  have hself : (t.remove id).2.find? id = none := by rw [ht.find?_remove_eq, if_pos rfl]
  have hother {c : ScopeId} (hne : c ≠ id) (hc : t.find? c ≠ none) :
      (t.remove id).2.find? c ≠ none := by
    rw [ht.find?_remove_eq, if_neg hne]
    simpa using hc
  have hbelow {x : ScopeId} (hx : t.Below id x) : t'.find? x = none := by
    rcases Relation.ReflTransGen.cases_head hx with rfl | ⟨c, hstep, hx⟩
    · exact hthin.gone hself
    · have hlt := ht.lt_of_child hstep
      obtain ⟨sc, hsc, -⟩ := ht.parent_of_child hstep
      obtain ⟨s₀, hs₀, hmem⟩ := hstep
      rw [hs, Option.some.injEq] at hs₀
      have hne : c ≠ id := by
        rintro rfl
        exact Nat.lt_irrefl _ hlt
      rcases ht.below_remove id hx with ⟨hup, -⟩ | hx'
      · exact absurd (ht.le_of_below hup) (Nat.not_le.2 hlt)
      · exact h (hother hne (by simp [hsc])) (hchildren c (hs₀ ▸ hmem)) hx'
  intro y x hy hgone hx
  rcases ht.below_remove id hx with ⟨-, hx'⟩ | hx'
  · exact hbelow hx'
  · by_cases hyid : y = id
    · exact hbelow (hyid ▸ hx)
    · exact h (hother hyid hy) hgone hx'

end Rivulet.Scopes
