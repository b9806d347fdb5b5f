import Rivulet.Scopes
import Mathlib.Data.List.Basic

/-!
# The forest of scopes

What the operations on scopes do to each live scope, and what the forest looks like behind any of
them: a scope that is listed as a child is live and has that parent, children were created behind
their parents, and they are listed in the order of their creation.
-/

namespace Rivulet.Scopes

variable {Cleanup Handler : Type} {t t' : Scopes Cleanup Handler} {id x : ScopeId}

/-- A live scope. -/
def find? (t : Scopes Cleanup Handler) (id : ScopeId) : Option (Scope Cleanup Handler) :=
  t.live[id]?

/-- A scope is there if it is found. -/
theorem contains_eq : t.live.contains id = (t.find? id).isSome := by simp [find?]

/-- What is found when a scope was changed. -/
theorem find?_modify (f : Scope Cleanup Handler → Scope Cleanup Handler) :
    (t.modify id f).find? x = if x = id then (t.find? x).map f else t.find? x := by
  simp only [find?, modify, Std.HashMap.getElem?_modify, beq_iff_eq]
  by_cases h : id = x
  · subst h
    simp
  · rw [if_neg h, if_neg (Ne.symm h)]

/-- What is found when the holdings of a scope were changed. -/
theorem find?_modifyHoldings (f : Holdings Cleanup → Holdings Cleanup) :
    (t.modifyHoldings id f).find? x =
      if x = id then (t.find? x).map fun s => { s with holdings := f s.holdings }
      else t.find? x :=
  find?_modify _

/-- The scope that a new scope is put under. -/
def parentFor (t : Scopes Cleanup Handler) (parent : Option ScopeId) : Option ScopeId :=
  parent.filter t.live.contains

/-- What is found when a scope was created: it has its parent, and the parent has a child more. -/
theorem find?_create (parent : Option ScopeId) :
    (t.create parent).2.find? x =
      if x = ⟨t.next⟩ then some { parent := t.parentFor parent }
      else if t.parentFor parent = some x then
        (t.find? x).map fun s =>
          { s with holdings := { s.holdings with children := s.holdings.children ++ [⟨t.next⟩] } }
      else t.find? x := by
  have hinsert (m : Std.HashMap ScopeId (Scope Cleanup Handler)) (s : Scope Cleanup Handler) :
      (m.insert ⟨t.next⟩ s)[x]? = if x = ⟨t.next⟩ then some s else m[x]? := by
    rw [Std.HashMap.getElem?_insert]
    by_cases h : x = ⟨t.next⟩
    · simp [h]
    · rw [if_neg h, if_neg (by simpa using Ne.symm h)]
  cases hp : t.parentFor parent with
  | none =>
    simp only [parentFor] at hp
    simp only [create, hp, find?, hinsert]
    simp
  | some p =>
    simp only [parentFor] at hp
    simp only [create, hp, find?, hinsert]
    by_cases h : x = ⟨t.next⟩
    · simp [h]
    · rw [if_neg h, if_neg h]
      have hgains : (t.modifyHoldings p fun h =>
          { h with children := h.children ++ [⟨t.next⟩] }).find? x = _ := find?_modifyHoldings _
      rw [find?] at hgains
      rw [hgains]
      by_cases hx : x = p
      · simp [hx, find?]
      · simp [hx, Ne.symm hx, find?]

/-- What is found when a scope was removed: its parent has a child less. -/
theorem find?_remove {s : Scope Cleanup Handler} (h : t.find? id = some s) :
    (t.remove id).2.find? x =
      if x = id then none
      else if s.parent = some x then
        (t.find? x).map fun s => { s with
          holdings := { s.holdings with children := s.holdings.children.filter (· ≠ id) } }
      else t.find? x := by
  rw [find?] at h
  have herase : (t.live.erase id)[x]? = if x = id then none else t.live[x]? := by
    rw [Std.HashMap.getElem?_erase]
    by_cases h : x = id
    · simp [h]
    · rw [if_neg h, if_neg (by simpa using Ne.symm h)]
  rw [remove, h]
  simp only
  cases hp : s.parent with
  | none =>
    simp only [find?, herase]
    simp
  | some p =>
    simp only
    rw [find?_modifyHoldings]
    simp only [find?, herase, Option.some.injEq]
    by_cases hx : x = id
    · subst hx
      by_cases hxp : x = p <;> simp [hxp]
    · by_cases hxp : x = p
      · subst hxp
        simp [hx]
      · simp [hxp, hx, Ne.symm hxp]

/-- Creating a scope uses up one number. -/
theorem next_create (parent : Option ScopeId) : (t.create parent).2.next = t.next + 1 := by
  simp only [create]
  split <;> rfl

/-- Removing a scope uses up no number. -/
theorem next_remove : (t.remove id).2.next = t.next := by
  rw [remove]
  split
  · rfl
  · simp only
    split <;> rfl

/-- Stripping a scope uses up no number. -/
theorem next_strip : (t.strip id).2.next = t.next := by
  rw [strip]
  split <;> rfl

/-- Creating a scope does not enter it. -/
theorem stack_create (parent : Option ScopeId) : (t.create parent).2.stack = t.stack := by
  simp only [create]
  split <;> rfl

/-- Scopes are taken away and stripped, but stay on the stack. -/
theorem stack_remove : (t.remove id).2.stack = t.stack := by
  rw [remove]
  split
  · rfl
  · simp only
    split <;> rfl

/-- Stripping a scope leaves the current scopes as they are. -/
theorem stack_strip : (t.strip id).2.stack = t.stack := by
  rw [strip]
  split <;> rfl

/-- There is nothing to remove of a scope that is gone. -/
theorem remove_of_gone (h : t.find? id = none) : t.remove id = (none, t) := by
  rw [find?] at h
  rw [remove, h]

/-- What was removed is the scope that was there. -/
theorem fst_remove : (t.remove id).1 = t.find? id := by
  rw [remove, find?]
  split <;> simp_all

/-- What is found when a scope was stripped: it is there, and holds nothing. -/
theorem find?_strip : (t.strip id).2.find? x =
    if x = id then (t.find? x).map fun s => { s with holdings := {} } else t.find? x := by
  rw [strip]
  split
  · rename_i h
    by_cases hx : x = id
    · simp [hx, find?, h]
    · simp [hx]
  · exact find?_modifyHoldings _

/-- A cleanup is added to the holdings of some scope. -/
theorem addCleanup?_eq {c : Cleanup} (h : t.addCleanup? c = some t') :
    ∃ id, t' = t.modifyHoldings id fun h => { h with cleanups := h.cleanups ++ [c] } := by
  obtain ⟨id, -, h⟩ := Option.bind_eq_some_iff.1 h
  obtain ⟨-, -, h⟩ := Option.bind_eq_some_iff.1 h
  exact ⟨id, (Option.some.inj h).symm⟩

/-- Behind some scopes: numbers are not given twice, so that no scope comes back. -/
structure Ahead (t t' : Scopes Cleanup Handler) : Prop where
  /-- Numbers only grow. -/
  next : t.next ≤ t'.next
  /-- No scope comes back. -/
  gone : ∀ {id}, id.index < t.next → t.find? id = none → t'.find? id = none

theorem Ahead.refl (t : Scopes Cleanup Handler) : t.Ahead t := ⟨Nat.le_refl _, fun _ h => h⟩

theorem Ahead.trans {t'' : Scopes Cleanup Handler} (h : t.Ahead t') (h' : t'.Ahead t'') :
    t.Ahead t'' :=
  ⟨Nat.le_trans h.next h'.next,
    fun hid hgone => h'.gone (Nat.lt_of_lt_of_le hid h.next) (h.gone hid hgone)⟩

/-- Changing a scope creates none. -/
theorem ahead_modify (id : ScopeId) (f : Scope Cleanup Handler → Scope Cleanup Handler) :
    t.Ahead (t.modify id f) := by
  refine ⟨Nat.le_refl _, fun {x} _ hx => ?_⟩
  rw [find?_modify, hx]
  simp

/-- Creating a scope. -/
theorem ahead_create (parent : Option ScopeId) : t.Ahead (t.create parent).2 := by
  refine ⟨next_create parent ▸ Nat.le_succ _, fun {x} hlt hx => ?_⟩
  have hne : x ≠ ⟨t.next⟩ := by
    rintro rfl
    exact Nat.lt_irrefl _ hlt
  rw [find?_create, if_neg hne, hx]
  simp

/-- Removing a scope creates none. -/
theorem ahead_remove (id : ScopeId) : t.Ahead (t.remove id).2 := by
  refine ⟨Nat.le_of_eq next_remove.symm, fun {x} _ hx => ?_⟩
  cases hs : t.find? id with
  | none => rw [remove_of_gone hs, hx]
  | some s =>
    rw [find?_remove hs, hx]
    simp

/-- Stripping a scope creates none. -/
theorem ahead_strip (id : ScopeId) : t.Ahead (t.strip id).2 := by
  refine ⟨Nat.le_of_eq next_strip.symm, fun {x} _ hx => ?_⟩
  rw [find?_strip, hx]
  simp

/-! ## The shape of the forest -/

/-- How the live scopes hang together. -/
structure Forest (t : Scopes Cleanup Handler) : Prop where
  /-- Live scopes were created. -/
  created : ∀ {id s}, t.find? id = some s → id.index < t.next
  /-- A scope that is listed as a child is live, with that parent, and younger. -/
  child : ∀ {p s c}, t.find? p = some s → c ∈ s.holdings.children →
    p.index < c.index ∧ ∃ s', t.find? c = some s' ∧ s'.parent = some p
  /-- Children are listed in the order of their creation. -/
  order : ∀ {p s}, t.find? p = some s → s.holdings.children.Pairwise (·.index < ·.index)

/-- Where there are no scopes, they make up a forest. -/
theorem forest_empty : Forest ({} : Scopes Cleanup Handler) := by
  constructor <;> intros <;> simp_all [find?]

/-- A change in which scopes stay or go, keep their parents, and gain no children; those that go
are listed nowhere any more. -/
theorem Forest.shrink (h : t.Forest) (hnext : t.next ≤ t'.next)
    (hold : ∀ {x s'}, t'.find? x = some s' → ∃ s, t.find? x = some s ∧ s'.parent = s.parent ∧
      s'.holdings.children.Sublist s.holdings.children)
    (hlisted : ∀ {p s' c}, t'.find? p = some s' → c ∈ s'.holdings.children → t.find? c ≠ none →
      t'.find? c ≠ none) : t'.Forest where
  created hx := by
    obtain ⟨s, hs, -⟩ := hold hx
    exact Nat.lt_of_lt_of_le (h.created hs) hnext
  child hp hc := by
    obtain ⟨s, hs, -, hsub⟩ := hold hp
    obtain ⟨hlt, sc, hsc, hparent⟩ := h.child hs (hsub.subset hc)
    have hlive := hlisted hp hc (by simp [hsc])
    obtain ⟨sc', hsc'⟩ := Option.ne_none_iff_exists'.1 hlive
    obtain ⟨sc₀, hsc₀, hsame, -⟩ := hold hsc'
    rw [hsc, Option.some.injEq] at hsc₀
    exact ⟨hlt, sc', hsc', hsame.trans (hsc₀ ▸ hparent)⟩
  order hp := by
    obtain ⟨s, hs, -, hsub⟩ := hold hp
    exact (h.order hs).sublist hsub

/-- A change of scopes that keeps their parents and children. -/
theorem Forest.same (h : t.Forest) (hnext : t'.next = t.next)
    (hmap : ∀ x, Option.Rel (fun s s' => s'.parent = s.parent ∧
      s'.holdings.children = s.holdings.children) (t.find? x) (t'.find? x)) : t'.Forest := by
  refine h.shrink (Nat.le_of_eq hnext.symm) (fun {x s'} hs' => ?_) fun {p s' c} _ _ hc => ?_
  · have hx := hmap x
    rw [hs'] at hx
    cases hs : t.find? x with
    | none => simp [hs] at hx
    | some s =>
      rw [hs] at hx
      obtain ⟨hparent, hchildren⟩ := Option.rel_some_some.1 hx
      exact ⟨s, rfl, hparent, hchildren ▸ List.Sublist.refl _⟩
  · have hx := hmap c
    cases hs : t'.find? c with
    | some s => simp
    | none =>
      rw [hs] at hx
      cases hs' : t.find? c with
      | none => exact absurd hs' hc
      | some s => simp [hs'] at hx

/-- Changing what a scope holds, but not its parent and children. -/
theorem Forest.modify (h : t.Forest) {f : Scope Cleanup Handler → Scope Cleanup Handler}
    (hf : ∀ s, (f s).parent = s.parent ∧ (f s).holdings.children = s.holdings.children) :
    (t.modify id f).Forest := by
  refine h.same rfl fun x => ?_
  rw [find?_modify]
  cases t.find? x with
  | none => simp
  | some s =>
    split
    · simpa using hf s
    · simp

/-- A new scope below a parent, or at the top. -/
theorem Forest.create (h : t.Forest) (parent : Option ScopeId) : (t.create parent).2.Forest := by
  have hnext : (t.create parent).2.next = t.next + 1 := next_create parent
  have hfresh : t.find? ⟨t.next⟩ = none := by
    cases hs : t.find? ⟨t.next⟩ with
    | none => rfl
    | some s => exact absurd (h.created hs) (Nat.lt_irrefl _)
  have hlive {p : ScopeId} (hp : t.parentFor parent = some p) : t.find? p ≠ none := by
    have hcontains := (Option.filter_eq_some_iff.1 hp).2
    rw [contains_eq] at hcontains
    exact Option.isSome_iff_ne_none.1 hcontains
  have hold {x : ScopeId} {s : Scope Cleanup Handler} (hs : t.find? x = some s) :
      ∃ s', (t.create parent).2.find? x = some s' ∧ s'.parent = s.parent := by
    have hx : x ≠ ⟨t.next⟩ := by
      rintro rfl
      simp [hfresh] at hs
    rw [find?_create, if_neg hx, hs]
    split
    · exact ⟨_, rfl, rfl⟩
    · exact ⟨s, rfl, rfl⟩
  have hcases {x : ScopeId} {s' : Scope Cleanup Handler}
      (hs' : (t.create parent).2.find? x = some s') :
      (x = ⟨t.next⟩ ∧ s'.holdings.children = []) ∨ ∃ s, t.find? x = some s ∧
        (s'.holdings.children = s.holdings.children ∨ t.parentFor parent = some x ∧
          s'.holdings.children = s.holdings.children ++ [⟨t.next⟩]) := by
    rw [find?_create] at hs'
    split at hs'
    · rename_i hx
      rw [Option.some.injEq] at hs'
      exact Or.inl ⟨hx, hs' ▸ rfl⟩
    · split at hs'
      · rename_i hx
        obtain ⟨s, hs, rfl⟩ := Option.map_eq_some_iff.1 hs'
        exact Or.inr ⟨s, hs, Or.inr ⟨hx, rfl⟩⟩
      · exact Or.inr ⟨s', hs', Or.inl rfl⟩
  refine ⟨fun {x s'} hx => ?_, fun {p s' c} hp hc => ?_, fun {p s'} hp => ?_⟩
  · rcases hcases hx with ⟨rfl, -⟩ | ⟨s, hs, -⟩
    · exact hnext ▸ Nat.lt_succ_self _
    · exact hnext ▸ Nat.lt_succ_of_lt (h.created hs)
  · have hlisted {s : Scope Cleanup Handler} (hs : t.find? p = some s)
        (hc : c ∈ s.holdings.children) : p.index < c.index ∧
          ∃ s', (t.create parent).2.find? c = some s' ∧ s'.parent = some p := by
      obtain ⟨hlt, sc, hsc, hparent⟩ := h.child hs hc
      obtain ⟨sc', hsc', hsame⟩ := hold hsc
      exact ⟨hlt, sc', hsc', hsame.trans hparent⟩
    rcases hcases hp with ⟨-, hnone⟩ | ⟨s, hs, hsame | ⟨hx, hmore⟩⟩
    · simp [hnone] at hc
    · exact hlisted hs (hsame ▸ hc)
    · rw [hmore] at hc
      rcases List.mem_append.1 hc with hc | hc
      · exact hlisted hs hc
      · obtain rfl := List.mem_singleton.1 hc
        exact ⟨h.created hs, { parent := t.parentFor parent }, by simp [find?_create], hx⟩
  · rcases hcases hp with ⟨-, hnone⟩ | ⟨s, hs, hsame | ⟨-, hmore⟩⟩
    · simp [hnone]
    · exact hsame ▸ h.order hs
    · rw [hmore, List.pairwise_append]
      refine ⟨h.order hs, List.pairwise_singleton _ _, fun c hc d hd => ?_⟩
      obtain ⟨-, sc, hsc, -⟩ := h.child hs hc
      obtain rfl := List.mem_singleton.1 hd
      exact h.created hsc

/-- A scope is taken away, and its children have no parent then. -/
theorem Forest.remove (h : t.Forest) (id : ScopeId) : (t.remove id).2.Forest := by
  cases hs : t.find? id with
  | none => exact (remove_of_gone hs) ▸ h
  | some s =>
    have hfind (x : ScopeId) := find?_remove (x := x) hs
    refine h.shrink (Nat.le_of_eq next_remove.symm) (fun {x s'} hx => ?_)
      fun {p s' c} hp hc hlive => ?_
    · rw [hfind] at hx
      split at hx
      · simp at hx
      · split at hx
        · obtain ⟨sx, hsx, rfl⟩ := Option.map_eq_some_iff.1 hx
          exact ⟨sx, hsx, rfl, List.filter_sublist⟩
        · exact ⟨s', hx, rfl, List.Sublist.refl _⟩
    · have hne : c ≠ id := by
        rintro rfl
        rw [hfind] at hp
        split at hp
        · simp at hp
        · split at hp
          · obtain ⟨sp, -, rfl⟩ := Option.map_eq_some_iff.1 hp
            simp at hc
          · rename_i hparent
            obtain ⟨-, sc, hsc, hsame⟩ := h.child hp hc
            rw [hs, Option.some.injEq] at hsc
            exact hparent (hsc ▸ hsame)
      rw [hfind, if_neg hne]
      split
      · simpa using hlive
      · exact hlive

/-- A scope loses its children. -/
theorem Forest.strip (h : t.Forest) (id : ScopeId) : (t.strip id).2.Forest := by
  refine h.shrink (Nat.le_of_eq next_strip.symm) (fun {x s'} hx => ?_)
    fun {p s' c} hp hc hlive => ?_
  · rw [find?_strip] at hx
    split at hx
    · obtain ⟨s, hs, rfl⟩ := Option.map_eq_some_iff.1 hx
      exact ⟨s, hs, rfl, List.nil_sublist _⟩
    · exact ⟨s', hx, rfl, List.Sublist.refl _⟩
  · rw [find?_strip]
    split
    · simpa using hlive
    · exact hlive

end Rivulet.Scopes
