import Rivulet.Proofs.Scopes.Forest

/-!
# Who takes an error

An error goes to the nearest scope with a handler, at or above the one it was raised in. Scopes are
younger than their parents, so no way up is longer than there are live scopes, and the search finds
the handler wherever there is one.
-/

namespace Rivulet.Scopes

variable {Cleanup Handler : Type} {t t' : Scopes Cleanup Handler} {id x p : ScopeId}
  {handler handler' : Handler} {s : Scope Cleanup Handler}

/-- The handler of the nearest scope, at or above a live one, that has a handler. -/
inductive Nearest (t : Scopes Cleanup Handler) (handler : Handler) : ScopeId → Prop
  /-- The scope has one itself. -/
  | here {x : ScopeId} {s : Scope Cleanup Handler} (live : t.find? x = some s)
      (takes : s.handler = some handler) : Nearest t handler x
  /-- The scope has none, and it is the nearest one to its parent. -/
  | above {x p : ScopeId} {s : Scope Cleanup Handler} (live : t.find? x = some s)
      (passes : s.handler = none) (parent : s.parent = some p) (rest : Nearest t handler p) :
      Nearest t handler x

/-- No two handlers are the nearest one. -/
theorem Nearest.unique (h : t.Nearest handler x) (h' : t.Nearest handler' x) :
    handler = handler' := by
  induction h with
  | here live takes =>
    cases h' with
    | here live' takes' =>
      cases live.symm.trans live'
      exact Option.some.inj (takes.symm.trans takes')
    | above live' passes' =>
      cases live.symm.trans live'
      simp [takes] at passes'
  | above live passes parent rest ih =>
    cases h' with
    | here live' takes' =>
      cases live.symm.trans live'
      simp [takes'] at passes
    | above live' passes' parent' rest' =>
      cases live.symm.trans live'
      cases parent.symm.trans parent'
      exact ih rest'

/-- Scopes are younger than their parents. -/
structure Descending (t : Scopes Cleanup Handler) : Prop where
  /-- Live scopes were created. -/
  created : ∀ {x s}, t.find? x = some s → x.index < t.next
  /-- Parents are older. -/
  older : ∀ {x s p}, t.find? x = some s → s.parent = some p → p.index < x.index

/-- Where there are no scopes, they stand behind their parents. -/
theorem descending_empty : Descending ({} : Scopes Cleanup Handler) := by
  constructor <;> intros <;> simp_all [find?]

/-- A change in which no scope comes and none changes its parent. -/
theorem Descending.shrink (h : t.Descending) (hnext : t'.next = t.next)
    (hold : ∀ {x s'}, t'.find? x = some s' → ∃ s, t.find? x = some s ∧ s'.parent = s.parent) :
    t'.Descending where
  created hx := by
    obtain ⟨s, hs, -⟩ := hold hx
    exact hnext ▸ h.created hs
  older hx hp := by
    obtain ⟨s, hs, hparent⟩ := hold hx
    exact h.older hs (hparent ▸ hp)

/-- Scopes stay behind their parents when one is changed. -/
theorem Descending.modify (h : t.Descending) {f : Scope Cleanup Handler → Scope Cleanup Handler}
    (hf : ∀ s, (f s).parent = s.parent) : (t.modify id f).Descending := by
  refine h.shrink rfl fun {x s'} hx => ?_
  rw [find?_modify] at hx
  split at hx
  · obtain ⟨s, hs, rfl⟩ := Option.map_eq_some_iff.1 hx
    exact ⟨s, hs, hf s⟩
  · exact ⟨s', hx, rfl⟩

/-- Scopes stay behind their parents when one is removed. -/
theorem Descending.remove (h : t.Descending) : (t.remove id).2.Descending := by
  refine h.shrink next_remove fun {x s'} hx => ?_
  cases hs : t.find? id with
  | none =>
    rw [remove_of_gone hs] at hx
    exact ⟨s', hx, rfl⟩
  | some s =>
    rw [find?_remove hs] at hx
    split at hx
    · cases hx
    · split at hx
      · obtain ⟨s₀, hs₀, rfl⟩ := Option.map_eq_some_iff.1 hx
        exact ⟨s₀, hs₀, rfl⟩
      · exact ⟨s', hx, rfl⟩

/-- Scopes stay behind their parents when one is stripped. -/
theorem Descending.strip (h : t.Descending) : (t.strip id).2.Descending := by
  refine h.shrink next_strip fun {x s'} hx => ?_
  rw [find?_strip] at hx
  split at hx
  · obtain ⟨s, hs, rfl⟩ := Option.map_eq_some_iff.1 hx
    exact ⟨s, hs, rfl⟩
  · exact ⟨s', hx, rfl⟩

/-- A new scope stands behind its parent. -/
theorem Descending.create (h : t.Descending) (parent : Option ScopeId) :
    (t.create parent).2.Descending := by
  have hcases {x : ScopeId} {s' : Scope Cleanup Handler}
      (hs' : (t.create parent).2.find? x = some s') :
      (x = ⟨t.next⟩ ∧ s'.parent = t.parentFor parent) ∨
        ∃ s, t.find? x = some s ∧ s'.parent = s.parent := by
    rw [find?_create] at hs'
    split at hs'
    · rename_i hx
      exact .inl ⟨hx, (Option.some.inj hs') ▸ rfl⟩
    · split at hs'
      · obtain ⟨s, hs, rfl⟩ := Option.map_eq_some_iff.1 hs'
        exact .inr ⟨s, hs, rfl⟩
      · exact .inr ⟨s', hs', rfl⟩
  refine ⟨fun {x s'} hx => ?_, fun {x s' p} hx hp => ?_⟩
  · rw [next_create]
    rcases hcases hx with ⟨rfl, -⟩ | ⟨s, hs, -⟩
    · exact Nat.lt_succ_self _
    · exact Nat.lt_succ_of_lt (h.created hs)
  · rcases hcases hx with ⟨rfl, hparent⟩ | ⟨s, hs, hparent⟩
    · have hlive := (Option.filter_eq_some_iff.1 (hparent.symm.trans hp)).2
      rw [contains_eq] at hlive
      obtain ⟨sp, hsp⟩ := Option.isSome_iff_exists.1 hlive
      exact h.created hsp
    · exact h.older hs (hparent ▸ hp)

/-- What a climb finds is the nearest handler. -/
theorem nearest_of_climb {n : Nat} (h : t.climb n x = some handler) : t.Nearest handler x := by
  induction n generalizing x with
  | zero => cases h
  | succ n ih =>
    rw [climb] at h
    cases hlive : t.live[x]? with
    | none => simp [hlive] at h
    | some s =>
      rw [hlive] at h
      cases htakes : s.handler with
      | some handler' => exact .here hlive (by simpa [htakes] using h)
      | none =>
        cases hparent : s.parent with
        | none => simp [htakes, hparent] at h
        | some p => exact .above hlive htakes hparent (ih (by simpa [htakes, hparent] using h))

/-- The live scopes that are not younger than a given one. -/
def elders (t : Scopes Cleanup Handler) (x : ScopeId) : List ScopeId :=
  t.live.keys.filter (·.index ≤ x.index)

/-- There are more elders on the way down. -/
theorem length_elders_lt (hx : t.find? x = some s) (hlt : p.index < x.index) :
    (t.elders p).length < (t.elders x).length := by
  have hsub : (t.elders p).Sublist (t.elders x) := by
    refine List.monotone_filter_right _ fun y hy => ?_
    simp only [decide_eq_true_eq] at hy ⊢
    exact Nat.le_of_lt (Nat.lt_of_le_of_lt hy hlt)
  refine Nat.lt_of_le_of_ne hsub.length_le fun heq => ?_
  have hmem : x ∈ t.elders x := by
    refine List.mem_filter.2 ⟨?_, by simp⟩
    rw [Std.HashMap.mem_keys, ← Std.HashMap.isSome_getElem?_iff_mem]
    exact Option.isSome_iff_exists.2 ⟨s, hx⟩
  rw [← hsub.eq_of_length heq] at hmem
  have hle : x.index ≤ p.index := by simpa using (List.mem_filter.1 hmem).2
  exact absurd hlt (Nat.not_lt.2 hle)

/-- A climb that is long enough finds the nearest handler. -/
theorem climb_of_nearest (ht : t.Descending) (h : t.Nearest handler x) {n : Nat}
    (hn : (t.elders x).length ≤ n) : t.climb (n + 1) x = some handler := by
  induction h generalizing n with
  | here live takes =>
    rw [find?] at live
    simp [climb, live, takes]
  | @above x p s live passes parent rest ih =>
    have hlt := length_elders_lt live (ht.older live parent)
    obtain ⟨m, rfl⟩ : ∃ m, n = m + 1 := ⟨n - 1, by omega⟩
    rw [find?] at live
    rw [climb, live]
    simpa [passes, parent] using ih (by omega)

/-- The search finds the handler of the nearest scope with one. -/
theorem findHandler_eq_some_iff (ht : t.Descending) :
    t.findHandler x = some handler ↔ t.Nearest handler x := by
  refine ⟨nearest_of_climb, fun h => climb_of_nearest ht h ?_⟩
  rw [elders, size, ← Std.HashMap.length_keys]
  exact List.length_filter_le _ _

end Rivulet.Scopes
