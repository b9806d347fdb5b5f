import Rivulet.Proofs.Disposal.Performing

/-!
# What a run stands in

A run finds sections of reads, supplies and current scopes, and may open more of each. Sections and
supplies are closed in the reverse order, but a guard may keep a scope current for longer than what
was opened after it. So of the current scopes it is only known that those which the run found are at
the bottom, and which others are above them, in some order.
-/

namespace Rivulet.Tracking

/-- A section is closed whatever was read in it. -/
theorem leave_record (t : Tracking) (id : NodeId) : (t.record id).leave.2 = t.leave.2 := by
  unfold record
  split
  · rfl
  · rename_i sec rest hsections
    split
    · simp [leave, hsections]
    · rfl

private theorem leave_reads (t : Tracking) (reads : List NodeId) :
    (reads.foldl record t).leave.2 = t.leave.2 := by
  induction reads generalizing t with
  | nil => rfl
  | cons id reads ih => exact (ih (t.record id)).trans (leave_record t id)

/-- Where nothing is read for anyone, no read is recorded. -/
theorem reads_of_not_isActive {t : Tracking} (h : t.isActive = false) (reads : List NodeId) :
    reads.foldl record t = t := by
  have hone (id : NodeId) : t.record id = t := by
    unfold record
    split
    · rfl
    · rename_i sec rest hsections
      have hnone : sec.observer.node?.isSome = false := by
        simpa [isActive, observer?, hsections] using h
      simp [hnone]
  induction reads with
  | nil => rfl
  | cons id reads ih => rw [List.foldl_cons, hone id, ih]

end Rivulet.Tracking

namespace Rivulet.Engine

/-- A list with distinct names is the entry of one name, if there is one, and those of the
others. -/
theorem perm_lookup_filter {α : Type} {l : List (String × α)} (h : (l.map (·.1)).Nodup)
    (name : String) :
    l.Perm ((l.lookup name).toList.map (name, ·) ++ l.filter (·.1 ≠ name)) := by
  induction l with
  | nil => exact .nil
  | cons p l ih =>
    obtain ⟨x, a⟩ := p
    obtain ⟨hx, hl⟩ := List.nodup_cons.1 h
    by_cases hname : x = name
    · subst hname
      have hrest : l.filter (·.1 ≠ x) = l := by
        refine List.filter_eq_self.2 fun p hp => decide_eq_true fun he => ?_
        exact hx (List.mem_map.2 ⟨p, hp, he⟩)
      rw [List.filter_cons_of_neg (by simp), hrest]
      simp
    · have hlookup : ((x, a) :: l).lookup name = l.lookup name := by
        rw [List.lookup_cons, beq_false_of_ne (Ne.symm hname)]
      rw [hlookup, List.filter_cons_of_pos (by simpa using hname)]
      exact ((ih hl).cons _).trans List.perm_middle.symm

/-- A scope that is taken off the part of the stack that it stands in. -/
theorem stack_leave {t : Scopes Cleanup Handler} {above below rest : List ScopeId} {id : ScopeId}
    (hstack : t.stack = above ++ below) (habove : above.Perm (id :: rest)) :
    ∃ above', (t.leave id).stack = above' ++ below ∧ above'.Perm rest := by
  have hmem : id ∈ above := habove.symm.subset List.mem_cons_self
  refine ⟨above.erase id, ?_, ?_⟩
  · rw [Scopes.leave, hstack]
    exact List.erase_append_left below hmem
  · exact ((List.perm_cons_erase hmem).symm.trans habove).cons_inv

namespace State

variable {s s' s'' : State}

/-- The scopes that are current are those `below`, and above them those that were entered since and
those that guards keep so. -/
structure Stands (below entered : List ScopeId) (s : State) : Prop where
  /-- Guards have names of their own. -/
  names : (s.guards.map (·.1)).Nodup
  /-- The order above is left open. -/
  stack : ∃ above, s.scopes.stack = above ++ below ∧ above.Perm (entered ++ s.guards.map (·.2))

/-- It depends only on the current scopes and the guards. -/
theorem Stands.same {below entered : List ScopeId} (h : s.Stands below entered)
    (hstack : s'.scopes.stack = s.scopes.stack) (hguards : s'.guards = s.guards) :
    s'.Stands below entered :=
  ⟨hguards ▸ h.names, by rw [hstack, hguards]; exact h.stack⟩

/-- A state behind a run that closes what it opens. It may have read something for the innermost
section, and given guards up or formed new ones. -/
structure Steady (s s' : State) : Prop where
  /-- The same sections are open. -/
  tracking : ∃ reads : List NodeId, s'.tracking = reads.foldl Tracking.record s.tracking
  /-- The same supplies are open. -/
  supplies : s'.supplies = s.supplies
  /-- The same scopes are current, but for the guards. -/
  scopes : ∀ below entered, s.Stands below entered → s'.Stands below entered

namespace Steady

/-- A change of nothing that has to be restored. -/
theorem same (htracking : s'.tracking = s.tracking) (hsupplies : s'.supplies = s.supplies)
    (hstack : s'.scopes.stack = s.scopes.stack) (hguards : s'.guards = s.guards) : s.Steady s' where
  tracking := ⟨[], htracking⟩
  supplies := hsupplies
  scopes _ _ h := h.same hstack hguards

theorem refl (s : State) : s.Steady s := .same rfl rfl rfl rfl

theorem trans (h : s.Steady s') (h' : s'.Steady s'') : s.Steady s'' where
  tracking := by
    obtain ⟨reads, hreads⟩ := h.tracking
    obtain ⟨more, hmore⟩ := h'.tracking
    exact ⟨reads ++ more, by rw [hmore, hreads, List.foldl_append]⟩
  supplies := h'.supplies.trans h.supplies
  scopes below entered hs := h'.scopes below entered (h.scopes below entered hs)

/-- Letting go of nodes and query data is steady. -/
theorem of_letsGo (h : s.LetsGo s') : s.Steady s' := by
  obtain ⟨_, _, _, _, rfl⟩ := h
  exact .same rfl rfl rfl rfl

/-- A state behind a run that found no guards and leaves none. -/
theorem stack_eq (h : s.Steady s') (hs : s.guards = []) (hs' : s'.guards = []) :
    s'.scopes.stack = s.scopes.stack := by
  have hstands : s.Stands s.scopes.stack [] := ⟨by simp [hs], [], by simp, by simp [hs]⟩
  obtain ⟨above, hstack, habove⟩ := (h.scopes _ _ hstands).stack
  rw [hs', List.map_nil, List.append_nil] at habove
  rw [hstack, habove.eq_nil, List.nil_append]

end Steady

/-- Recording a read is steady. -/
theorem steady_record (s : State) (id : NodeId) : s.Steady (s.modifyTracking (·.record id)) :=
  ⟨⟨[id], rfl⟩, rfl, fun _ _ h => h.same rfl rfl⟩

/-- The section that was opened is closed again, whatever becomes of what was read in it. -/
theorem Steady.leaveSection {o : Tracking.Observer} (g : Graph)
    (h : (s.modifyTracking (·.enter o)).Steady s') :
    s.Steady { s' with tracking := s'.tracking.leave.2, graph := g } where
  tracking := by
    obtain ⟨reads, hreads⟩ := h.tracking
    exact ⟨[], by rw [hreads, Tracking.leave_reads]; rfl⟩
  supplies := h.supplies
  scopes _ _ hs := (h.scopes _ _ (hs.same rfl rfl)).same rfl rfl

/-- The supply that was opened is closed again. -/
theorem Steady.leaveSupply {supply : Supply}
    (h : { s with supplies := supply :: s.supplies }.Steady s') : s.Steady s'.leaveSupply := by
  have hleft : s.Steady { s' with supplies := s'.supplies.tail } :=
    ⟨h.tracking, by rw [h.supplies]; rfl,
      fun _ _ hs => (h.scopes _ _ (hs.same rfl rfl)).same rfl rfl⟩
  exact hleft.trans (.of_letsGo (letsGo_sweep _))

/-- The scope that was entered is left again. -/
theorem Steady.leaveScope {id : ScopeId} (h : (s.modifyScopes (·.enter id)).Steady s') :
    s.Steady (s'.modifyScopes (·.leave id)) where
  tracking := h.tracking
  supplies := h.supplies
  scopes below entered hs := by
    obtain ⟨above, hstack, habove⟩ := hs.stack
    have hentered : (s.modifyScopes (·.enter id)).Stands below (id :: entered) :=
      ⟨hs.names, id :: above, by simp [modifyScopes, Scopes.enter, hstack], habove.cons id⟩
    have hs' := h.scopes _ _ hentered
    obtain ⟨above', hstack', habove'⟩ := hs'.stack
    exact ⟨hs'.names, stack_leave hstack' habove'⟩

/-- What a guard has kept current is so no longer. -/
theorem steady_dropGuard {name : String} {scope : ScopeId} (h : s.guards.lookup name = some scope) :
    s.Steady { s with
      guards := s.guards.filter (·.1 ≠ name)
      scopes := s.scopes.leave scope } where
  tracking := ⟨[], rfl⟩
  supplies := rfl
  scopes below entered hs := by
    obtain ⟨above, hstack, habove⟩ := hs.stack
    have hguards := (perm_lookup_filter hs.names name).map (·.2)
    rw [h] at hguards
    refine ⟨(List.filter_sublist.map _).nodup hs.names, stack_leave hstack ?_⟩
    exact (habove.trans (hguards.append_left entered)).trans List.perm_middle

/-- A guard keeps a scope current; what a guard of the same name has kept so is so no longer. -/
theorem steady_keepCurrent (s : State) (scope : ScopeId) (name : String) :
    s.Steady { s with
      scopes := (s.guards.lookup name).elim (s.scopes.enter scope) (s.scopes.enter scope).leave
      guards := (name, scope) :: s.guards.filter (·.1 ≠ name) } where
  tracking := ⟨[], rfl⟩
  supplies := rfl
  scopes below entered hs := by
    obtain ⟨above, hstack, habove⟩ := hs.stack
    have hguards := (perm_lookup_filter hs.names name).map (·.2)
    have hname : name ∉ (s.guards.filter (·.1 ≠ name)).map (·.1) := by simp
    have hentered : (s.scopes.enter scope).stack = (scope :: above) ++ below := by
      simp [Scopes.enter, hstack]
    have hnew : (scope :: above).Perm
        (scope :: (entered ++ s.guards.map (·.2))) := habove.cons scope
    refine ⟨List.nodup_cons.2 ⟨hname, (List.filter_sublist.map _).nodup hs.names⟩, ?_⟩
    cases hold : s.guards.lookup name with
    | none =>
      rw [hold] at hguards
      refine ⟨_, hentered, (hnew.trans ((hguards.append_left entered).cons scope)).trans ?_⟩
      exact List.perm_middle.symm
    | some old =>
      rw [hold] at hguards
      refine stack_leave hentered ((hnew.trans ((hguards.append_left entered).cons scope)).trans ?_)
      refine (List.Perm.cons scope List.perm_middle).trans ((List.Perm.swap _ _ _).trans ?_)
      exact List.perm_middle.symm.cons old

end State

end Rivulet.Engine
