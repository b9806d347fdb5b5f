import Rivulet.Proofs.Disposal.Writing

/-!
# Cleanups that spare the rest

What is done when a scope ends is done inside a batch, so nothing that waits can run in between. If
the cleanups end normally and leave scopes and computations as they are, all of it can be done. So
it is with cleanups that write signals, unless a computed value is being evaluated.
-/

namespace Rivulet.Engine

variable {s s' s₁ : State} {id : ScopeId} {l : List (Scopes.Task Cleanup)}

theorem Does.level {task : Scopes.Task Cleanup} (h : Does task s s') (hs : s.Typed) :
    s'.queue.batches = task.level s.queue.batches := by
  cases task with
  | start id =>
    rw [show s' = _ from h]
    rfl
  | cleanup c => exact (h.1.cleanup hs).2.onward.batches
  | retire id =>
    rw [show s' = _ from h]
    exact (leads_retired s id).onward.1.batches
  | finish =>
    rw [show s' = _ from h]
    exact congrArg (· - 1) (State.leads_sweep s).onward.1.batches

private theorem Performs.level (h : Performs l s s') (hs : s.Typed) :
    s'.queue.batches = Scopes.levelAfter l s.queue.batches := by
  induction h with
  | nil => rfl
  | cons h _ ih =>
    rw [ih (typing.path hs (h.path hs)), h.level hs]
    rfl

/-- Nothing runs inside a batch but what was called for. -/
theorem canFlush_of_lt {q : Queue} {k : Nat} (h : k < q.batches) : q.canFlush = false := by
  simp only [Queue.canFlush, Bool.and_eq_false_iff, decide_eq_false_iff_not]
  exact .inr (by omega)

theorem Performs.observers (h : Performs l s s') (hs : s.Typed) :
    s'.tracking.sections.map (·.observer) = s.tracking.sections.map (·.observer) := by
  induction h with
  | nil => rfl
  | cons h _ ih =>
    rename_i task _ s u s' _
    rw [ih (typing.path hs (h.path hs))]
    cases task with
    | start id => rw [show u = _ from h]; rfl
    | cleanup c => exact (h.1.cleanup hs).2.onward.observers
    | retire id =>
      rw [show u = _ from h]
      exact (leads_retired s id).onward.1.observers
    | finish =>
      rw [show u = _ from h]
      exact (State.leads_sweep s).onward.1.observers

/-- In the middle of the end of a scope nothing waiting can run. -/
theorem Performs.canFlush {t : Scopes Cleanup Handler} (ht : t.Forest)
    {done rest : List (Scopes.Task Cleanup)} (heq : t.agenda id = done ++ rest) (hdone : done ≠ [])
    (hrest : rest ≠ []) (h : Performs done s s') (hs : s.Typed) : s'.queue.canFlush = false := by
  refine canFlush_of_lt (k := s.queue.batches) ?_
  rw [h.level hs]
  exact ht.lt_inside_agenda heq hdone hrest _

/-- The cleanups of a scope and of all below it end normally, each where its turn comes, and leave
scopes and computations as they are. -/
def State.CleanupsSpare (s : State) (id : ScopeId) : Prop :=
  ∀ done c rest t, s.scopes.agenda id = done ++ .cleanup c :: rest → Performs done s t →
    ∃ t', Yields (fun κ => runCleanup κ c) t () t' ∧ t.Spares t'

/-- Then all that is to be done can be done. -/
theorem State.CleanupsSpare.performs (h : s.CleanupsSpare id) :
    ∃ s₁, Performs (s.scopes.agenda id) s s₁ := by
  have hrest (done rest : List (Scopes.Task Cleanup)) (t : State)
      (heq : s.scopes.agenda id = done ++ rest) (hdone : Performs done s t) :
      ∃ s₁, Performs rest t s₁ := by
    induction rest generalizing done t with
    | nil => exact ⟨t, .nil⟩
    | cons task rest ih =>
      obtain ⟨u, hu⟩ : ∃ u, Does task t u := by
        cases task with
        | start x => exact ⟨_, rfl⟩
        | cleanup c => exact h done c rest t heq hdone
        | retire j => exact ⟨_, rfl⟩
        | finish => exact ⟨_, rfl⟩
      obtain ⟨s₁, hs₁⟩ := ih (done ++ [task]) u (by rw [heq, List.append_assoc]; rfl)
        (performs_append.2 ⟨t, hdone, .cons hu .nil⟩)
      exact ⟨s₁, .cons hu hs₁⟩
  exact hrest [] _ s rfl .nil

/-- A cleanup that only writes and reads signals and logs, or removes a listener. -/
def Cleanup.Writes (sees : String → Prop) : Cleanup → Prop
  | .program p => p.Writes (fun _ => True) (fun _ => True) sees
  | .unlisten _ _ _ => True

/-- A cleanup that writes signals ends normally inside a batch. -/
theorem gives_cleanupWriting {c : Cleanup} (hs : s.Typed) (hbatch : s.queue.canFlush = false)
    (hwritable : s.tracking.inDerived = false) {sees : String → Prop} (hc : c.Writes sees)
    (hsees : ∀ x, sees x → s.IsDirect x) :
    Gives (fun κ => runCleanup κ c) s fun _ t => s.Scribbles t := by
  cases c with
  | program p =>
    exact (gives_scribbles hs hbatch hwritable hc hsees).callExec.map fun _ _ h => h
  | unlisten document node listener =>
    exact .step (.of_leads (Leads.aside (by constructor <;> rfl)) rfl rfl rfl)

/-- What is done between cleanups that write signals leaves the names alone. -/
theorem names_of_performs (hs : s.Typed) (hwritable : s.tracking.inDerived = false)
    {sees : String → Prop} (hsees : ∀ x, sees x → s.IsDirect x)
    (hwrites : ∀ c, .cleanup c ∈ l → c.Writes sees)
    (hbatch : ∀ done c rest, l = done ++ .cleanup c :: rest →
      0 < Scopes.levelAfter done s.queue.batches) (h : Performs l s s') : s'.names = s.names := by
  induction h with
  | nil => rfl
  | cons hdoes hrest ih =>
    rename_i task rest s u s'
    have hnames : u.names = s.names := by
      cases task with
      | start id => rw [show u = _ from hdoes]; rfl
      | cleanup c =>
        have hopen := canFlush_of_lt (hbatch [] c rest rfl)
        obtain ⟨⟨⟩, t, hyields, hscribbles⟩ :=
          gives_cleanupWriting hs hopen hwritable (hwrites c List.mem_cons_self) hsees
        rw [(hdoes.1.unique hyields).2, hscribbles.names]
      | retire id => rw [show u = _ from hdoes, State.names_retired]
      | finish =>
        rw [show u = _ from hdoes]
        exact (State.letsGo_sweep s).names
    have hobservers := (Performs.cons hdoes .nil).observers hs
    rw [ih (typing.path hs (hdoes.path hs)) ((inDerived_congr hobservers).trans hwritable) ?_
      (fun c hc => hwrites c (List.mem_cons_of_mem task hc)) ?_, hnames]
    · intro x hx hd hhandle
      refine hsees x hx hd ?_
      rw [State.handle?, ← hnames]
      exact hhandle
    · intro done c rest' heq
      have hlevel := hbatch (task :: done) c rest' (by rw [heq]; rfl)
      rw [hdoes.level hs]
      exact hlevel

/-- Unless a computed value is being evaluated, cleanups that write signals end normally where their
turn comes, and leave scopes and computations as they are. -/
theorem cleanupsSpare_of_writes (hs : s.Reached) (hwritable : s.tracking.inDerived = false)
    (hwrites : ∀ x ∈ s.scopes.postorder id, ∀ c ∈ s.scopes.cleanupsOf x, c.Writes s.IsDirect) :
    s.CleanupsSpare id := by
  intro done last rest t heq hperforms
  have hforest := hs.owned.forest
  have hall (c : Cleanup) (hc : .cleanup c ∈ s.scopes.agenda id) : c.Writes s.IsDirect := by
    have hmem : c ∈ (s.scopes.agenda id).filterMap Scopes.Task.cleanup? :=
      List.mem_filterMap.2 ⟨_, hc, rfl⟩
    rw [hforest.cleanups_agenda, List.mem_flatMap] at hmem
    obtain ⟨x, hx, hc⟩ := hmem
    exact hwrites x hx c hc
  -- An agenda starts with taking a scope away.
  have hstarts {done rest : List (Scopes.Task Cleanup)} {c : Cleanup}
      (heq : s.scopes.agenda id = done ++ .cleanup c :: rest) : done ≠ [] := by
    rintro rfl
    cases hlive : s.scopes.find? id with
    | none => simp [Scopes.agenda_gone hlive] at heq
    | some scope => simp [hforest.agenda_eq hlive] at heq
  have hnames : t.names = s.names := by
    refine names_of_performs hs.typed hwritable (fun _ h => h) (fun c hc => hall c ?_)
      (fun before c after hdone => ?_) hperforms
    · exact heq ▸ List.mem_append_left _ hc
    · have hagenda : s.scopes.agenda id =
          before ++ .cleanup c :: (after ++ .cleanup last :: rest) := by
        rw [heq, hdone, List.append_assoc]
        rfl
      exact Nat.lt_of_le_of_lt (Nat.zero_le s.queue.batches)
        (hforest.lt_inside_agenda hagenda (hstarts hagenda) (List.cons_ne_nil _ _) _)
  obtain ⟨⟨⟩, t', hyields, hscribbles⟩ := gives_cleanupWriting
    (typing.path hs.typed (hperforms.path hs.typed))
    (hperforms.canFlush hforest heq (hstarts heq) (by simp) hs.typed)
    ((inDerived_congr (hperforms.observers hs.typed)).trans hwritable)
    (hall last (heq ▸ List.mem_append_right _ List.mem_cons_self)) fun x hx hd hhandle =>
      hx hd (by rw [State.handle?, ← hnames]; exact hhandle)
  exact ⟨t', hyields, hscribbles.spares⟩

end Rivulet.Engine
