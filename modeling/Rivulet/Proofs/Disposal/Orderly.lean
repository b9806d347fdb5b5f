import Rivulet.Proofs.Disposal.Sparing

/-!
# Scopes end in good order

Each scope of a subtree ends once, children before their parents and in the order of their
creation, with its cleanups in the order of their registration and its computations behind them,
and all that before any waiting effect runs. Nothing outside the subtree is touched, and to end the
scope again changes nothing. All this is said of cleanups that end normally and leave scopes and
computations as they are. A cleanup that writes a signal while a computed value is being evaluated
does not end normally, and no cleanup behind it runs.
-/

namespace Rivulet.Engine

variable {s s' s₁ s₂ : State} {id : ScopeId}

/-- Two runs that end well, one after the other. -/
theorem bind_ok_cases {α β : Type} {x : Run α} {y : α → Run β} {b : β}
    (h : (x >>= y) s = .ok b s') : ∃ a u, x s = .ok a u ∧ y a u = .ok b s' := by
  cases hx : x s with
  | ok a u => exact ⟨a, u, rfl, (run_bind_ok hx).symm.trans h⟩
  | error e u =>
    rw [run_bind_error hx] at h
    cases h

/-- What was put off has been done behind the first of it and the others. -/
theorem deferred_of_drain {κ : Kernel}
    (hκ : ∀ {s s'}, κ.drain s = .ok () s' → s'.deferred = []) (h : drain κ s = .ok () s') :
    s'.deferred = [] := by
  obtain ⟨next, u, htake, hdo⟩ := bind_ok_cases (x := (modifyGet takeDeferred : Run _)) h
  cases hdeferred : s.deferred with
  | nil =>
    have htaken : takeDeferred s = (none, s) := by rw [takeDeferred, hdeferred]
    obtain ⟨rfl, rfl⟩ : next = none ∧ u = s := by
      have hpair : EStateM.Result.ok (takeDeferred s).1 (takeDeferred s).2 = .ok next u := htake
      rw [htaken] at hpair
      cases hpair
      exact ⟨rfl, rfl⟩
    cases hdo
    exact hdeferred
  | cons task rest =>
    have htaken : takeDeferred s = (some task, { s with deferred := rest }) := by
      rw [takeDeferred, hdeferred]
    obtain rfl : next = some task := by
      have hpair : EStateM.Result.ok (takeDeferred s).1 (takeDeferred s).2 = .ok next u := htake
      rw [htaken] at hpair
      cases hpair
      rfl
    cases task with
    | uncaught error =>
      obtain ⟨-, v, -, hdrain⟩ := bind_ok_cases (x := surfaceUncaught κ error) hdo
      exact hκ hdrain
    | fallback b error =>
      obtain ⟨-, v, -, hrest⟩ := bind_ok_cases (x := showFallback κ b error) hdo
      obtain ⟨-, w, -, hdrain⟩ := bind_ok_cases (x := (modify State.sweep : Run Unit)) hrest
      exact hκ hdrain

/-- When what was put off has been done, nothing is put off. -/
theorem deferred_of_callDrain : ∀ (n : Nat) {s s' : State},
    (kernel n).drain s = .ok () s' → s'.deferred = []
  | 0, s, s', h => by
    obtain ⟨o, u, hcall, -⟩ := bind_ok_cases (x := kernel 0 .drain) h
    cases hcall
  | n + 1, s, s', h => by
    obtain ⟨o, u, hcall, hret⟩ := bind_ok_cases (x := kernel (n + 1) .drain) h
    obtain ⟨_, v, hdrain, hvalue⟩ := bind_ok_cases (x := drain (kernel n)) hcall
    cases hret
    cases hvalue
    exact deferred_of_drain (deferred_of_callDrain n) hdrain

/-- Where what waits has been settled, nothing is left that could be done. -/
theorem quiet_of_settle {n : Nat} (hs : s.Typed) (h : settle (kernel n) s = .ok () s') :
    s'.Quiet := by
  obtain ⟨-, hpost⟩ := concur_settle (interchangeable_kernel typing n) hs
  rw [h] at hpost
  intro hflush
  refine ⟨hpost.2.1 hflush, ?_⟩
  have hcan : s.queue.canFlush = true := hpost.2.2.onward.canFlush.symm.trans hflush
  have hrun : flush (kernel n) s = .ok () s' := by
    have hbranch : (if s.queue.canFlush = true then flush (kernel n) else pure ()) s = .ok () s' :=
      h
    rwa [if_pos hcan] at hbranch
  obtain ⟨u, v, hlook, hflushed⟩ := bind_ok_cases (x := (get : Run State)) hrun
  cases hlook
  simp only [Queue.beginFlush_of_canFlush hcan] at hflushed
  obtain ⟨-, w, -, hserved⟩ := bind_ok_cases hflushed
  obtain ⟨-, x, -, hdrain⟩ := bind_ok_cases hserved
  exact deferred_of_callDrain n hdrain

/-- The end of a scope in good order, from a state to the one in which the batch around it is
closed and what waits is settled. -/
structure State.EndsInOrder (s : State) (id : ScopeId) (s₁ : State) : Prop where
  /-- All that is on the agenda is done, and then what waits is settled. -/
  run : Performs (s.scopes.agenda id) s s₁ ∧
    ∃ depth, ∀ n, depth ≤ n → disposeScope (kernel n) id s = settle (kernel n) s₁
  /-- The agenda of a scope is to deal with its children in the order of their creation, then to
  run its cleanups in the order of their registration, then to retire its computations. -/
  agenda : ∀ x scope, s.scopes.find? x = some scope →
    scope.holdings.children.Pairwise (·.index < ·.index) ∧
      s.scopes.agenda x = .start x :: (scope.holdings.children.flatMap s.scopes.agenda ++
        (scope.holdings.cleanups.map .cleanup ++
          (scope.holdings.computations.map .retire ++ [.finish])))
  /-- No effect can run before all that is done. -/
  batched : ∀ done rest t, s.scopes.agenda id = done ++ rest → done ≠ [] → rest ≠ [] →
    Performs done s t → t.queue.canFlush = false
  /-- Exactly the scope and what is below it ends, if it was live, each scope once. -/
  subtree : (s.scopes.postorder id).Nodup ∧
    ∀ x, x ∈ s.scopes.postorder id ↔ s.scopes.find? id ≠ none ∧ s.scopes.Below id x
  /-- Their cleanups run in that order, each of them once. -/
  cleanups : (s.scopes.agenda id).filterMap Scopes.Task.cleanup? =
    (s.scopes.postorder id).flatMap s.scopes.cleanupsOf
  /-- They are live no longer. -/
  gone : ∀ x ∈ s.scopes.postorder id, s₁.scopes.find? x = none
  /-- No other scope loses anything but the scope as a child. -/
  others : ∀ x ∉ s.scopes.postorder id,
    s₁.scopes.find? x = (s.scopes.find? x).map (·.forget id)
  /-- Their computations are out of the graph. -/
  retired : ∀ x ∈ s.scopes.postorder id, ∀ j ∈ s.scopes.computationsOf x,
    s₁.graph.contains j = false
  /-- All other computations are in the graph as before. -/
  spared : ∀ j, MayRead s.kinds j →
    (∀ x ∈ s.scopes.postorder id, j ∉ s.scopes.computationsOf x) →
      s₁.graph.contains j = s.graph.contains j
  /-- When what waits has been settled, to end the scope again changes nothing. -/
  again : ∀ s₂, Yields settle s₁ () s₂ → Yields (fun κ => disposeScope κ id) s₂ () s₂

/-- To end a scope again changes nothing. -/
theorem disposeScope_again (hs : s.Typed) (hid : id.index < s.scopes.next)
    (hgone : s.scopes.find? id = none) (hsettle : Yields settle s () s') :
    Yields (fun κ => disposeScope κ id) s' () s' := by
  obtain ⟨depth, hdepth⟩ := hsettle
  have hend := hdepth depth (Nat.le_refl depth)
  have hpath : Path s s' := by
    obtain ⟨-, hpost⟩ := concur_settle (interchangeable_kernel typing depth) hs
    rw [hend] at hpost
    exact hpost.1
  have hgone' := hpath.before.scopes.gone hid hgone
  obtain ⟨⟨⟩, t, ⟨m, hm⟩, rfl⟩ := gives_settle_quiet (quiet_of_settle hs hend)
  exact ⟨m, fun n hn => (disposeScope_gone hgone' _).trans (hm n hn)⟩

/-- In every state of a run, a scope that has been created ends in good order if the cleanups of it
and of all below it end normally and leave scopes and computations as they are, whatever else they
do: they may write signals. -/
theorem ends_in_order (hs : s.Reached) (hid : id.index < s.scopes.next)
    (hspare : s.CleanupsSpare id) : ∃ s₁, s.EndsInOrder id s₁ := by
  obtain ⟨s₁, hperforms⟩ := hspare.performs
  have hforest := hs.owned.forest
  have hfollows := follows_agenda hforest id s s₁ hs (fun _ _ => rfl) hperforms
  have htyped₁ := typing.path hs.typed (hperforms.path hs.typed)
  have hsubtree (x : ScopeId) : x ∈ s.scopes.postorder id ↔
      s.scopes.find? id ≠ none ∧ s.scopes.Below id x := by
    by_cases hlive : s.scopes.find? id = none
    · simp [Scopes.postorder_gone hlive, hlive]
    · simp only [hforest.mem_postorder hlive, ne_eq, hlive, not_false_eq_true, true_and]
  have hretires (j : NodeId) : .retire j ∈ s.scopes.agenda id ↔
      ∃ x ∈ s.scopes.postorder id, j ∈ s.scopes.computationsOf x := by
    rw [← List.mem_flatMap, ← hforest.retires_agenda, List.mem_filterMap]
    constructor
    · exact fun h => ⟨_, h, rfl⟩
    · rintro ⟨task, htask, hj⟩
      cases task with
      | retire i =>
        cases hj
        exact htask
      | _ => cases hj
  have hgone : s₁.scopes.find? id = none := hfollows.gone id .refl
  refine ⟨s₁, ⟨hperforms, hfollows.run⟩, fun x scope hx => ?_,
    fun done rest t heq hdone hrest h => ?_,
    ⟨hforest.nodup_postorder id, hsubtree⟩, hforest.cleanups_agenda id, fun x hx => ?_,
    fun x hx => ?_, fun x hx j hj => ?_, fun j hj hnone => ?_, fun s₂ hsettle => ?_⟩
  · exact ⟨hforest.order hx, hforest.agenda_eq hx⟩
  · exact h.canFlush hforest heq hdone hrest hs.typed
  · exact hfollows.gone x ((hsubtree x).1 hx).2
  · by_cases hbelow : s.scopes.Below id x
    · have hdead : s.scopes.find? id = none := by
        by_contra hlive
        exact hx ((hsubtree x).2 ⟨hlive, hbelow⟩)
      rw [Scopes.agenda_gone hdead, performs_nil] at hperforms
      rcases Relation.ReflTransGen.cases_head hbelow with rfl | ⟨c, ⟨sc, hsc, -⟩, -⟩
      · rw [hgone, hdead]
        rfl
      · simp [hdead] at hsc
    · exact hfollows.others x hbelow
  · have hmay : MayRead s.kinds j := by
      rw [Scopes.computationsOf] at hj
      cases hsx : s.scopes.find? x with
      | none => simp [hsx] at hj
      | some sx => exact hs.owned.computations hsx (by simpa [hsx] using hj)
    rw [Bool.eq_false_iff]
    exact fun hlive => ((hperforms.contains hs.typed hmay).1 hlive).2 ((hretires j).2 ⟨x, hx, hj⟩)
  · rw [Bool.eq_iff_iff, hperforms.contains hs.typed hj]
    refine ⟨And.left, fun hlive => ⟨hlive, fun hmem => ?_⟩⟩
    obtain ⟨x, hx, hj⟩ := (hretires j).1 hmem
    exact hnone x hx hj
  · have hnext := (hperforms.path hs.typed).before.scopes.next
    exact disposeScope_again htyped₁ (Nat.lt_of_lt_of_le hid hnext) hgone hsettle

/-- A cleanup is registered on a scope. -/
def State.registered (s : State) (id : ScopeId) (c : Cleanup) : State :=
  s.modifyScopes (·.modifyHoldings id fun h => { h with cleanups := h.cleanups ++ [c] })

/-- What is found when a cleanup was registered. -/
theorem find?_registered (c : Cleanup) (x : ScopeId) : (s.registered id c).scopes.find? x =
    if x = id then (s.scopes.find? x).map fun sc =>
      { sc with holdings := { sc.holdings with cleanups := sc.holdings.cleanups ++ [c] } }
    else s.scopes.find? x :=
  Scopes.find?_modifyHoldings _

/-- The current scope can be given cleanups as long as it is live. -/
theorem addCleanup?_current (hcurrent : s.scopes.current? = some id)
    (hlive : s.scopes.find? id ≠ none) (c : Cleanup) :
    s.scopes.addCleanup? c = some (s.registered id c).scopes := by
  have hcontains : id ∈ s.scopes.live := by
    rw [Std.HashMap.mem_iff_contains, Scopes.contains_eq, Option.isSome_iff_ne_none]
    exact hlive
  rw [Scopes.addCleanup?, hcurrent]
  simp [hcontains, guard, State.registered, State.modifyScopes]

/-- Registering a cleanup on the current scope is a chain of changes. -/
theorem leads_registered (hcurrent : s.scopes.current? = some id) (hlive : s.scopes.find? id ≠ none)
    (c : Cleanup) : Leads s (s.registered id c) :=
  .one (.cleanup c (addCleanup?_current hcurrent hlive c))

/-- A signal "s", and a current scope. -/
def State.entered : State :=
  ((({} : State).withNode .source (.signal (.int 0))).named "s" (.signal ⟨0⟩)).withScope none
    |>.modifyScopes (·.enter ⟨0⟩)

/-- A scope is created and entered. -/
theorem leads_entered : Leads {} State.entered := by
  have hsignal : Leads {} (({} : State).withNode .source (.signal (.int 0))) :=
    .one (.newSource (.signal (.int 0)) rfl)
  exact ((hsignal.tail (.name "s" (.signal ⟨0⟩) rfl)).tail (.newScope none)).tail (.enterScope ⟨0⟩)

/-- There is one scope, and it holds nothing. -/
theorem find?_entered (x : ScopeId) :
    State.entered.scopes.find? x = if x = ⟨0⟩ then some { parent := none } else none := by
  have hparent : ({} : Scopes Cleanup Handler).parentFor none = none := rfl
  refine (Scopes.find?_create (t := {}) (x := x) none).trans ?_
  simp [hparent, Scopes.find?]

/-- A cleanup is registered on the scope. -/
def State.housed (c : Cleanup) : State := State.entered.registered ⟨0⟩ c

/-- There is one scope, and it holds a cleanup. -/
theorem find?_housed (c : Cleanup) (x : ScopeId) : (State.housed c).scopes.find? x =
    if x = ⟨0⟩ then some { parent := none, holdings := { cleanups := [c] } } else none := by
  rw [State.housed, find?_registered, find?_entered]
  split <;> rfl

/-- The engine comes to the scope that holds a cleanup. -/
theorem reached_housed (c : Cleanup) : (State.housed c).Reached :=
  ⟨∅, Leads.path (leads_entered.trans (leads_registered rfl (by simp [find?_entered]) c))⟩

/-- A scope is created inside it and made current. -/
def State.inside (c : Cleanup) : State :=
  ((State.housed c).withScope (some ⟨0⟩)).modifyScopes (·.enter ⟨1⟩)

/-- There is a scope below the one that holds the cleanup. -/
theorem find?_inside (c : Cleanup) (x : ScopeId) : (State.inside c).scopes.find? x =
    if x = ⟨1⟩ then some { parent := some ⟨0⟩ }
    else if x = ⟨0⟩ then
      some { parent := none, holdings := { children := [⟨1⟩], cleanups := [c] } }
    else none := by
  have hparent : (State.housed c).scopes.parentFor (some ⟨0⟩) = some ⟨0⟩ := by
    simp [Scopes.parentFor, Scopes.contains_eq, find?_housed]
  refine (Scopes.find?_create (t := (State.housed c).scopes) (x := x) (some ⟨0⟩)).trans ?_
  rw [hparent, find?_housed, show (State.housed c).scopes.next = 1 from rfl]
  by_cases hx : x = ⟨0⟩
  · subst hx
    rfl
  · simp [hx, Ne.symm hx]

/-- The scope inside gets another cleanup. -/
def State.nested (c c' : Cleanup) : State := (State.inside c).registered ⟨1⟩ c'

private theorem reached_nested (c c' : Cleanup) : (State.nested c c').Reached := by
  have hinside : Leads (State.housed c) (State.inside c) :=
    (Relation.ReflTransGen.single (.newScope (some ⟨0⟩))).tail (.enterScope ⟨1⟩)
  exact (reached_housed c).path
    (Leads.path (hinside.trans (leads_registered rfl (by simp [find?_inside]) c')))

/-- No other cleanups are there. -/
theorem cleanupsOf_nested {c c' d : Cleanup} {x : ScopeId}
    (h : d ∈ (State.nested c c').scopes.cleanupsOf x) : d = c ∨ d = c' := by
  rw [Scopes.cleanupsOf, State.nested, find?_registered, find?_inside] at h
  split at h
  · exact .inr (by simpa using h)
  · split at h
    · exact .inl (by simpa using h)
    · simp at h

/-- A cleanup that writes the signal "s". -/
def Cleanup.writing (v : Json) : Cleanup := .program
    (.op (.set "s" v) fun _ => .stop (.value .null))

/-- A scope and the one inside it end in good order, when the cleanups of both write a signal. -/
theorem nested_ends_in_order :
    (State.nested (.writing (.int 1)) (.writing (.int 2))).Reached ∧
      0 < (State.nested (.writing (.int 1)) (.writing (.int 2))).scopes.next ∧
      (State.nested (.writing (.int 1)) (.writing (.int 2))).CleanupsSpare ⟨0⟩ ∧
      ∃ s₁, (State.nested (.writing (.int 1)) (.writing (.int 2))).EndsInOrder ⟨0⟩ s₁ := by
  have hreached := reached_nested (.writing (.int 1)) (.writing (.int 2))
  have hspare : (State.nested (.writing (.int 1)) (.writing (.int 2))).CleanupsSpare ⟨0⟩ := by
    refine cleanupsSpare_of_writes hreached rfl fun x _ d hd => ?_
    rcases cleanupsOf_nested hd with rfl | rfl
    all_goals exact Program.Over.op (.set "s" trivial) fun _ _ => .stop trivial
  exact ⟨hreached, by decide, hspare, ends_in_order hreached (by decide) hspare⟩

/-! ## Cleanups that do not spare the rest -/

/-- A panic in the end of a scope leaves the batch around it. -/
theorem disposeScope_error {scope : Scopes.Scope Cleanup Handler} {κ : Kernel} {e : Interrupt}
    (hid : s.scopes.find? id = some scope)
    (h : teardown κ scope.holdings
      { s.modifyQueue Queue.enterBatch with scopes := (s.scopes.remove id).2 } = .error e s') :
    disposeScope κ id s = .error e (s'.sweep.modifyQueue Queue.exitBatch) := by
  have hremove : removeScope κ id (s.modifyQueue Queue.enterBatch) = .error e s'.sweep :=
    (removeScope_live (s := s.modifyQueue Queue.enterBatch) hid κ).trans (guarding_error h _)
  exact run_bind_error (onInterrupt_error hremove (·.modifyQueue Queue.exitBatch)) _

/-- To write a signal while a computed value is being evaluated is a panic. -/
theorem exec_set_forbidden {x : String} {node : NodeId} (hx : (s.handle? x).bind Handle.signal? =
    some node) (hderived : s.tracking.inDerived = true) (v : Json) (next : Option Json → Program)
    (κ : Kernel) : exec κ (.op (.set x v) next) s = .error (.panic forbiddenWrite) s := by
  have hset : performOp κ (.set x v) s = .error (.panic forbiddenWrite) s := by
    rw [performOp, withHandle]
    refine (run_bind_ok (x := get) (a := s) rfl).trans ?_
    simp only [hx]
    refine run_bind_error (run_bind_error ?_ _) _
    rw [ensureWritable]
    refine (run_bind_ok (x := get) (a := s) rfl).trans ?_
    simp only [hderived, if_true]
    rfl
  rw [exec]
  exact run_bind_error hset _

/-- So no cleanup behind one that does so runs. -/
theorem disposeScope_forbidden {scope : Scopes.Scope Cleanup Handler} {x : String} {node : NodeId}
    {v : Json} {next : Option Json → Program} {cs : List Cleanup}
    (hid : s.scopes.find? id = some scope) (hchildren : scope.holdings.children = [])
    (hcleanups : scope.holdings.cleanups = .program (.op (.set x v) next) :: cs)
    (hx : (s.handle? x).bind Handle.signal? = some node) (hderived : s.tracking.inDerived = true) :
    ∃ s', s'.log = s.log ∧
      ∀ n, disposeScope (kernel (n + 1)) id s = .error (.panic forbiddenWrite) s' := by
  have hrun (n : Nat) (u : State) (hu : (u.handle? x).bind Handle.signal? = some node)
      (hopen : u.tracking.inDerived = true) :
      teardown (kernel (n + 1)) scope.holdings u = .error (.panic forbiddenWrite) u := by
    have hfirst : (scope.holdings.cleanups.forM (runCleanup (kernel (n + 1)))) u =
        .error (.panic forbiddenWrite) u := by
      rw [hcleanups]
      exact run_bind_error (run_bind_error (exec_set_forbidden hu hopen v next (kernel n)) _) _
    rw [teardown, hchildren]
    exact (run_bind_ok (x := List.forM [] _) rfl).trans (run_bind_error hfirst _)
  refine ⟨_, ?_, fun n => disposeScope_error hid (hrun n _ hx hderived)⟩
  exact (State.letsGo_sweep _).log

/-- A program that registers another one as a cleanup of a scope. -/
def registering (x : String) (p : Program) : Program :=
  .within (.scope x) (.install .cleanup (fun _ => p) fun _ => .stop (.value .null))
    fun _ _ => .stop (.value .null)

/-- A program registers a cleanup on the scope of a name. -/
theorem exec_registering {x : String} (hx : (s.handle? x).bind s.scopeOf? = some id)
    (hlive : s.scopes.find? id ≠ none) (p : Program) (n : Nat) :
    exec (kernel (n + 1)) (registering x p) s = .ok (.value .null)
      (((s.modifyScopes (·.enter id)).registered id (.program p)).modifyScopes (·.leave id)) := by
  have hadd : addCleanup p (s.modifyScopes (·.enter id)) =
      .ok none ((s.modifyScopes (·.enter id)).registered id (.program p)) := by
    have hsome := addCleanup?_current (s := s.modifyScopes (·.enter id)) rfl hlive (.program p)
    show EStateM.Result.ok _ _ = _
    rw [hsome]
    rfl
  have hinstall : (kernel (n + 1)).exec (.install .cleanup (fun _ => p)
    fun _ => .stop (.value .null))
      (s.modifyScopes (·.enter id)) =
      .ok (.value .null) ((s.modifyScopes (·.enter id)).registered id (.program p)) := by
    show exec (kernel n) (.install .cleanup (fun _ => p) fun _ => .stop (.value .null)) _ = _
    rw [exec]
    exact run_bind_ok hadd
  have henclose : enclose (kernel (n + 1)) (.scope x)
      (.install .cleanup (fun _ => p) fun _ => .stop (.value .null)) s =
      .ok (.value .null, none)
        (((s.modifyScopes (·.enter id)).registered id (.program p)).modifyScopes (·.leave id)) := by
    rw [enclose]
    refine (run_bind_ok (x := get) (a := s) rfl).trans ?_
    simp only [hx]
    exact run_bind_ok (guarding_ok hinstall (·.modifyScopes (·.leave id)))
  rw [registering, exec]
  exact run_bind_ok henclose

/-- What a cleanup registers on another scope stays there. -/
theorem disposeScope_registering {other : ScopeId} {scope : Scopes.Scope Cleanup Handler}
    {x : String} {p : Program} (hid : s.scopes.find? id = some scope)
    (hholdings : scope.holdings = { cleanups := [.program (registering x p)] })
    (hx : (s.handle? x).bind s.scopeOf? = some other) (hne : other ≠ id)
    (hlive : s.scopes.find? other ≠ none) (hclients : s.clients.isEmpty = true) (hquiet : s.Quiet) :
    ∃ s', Yields (fun κ => disposeScope κ id) s () s' ∧
      s'.scopes.cleanupsOf other = s.scopes.cleanupsOf other ++ [.program p] := by
  let u : State := { s.modifyQueue Queue.enterBatch with scopes := (s.scopes.remove id).2 }
  let v := ((u.modifyScopes (·.enter other)).registered other (.program p)).modifyScopes
    (·.leave other)
  obtain ⟨sc, hsc⟩ := Option.ne_none_iff_exists'.1 hlive
  obtain ⟨su, hsu, hcleanups⟩ : ∃ su, u.scopes.find? other = some su ∧
      su.holdings.cleanups = sc.holdings.cleanups := by
    have hfind : u.scopes.find? other = _ := Scopes.find?_remove hid
    rw [hfind, if_neg hne, hsc]
    split
    · exact ⟨_, rfl, rfl⟩
    · exact ⟨_, rfl, rfl⟩
  have hrun (n : Nat) : teardown (kernel (n + 2)) scope.holdings u = .ok () v := by
    have hx' : (u.handle? x).bind u.scopeOf? = some other := hx
    have hperform : (kernel (n + 2)).perform (registering x p) u = .ok () v :=
      run_bind_ok (exec_registering hx' (by simp [hsu]) p n)
    rw [teardown, hholdings]
    exact run_bind_ok (run_bind_ok hperform)
  have hends (n : Nat) : disposeScope (kernel (n + 2)) id s =
      settle (kernel (n + 2)) (v.modifyQueue Queue.exitBatch) := by
    refine batch_eq ((removeScope_live (s := s.modifyQueue Queue.enterBatch) hid _).trans ?_)
    refine (guarding_ok (hrun n) _).trans ?_
    rw [State.sweep, if_pos (show v.clients.isEmpty = true from hclients)]
  have hquiet' : (v.modifyQueue Queue.exitBatch).Quiet := hquiet
  obtain ⟨_, _, ⟨depth, hdepth⟩, rfl⟩ := gives_settle_quiet hquiet'
  refine ⟨v.modifyQueue Queue.exitBatch, ⟨depth + 2, fun n hn => ?_⟩, ?_⟩
  · obtain ⟨m, rfl⟩ := Nat.exists_eq_add_of_le' (Nat.le_trans (Nat.le_add_left 2 depth) hn)
    exact (hends m).trans (hdepth _ (by omega))
  · have hfind : v.scopes.find? other = _ :=
      find?_registered (s := u.modifyScopes (·.enter other)) (.program p) other
    rw [show (v.modifyQueue Queue.exitBatch).scopes = v.scopes from rfl, Scopes.cleanupsOf, hfind,
      if_pos rfl, show (u.modifyScopes (·.enter other)).scopes.find? other = some su from hsu,
      Scopes.cleanupsOf, hsc]
    simp [hcleanups]

/-- A cleanup that logs. -/
def Cleanup.logging (v : Json) : Cleanup := .program (.op (.log v) fun _ => .stop (.value .null))

/-- A computed value is being evaluated while a scope is live whose first cleanup writes a signal
and whose second one logs. -/
def State.evaluating : State :=
  ((State.housed (.writing (.int 1))).registered ⟨0⟩ (.logging (.str "second"))).modifyTracking
    (·.enter (.derived ⟨1⟩))

private theorem find?_evaluating : State.evaluating.scopes.find? ⟨0⟩ = some
    { parent := none
      holdings := { cleanups := [.writing (.int 1), .logging (.str "second")] } } := by
  show ((State.housed _).registered ⟨0⟩ _).scopes.find? ⟨0⟩ = _
  rw [find?_registered, find?_housed]
  rfl

private theorem reached_evaluating : State.evaluating.Reached := by
  have hlogs : Leads (State.housed (.writing (.int 1)))
      ((State.housed (.writing (.int 1))).registered ⟨0⟩ (.logging (.str "second"))) :=
    leads_registered rfl (by simp [find?_housed]) _
  exact (reached_housed _).path ((Leads.path hlogs).tail (.inr (.openSection (.derived ⟨1⟩))))

/-- A scope is live whose cleanup registers a cleanup on the scope "b". -/
def State.neighbouring : State :=
  ((State.housed (.program (registering "b" (.stop (.value .null))))).withScope none).named "b"
    (.scope ⟨1⟩)

/-- There are two scopes side by side. -/
theorem find?_neighbouring (x : ScopeId) : State.neighbouring.scopes.find? x =
    if x = ⟨1⟩ then some { parent := none }
    else if x = ⟨0⟩ then some
      { parent := none
        holdings := { cleanups := [.program (registering "b" (.stop (.value .null)))] } }
    else none := by
  refine (Scopes.find?_create (t := (State.housed _).scopes) (x := x) none).trans ?_
  rw [find?_housed, if_neg (by simp [Scopes.parentFor] : ¬ Scopes.parentFor _ none = some x)]
  rfl

private theorem reached_neighbouring : State.neighbouring.Reached := by
  have hcreated : Leads (State.housed (.program (registering "b" (.stop (.value .null))))) _ :=
    .one (.newScope none)
  exact (reached_housed _).path (Leads.path (hcreated.tail (.name "b" (.scope ⟨1⟩) trivial)))

/-- A cleanup that writes a signal can keep another one from running, and a cleanup can give a scope
that is neither ended nor below that one a cleanup. Neither creates or ends a scope or a
computation. -/
theorem disposal_not_orderly :
    (State.evaluating.Reached ∧ State.evaluating.log = [] ∧
      State.evaluating.scopes.cleanupsOf ⟨0⟩ = [.writing (.int 1), .logging (.str "second")] ∧
      ∃ s', s'.log = [] ∧ ∀ n,
        disposeScope (kernel (n + 1)) ⟨0⟩ State.evaluating = .error (.panic forbiddenWrite) s') ∧
    (State.neighbouring.Reached ∧ ⟨1⟩ ∉ State.neighbouring.scopes.postorder ⟨0⟩ ∧
      State.neighbouring.scopes.cleanupsOf ⟨1⟩ = [] ∧
      ∃ s', Yields (fun κ => disposeScope κ ⟨0⟩) State.neighbouring () s' ∧
        s'.scopes.cleanupsOf ⟨1⟩ = [.program (.stop (.value .null))]) := by
  refine ⟨⟨reached_evaluating, rfl, ?_, ?_⟩, reached_neighbouring, ?_, ?_, ?_⟩
  · rw [Scopes.cleanupsOf, find?_evaluating]
    rfl
  · exact disposeScope_forbidden find?_evaluating rfl rfl rfl rfl
  · have hforest := reached_neighbouring.owned.forest
    rw [hforest.mem_postorder (by simp [find?_neighbouring])]
    intro hbelow
    rcases Relation.ReflTransGen.cases_head hbelow with h | ⟨c, ⟨sc, hsc, hc⟩, -⟩
    · simp at h
    · rw [find?_neighbouring] at hsc
      simp at hsc
      simp [← hsc] at hc
  · rw [Scopes.cleanupsOf, find?_neighbouring]
    rfl
  · have hother := find?_neighbouring ⟨1⟩
    obtain ⟨s', hends, hadded⟩ := disposeScope_registering (find?_neighbouring ⟨0⟩) rfl
      (show (State.neighbouring.handle? "b").bind State.neighbouring.scopeOf? = some ⟨1⟩ from rfl)
      (by simp) (by simp [hother]) (Std.HashMap.isEmpty_empty) fun _ => ⟨rfl, rfl⟩
    refine ⟨s', hends, ?_⟩
    rw [hadded, Scopes.cleanupsOf, hother]
    rfl

end Rivulet.Engine
