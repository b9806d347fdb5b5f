import Rivulet.Proofs.Batching.Reacting
import Rivulet.Proofs.Recomputing.Steps

/-!
# Runs under supervision

Programs that react create, read and write signals, computed values and effects, and what computed
values and effects do is to read. A supervisor watches each computation that is about to run again:
something that it has read must have another epoch, and the epoch of a computed value must stay
where it is unless another value comes out. The supervised engine does the same as the engine if
the parts that it is made of do, and so this module relates the parts one by one.
-/

namespace Rivulet

/-- A call that reads, logs or shows something, creates a signal or a scope, or changes which scopes
are current. -/
inductive Op.Looks : Op → Prop where
  /-- Logging. -/
  | log (v : Json) : Looks (.log v)
  /-- A tracked read. -/
  | get (x : String) : Looks (.get x)
  /-- An untracked read. -/
  | peek (x : String) : Looks (.peek x)
  /-- A tracked read of the size of a value. -/
  | size (x : String) : Looks (.size x)
  /-- A read of the state of a query. -/
  | state (x : String) : Looks (.state x)
  /-- A read of whether a query is loading. -/
  | loading (x : String) : Looks (.loading x)
  /-- A look at a handle. -/
  | inspect (x : String) : Looks (.inspect x)
  /-- A look at a handle, in one line. -/
  | debug (x : String) : Looks (.debug x)
  /-- A look at the engine. -/
  | stats : Looks .stats
  /-- A new signal. -/
  | signal (name : Option String) (v : Json) : Looks (.signal name v)
  /-- A new signal in two halves. -/
  | pair (name : Option String) (v : Json) : Looks (.pair name v)
  /-- A new current scope. -/
  | pushScope (name : Option String) : Looks (.pushScope name)
  /-- A scope becomes current. -/
  | enterScope (scope : String) (guard : Option String) : Looks (.enterScope scope guard)
  /-- A scope is not current any more. -/
  | popScope (guard : String) : Looks (.popScope guard)
  /-- The same, without an answer. -/
  | dropGuard (guard : String) : Looks (.dropGuard guard)
  /-- A new scope under the current one. -/
  | createScope (name : Option String) : Looks (.createScope name)
  /-- A new scope without a parent. -/
  | createRoot (name : Option String) : Looks (.createRoot name)
  /-- A new scope under another one. -/
  | createChild (name : Option String) (parent : String) : Looks (.createChild name parent)

/-- A call that writes a signal. -/
inductive Op.Stores : Op → Prop where
  /-- A write. -/
  | set (x : String) (v : Json) : Stores (.set x v)
  /-- A write that may be refused. -/
  | trySet (x : String) (v : Json) : Stores (.trySet x v)
  /-- An update. -/
  | update (x : String) (v : Json) : Stores (.update x v)
  /-- An update that may be refused. -/
  | tryUpdate (x : String) (v : Json) : Stores (.tryUpdate x v)

/-- A program of signals, computed values and effects, which may write or not. What computed values
and effects do, does not. -/
inductive Program.Reacts : Bool → Program → Prop where
  /-- The end. -/
  | stop {writes : Bool} (o : Outcome) : Reacts writes (.stop o)
  /-- A breakdown. -/
  | panic {writes : Bool} (message : String) : Reacts writes (.panic message)
  /-- Looking and creating. -/
  | look {writes : Bool} {o : Op} {next : Option Json → Program} (looks : o.Looks)
      (rest : ∀ a, Reacts writes (next a)) : Reacts writes (.op o next)
  /-- Writing. -/
  | write {o : Op} {next : Option Json → Program} (writes : o.Stores)
      (rest : ∀ a, Reacts true (next a)) : Reacts true (.op o next)
  /-- A part, maybe inside a batch or an untracked section, or with a scope current. -/
  | within {writes : Bool} {e : Enclosure} {body : Program}
      {next : Outcome → Option Json → Program} (enclosure : ∀ mode node, e ≠ .walk mode node)
      (inside : Reacts writes body) (rest : ∀ o a, Reacts writes (next o a)) :
      Reacts writes (.within e body next)
  /-- A new computed value. -/
  | computed {writes : Bool} {name : Option String} {body : Json → Program}
      {next : Option Json → Program} (quiet : Reacts false (body .null))
      (rest : ∀ a, Reacts writes (next a)) : Reacts writes (.install (.computed name) body next)
  /-- A new effect. -/
  | effect {writes : Bool} {name : Option String} {fallible : Bool} {body : Json → Program}
      {next : Option Json → Program} (quiet : Reacts false (body .null))
      (rest : ∀ a, Reacts writes (next a)) :
      Reacts writes (.install (.effect name fallible) body next)

/-- What a node has recorded is no longer so: something that it has read has another epoch. Of a
computed value this can only be told when it is up to date. -/
def Graph.Outdated (g : Graph) (n : Graph.Node) : Prop :=
  ∃ seen ∈ n.dependencies, ∃ m, g.find? seen.node = some m ∧
    (m.kind = .derived → m.mark = .clean) ∧ m.epoch ≠ seen.epoch

namespace Engine

open State

namespace State

/-- A node may run that has never run before, or whose record is outdated. One that is sheltered may
not before the border has changed. -/
def MayRerun (σ : Shelter) (s : State) (id : NodeId) (n : Graph.Node) : Prop :=
  σ.Frees s id ∧ (s.Whole → s.RanBefore id → s.graph.Outdated n)

/-- A computed value that has run again has the epoch that it had, unless it keeps another value. -/
def KeepsEpoch (s : State) (id : NodeId) (s' : State) : Prop :=
  s'.Whole → ∀ p old, s.cells[id]? = some (.computed p (some old)) →
    s'.graph.epoch? id = s.graph.epoch? id ∨
      ∃ v, s'.cells[id]? = some (.computed p (some v)) ∧ (old == v) = false

/-- The states of programs that react. -/
abbrev InOrder (σ : Shelter) (s : State) : Prop := s.Sober (Program.Reacts false) σ

/-- A part of a run at the end of which the same sections are open as at its beginning. -/
structure Upholds (writes : Bool) (s s' : State) : Prop where
  /-- Its nodes go on. -/
  progress : s.Progress writes s'
  /-- The same sections are open. -/
  observers : s'.tracking.sections.map (·.observer) = s.tracking.sections.map (·.observer)

/-- Behind a refresh, a node that is still there is up to date. -/
def Fresh (s : State) (id : NodeId) : Prop :=
  s.Whole → ∀ n, s.graph.find? id = some n → n.mark = .clean

end State

/-- Brings a node up to date. What runs it is told what the node was when it was asked for. -/
def refreshBy (run : Graph.Node → Run Unit) (κ : Kernel) (id : NodeId) : Run Unit := do
  match (← get).graph.find? id with
  | none => return
  | some n =>
    match n.mark with
    | .clean => return
    | .dirty => run n
    | .maybeDirty =>
      if ← dependenciesChanged κ n.dependencies then run n
      else modify (·.modifyGraph (·.request id .clean))

/-- Bringing a node up to date without supervision. -/
theorem refresh_eq (κ : Kernel) (id : NodeId) :
    refresh κ id = refreshBy (fun _ => rerun κ id) κ id := rfl

open Classical in
/-- Runs the computation behind a node, and raises an alarm if it has no reason to run, or if its
epoch moves without its value. -/
noncomputable def attended (σ : Shelter) (alarm : Interrupt) (κ : Kernel) (id : NodeId)
    (n : Graph.Node) : Run Unit := fun s =>
  if s.MayRerun σ id n then
    match rerun κ id s with
    | .ok _ s' => if s.KeepsEpoch id s' then .ok () s' else .error alarm s'
    | .error e s' => .error e s'
  else .error alarm s

open Classical in
/-- Raises an alarm if something is not clean any more for no reason. -/
noncomputable def ensureRests (σ : Shelter) (alarm : Interrupt) (id : NodeId) : Run Unit := fun s =>
  if σ.Rests s id then .ok () s else .error alarm s

/-- The kernel in which every computation is attended. -/
noncomputable def supervised (σ : Shelter) (alarm : Interrupt) : Nat → Kernel
  | 0 => fun _ => throw .outOfFuel
  | n + 1 => fun
    | .refresh id => do
      ensureRests σ alarm id
      refreshBy (attended σ alarm (supervised σ alarm n) id) (supervised σ alarm n) id
      return .value .null
    | c => answer (supervised σ alarm n) c

variable {σ : Shelter} {writes : Bool} {s s' s'' : State} {id : NodeId}

namespace State

theorem Upholds.refl (s : State) : s.Upholds writes s := ⟨.refl s, rfl⟩

theorem Upholds.trans (h : s.Upholds writes s') (h' : s'.Upholds writes s'') :
    s.Upholds writes s'' :=
  ⟨h.progress.trans h'.progress fun j hj =>
    (Tracking.isRunning_of_observers h.observers j).trans hj, h'.observers.trans h.observers⟩

/-- The same nodes run. -/
theorem Upholds.isRunning (h : s.Upholds writes s') (j : NodeId) :
    s'.tracking.isRunning j = s.tracking.isRunning j :=
  Tracking.isRunning_of_observers h.observers j

/-- Where nothing was going on, nothing is. -/
theorem Upholds.still (h : s.Upholds writes s') (hs : s.Still) : s'.Still :=
  fun j => (h.isRunning j).trans (hs j)

/-- A chain of changes opens and closes nothing. -/
theorem upholds_of_leads (hleads : Leads s s') (h : s'.InOrder σ ∧ s.Progress writes s') :
    s'.InOrder σ ∧ s.Upholds writes s' := ⟨h.1, h.2, hleads.onward.1.observers⟩

end State

/-- From a state in order two runs do the same, and lead to a state in order. -/
def Heeds {α : Type} (σ : Shelter) (writes : Bool) (P : α → State → Prop) (x y : Run α)
    (s : State) : Prop :=
  s.InOrder σ → x s = y s ∧ match x s with
    | .ok a s' => s'.InOrder σ ∧ s.Upholds writes s' ∧ P a s'
    | .error _ s' => s'.InOrder σ ∧ s.Upholds writes s'

namespace Heeds

variable {α β : Type} {P P' : α → State → Prop} {Q : β → State → Prop}

/-- A run that only gives a result. -/
theorem ret {a : α} (h : s.InOrder σ → P a s) : Heeds σ writes P (pure a : Run α) (pure a) s :=
  fun hs => ⟨rfl, hs, .refl s, h hs⟩

/-- A run that only fails. -/
theorem raise (e : Interrupt) : Heeds σ writes P (throw e : Run α) (throw e) s :=
  fun hs => ⟨rfl, hs, .refl s⟩

/-- A change of the state with a result. -/
theorem stepGet {f : State → α × State}
    (h : s.InOrder σ → (f s).2.InOrder σ ∧ s.Upholds writes (f s).2)
    (hP : s.InOrder σ → P (f s).1 (f s).2) :
    Heeds σ writes P (modifyGet f : Run α) (modifyGet f) s :=
  fun hs => ⟨rfl, (h hs).1, (h hs).2, hP hs⟩

/-- A change of the state that upholds the order. -/
theorem step {f : State → State} (h : s.InOrder σ → (f s).InOrder σ ∧ s.Upholds writes (f s)) :
    Heeds σ writes Whatever (modify f : Run Unit) (modify f) s :=
  .stepGet h fun _ => trivial

/-- A run from a later state, as part of one from here. -/
theorem after {x y : Run α} (hu : s.Upholds writes s') (h : Heeds σ writes P x y s')
    (hs : s'.InOrder σ) : x s' = y s' ∧ match x s' with
      | .ok a s'' => s''.InOrder σ ∧ s.Upholds writes s'' ∧ P a s''
      | .error _ s'' => s''.InOrder σ ∧ s.Upholds writes s'' := by
  obtain ⟨heq, hpost⟩ := h hs
  refine ⟨heq, ?_⟩
  cases hr : x s' with
  | ok a s'' =>
    rw [hr] at hpost
    exact ⟨hpost.1, hu.trans hpost.2.1, hpost.2.2⟩
  | error e s'' =>
    rw [hr] at hpost
    exact ⟨hpost.1, hu.trans hpost.2⟩

/-- Two runs one after the other. -/
theorem bind {x y : Run α} {f g : α → Run β} (hx : Heeds σ writes P x y s)
    (hf : ∀ a s', s.Upholds writes s' → P a s' → Heeds σ writes Q (f a) (g a) s') :
    Heeds σ writes Q (x >>= f) (y >>= g) s := by
  intro hs
  obtain ⟨heq, hpost⟩ := hx hs
  show EStateM.bind x f s = EStateM.bind y g s ∧ match EStateM.bind x f s with
    | .ok b s' => s'.InOrder σ ∧ s.Upholds writes s' ∧ Q b s'
    | .error _ s' => s'.InOrder σ ∧ s.Upholds writes s'
  rw [EStateM.bind, EStateM.bind, ← heq]
  cases hr : x s with
  | error e s' =>
    rw [hr] at hpost
    exact ⟨rfl, hpost⟩
  | ok a s' =>
    rw [hr] at hpost
    exact after hpost.2.1 (hf a s' hpost.2.1 hpost.2.2) hpost.1

/-- A look at the state. -/
theorem look {f g : State → Run β} (h : s.InOrder σ → Heeds σ writes Q (f s) (g s) s) :
    Heeds σ writes Q (get >>= f) (get >>= g) s := fun hs => h hs hs

/-- A change of the state, behind which a run starts. -/
theorem change {f : State → State} {k k' : Unit → Run β}
    (h : s.InOrder σ → (f s).InOrder σ ∧ s.Upholds writes (f s))
    (hk : s.Upholds writes (f s) → Heeds σ writes Q (k ()) (k' ()) (f s)) :
    Heeds σ writes Q (modify f >>= k) (modify f >>= k') s := by
  intro hs
  refine Heeds.bind (P := fun _ s' => s' = f s) (.stepGet h fun _ => rfl) ?_ hs
  rintro ⟨⟩ _ hu rfl
  exact hk hu

/-- The result may be described more weakly. -/
theorem mono {x y : Run α} (h : Heeds σ writes P x y s)
    (hP : ∀ a s', s.Upholds writes s' → P a s' → P' a s') : Heeds σ writes P' x y s := by
  intro hs
  obtain ⟨heq, hpost⟩ := h hs
  refine ⟨heq, ?_⟩
  cases hr : x s with
  | ok a s' =>
    rw [hr] at hpost
    exact ⟨hpost.1, hpost.2.1, hP a s' hpost.2.1 hpost.2.2⟩
  | error e s' =>
    rw [hr] at hpost
    exact hpost

/-- Something is restored, however both end. -/
theorem guarding {restore : State → State} {x y : Run α} (h : Heeds σ writes P x y s)
    (hr : ∀ s' : State, s'.InOrder σ → (restore s').InOrder σ ∧ s'.Upholds writes (restore s'))
    (hP : ∀ a s', s'.InOrder σ → s.Upholds writes s' → P a s' → P' a (restore s')) :
    Heeds σ writes P' (guarding restore x) (guarding restore y) s := by
  intro hs
  obtain ⟨heq, hpost⟩ := h hs
  rw [Engine.guarding, Engine.guarding, ← heq]
  refine ⟨rfl, ?_⟩
  cases he : x s with
  | ok a s' =>
    rw [he] at hpost
    obtain ⟨horder, hu⟩ := hr s' hpost.1
    exact ⟨horder, hpost.2.1.trans hu, hP a s' hpost.1 hpost.2.1 hpost.2.2⟩
  | error e s' =>
    rw [he] at hpost
    obtain ⟨horder, hu⟩ := hr s' hpost.1
    exact ⟨horder, hpost.2.trans hu⟩

/-- Something is restored if both fail. -/
theorem onInterrupt {restore : State → State} {x y : Run α} (h : Heeds σ writes P x y s)
    (hr : ∀ s' : State, s'.InOrder σ → (restore s').InOrder σ ∧ s'.Upholds writes (restore s')) :
    Heeds σ writes P (onInterrupt restore x) (onInterrupt restore y) s := by
  intro hs
  obtain ⟨heq, hpost⟩ := h hs
  rw [Engine.onInterrupt, Engine.onInterrupt, ← heq]
  refine ⟨rfl, ?_⟩
  cases he : x s with
  | ok a s' =>
    rw [he] at hpost
    exact hpost
  | error e s' =>
    rw [he] at hpost
    obtain ⟨horder, hu⟩ := hr s' hpost.1
    exact ⟨horder, hpost.2.trans hu⟩

/-- A run in one of two cases. -/
theorem ite {c : Prop} [Decidable c] {x x' y y' : Run α} (h : c → Heeds σ writes P x y s)
    (h' : ¬c → Heeds σ writes P x' y' s) :
    Heeds σ writes P (if c then x else x') (if c then y else y') s := by
  by_cases hc : c
  · rw [if_pos hc, if_pos hc]
    exact h hc
  · rw [if_neg hc, if_neg hc]
    exact h' hc

/-- The same for all of a list. -/
theorem forM {f g : β → Run Unit} {l : List β}
    (h : ∀ b ∈ l, ∀ s, Heeds σ writes Whatever (f b) (g b) s) :
    Heeds σ writes Whatever (l.forM f) (l.forM g) s := by
  induction l generalizing s with
  | nil => exact .ret fun _ => trivial
  | cons b l ih =>
    refine (h b List.mem_cons_self s).bind fun _ _ _ _ => ?_
    exact ih fun c hc => h c (List.mem_cons_of_mem b hc)

end Heeds

/-! ## Calls -/

/-- What a call needs: only computed values are read as such, and programs that write are run where
no computation is, by those who may write. -/
def Call.Fits (writes : Bool) (s : State) : Call → Prop
  | .exec p => p.Reacts false ∨ writes = true ∧ p.Reacts true ∧ s.Still
  | .read id => s.kinds[id.index]? = some .derived
  | _ => True

/-- What a call leaves behind: what it brings up to date is. -/
def Call.Leaves (s : State) : Call → Prop
  | .refresh id | .read id => s.Fresh id
  | _ => True

/-- Two kernels that do the same in states in order. -/
def Attentive (σ : Shelter) (κ κ' : Kernel) : Prop :=
  ∀ writes c s, c.Fits writes s → Heeds σ writes (fun _ s' => c.Leaves s') (κ c) (κ' c) s

section

variable {κ κ' : Kernel} (hκ : Attentive σ κ κ')

include hκ in
/-- The call that runs a program stays in order, supervised or not. -/
theorem heeds_callExec {p : Program}
    (hp : p.Reacts false ∨ writes = true ∧ p.Reacts true ∧ s.Still) :
    Heeds σ writes Whatever (κ.exec p) (κ'.exec p) s := hκ writes (.exec p) s hp

include hκ in
/-- The call that runs a program stays in order, supervised or not. -/
theorem heeds_callEval {p : Program} (hp : p.Reacts false) :
    Heeds σ writes Whatever (κ.eval p) (κ'.eval p) s :=
  (hκ writes (.exec p) s (.inl hp)).bind fun _ _ _ _ => .ret fun _ => trivial

include hκ in
/-- The call that brings a node up to date stays in order, supervised or not. -/
theorem heeds_callRefresh (id : NodeId) :
    Heeds σ writes (fun _ s' => s'.Fresh id) (κ.refresh id) (κ'.refresh id) s :=
  (hκ writes (.refresh id) s trivial).bind fun _ _ _ h => .ret fun _ => h

include hκ in
/-- The call that reads a computed value stays in order, supervised or not. -/
theorem heeds_callRead (h : s.kinds[id.index]? = some .derived) :
    Heeds σ writes (fun _ s' => s'.Fresh id) (κ.read id) (κ'.read id) s :=
  (hκ writes (.read id) s h).bind fun _ _ _ h => .ret fun _ => h

include hκ in
/-- The call that ends a scope stays in order, supervised or not. -/
theorem heeds_callDispose (scope : ScopeId) :
    Heeds σ writes Whatever (κ.dispose scope) (κ'.dispose scope) s :=
  (hκ writes (.dispose scope) s trivial).bind fun _ _ _ _ => .ret fun _ => trivial

include hκ in
/-- The call that does what was put off stays in order, supervised or not. -/
theorem heeds_callDrain : Heeds σ writes Whatever κ.drain κ'.drain s :=
  (hκ writes .drain s trivial).bind fun _ _ _ _ => .ret fun _ => trivial

include hκ in
/-- The call that reports an error stays in order, supervised or not. -/
theorem heeds_callReport (scope : Option ScopeId) (error : String) :
    Heeds σ writes Whatever (κ.report scope error) (κ'.report scope error) s :=
  (hκ writes (.report scope error) s trivial).bind fun _ _ _ _ => .ret fun _ => trivial

/-- Doing something while a node is in use stays in order, supervised or not. -/
theorem heeds_holding {α : Type} {P P' : α → State → Prop} {x y : Run α}
    (h : s.Upholds writes (s.hold (.node id)) → Heeds σ writes P x y (s.hold (.node id)))
    (hP : ∀ a s', s'.InOrder σ → s.Upholds writes s' → P a s' → P' a (s'.unhold (.node id))) :
    Heeds σ writes P' (holding id x) (holding id y) s := by
  refine .change (fun hs => upholds_of_leads (leads_hold s _) (hs.hold _)) fun hu => ?_
  exact (h hu).guarding (fun s' hs' => upholds_of_leads (leads_unhold s' _) (hs'.unhold id))
    fun a s' hs' hu' => hP a s' hs' (hu.trans hu')

/-- A use of which nothing is said. -/
theorem heeds_using {α : Type} {x y : Run α}
    (h : ∀ s', s.Upholds writes s' → Heeds σ writes Whatever x y s') :
    Heeds σ writes Whatever (holding id x) (holding id y) s :=
  heeds_holding (h _) fun _ _ _ _ _ => trivial

/-- Doing something in a scope stays in order, supervised or not. -/
theorem heeds_withScope {α : Type} {scope : ScopeId} {P : α → State → Prop} {x y : Run α}
    (h : ∀ s', s.Upholds writes s' → s'.graph = s.graph → s'.cells = s.cells → s'.kinds = s.kinds →
      Heeds σ writes P x y s')
    (hP : ∀ a s', P a s' → P a (s'.modifyScopes (·.leave scope))) :
    Heeds σ writes P (withScope scope x) (withScope scope y) s := by
  have henter (s : State) (hs : s.InOrder σ) : (s.modifyScopes (·.enter scope)).InOrder σ ∧
      s.Upholds writes (s.modifyScopes (·.enter scope)) :=
    upholds_of_leads (.one (.enterScope scope))
      (hs.aside (Leads.path (.one (.enterScope scope))) (hs.plain.rescoped (keeps_enter _ scope))
        rfl rfl rfl fun _ => rfl)
  have hleave (s : State) (hs : s.InOrder σ) : (s.modifyScopes (·.leave scope)).InOrder σ ∧
      s.Upholds writes (s.modifyScopes (·.leave scope)) :=
    upholds_of_leads (.one (.leaveScope scope))
      (hs.aside (Leads.path (.one (.leaveScope scope))) (hs.plain.rescoped (keeps_leave _ scope))
        rfl rfl rfl fun _ => rfl)
  exact .change (henter s) fun hu => (h _ hu rfl rfl rfl).guarding hleave fun a s' _ _ => hP a s'

/-- The section that was opened is closed again. -/
theorem observers_close {o : Tracking.Observer} {t t' : Tracking}
    (h : t'.sections.map (·.observer) = (t.enter o).sections.map (·.observer)) :
    t'.leave.2.sections.map (·.observer) = t.sections.map (·.observer) := by
  rw [Tracking.observers_leave, h]
  rfl

private theorem isRunning_untracked (s : State) (j : NodeId) :
    (s.modifyTracking (·.enter .untracked)).tracking.isRunning j = s.tracking.isRunning j := by
  simp [State.modifyTracking, Tracking.Observer.node?]

/-- An untracked section stays in order, supervised or not. -/
theorem heeds_untracked {α : Type} {x y : Run α}
    (h : ∀ s', s.Before s' → (s.Still → s'.Still) → Heeds σ writes Whatever x y s') :
    Heeds σ writes Whatever (untracked x) (untracked y) s := by
  intro hs
  obtain ⟨horder, hprogress⟩ : (s.modifyTracking (·.enter .untracked)).InOrder σ ∧
      s.Progress writes (s.modifyTracking (·.enter .untracked)) :=
    hs.enter fun id hid => nomatch hid
  have hidle : s.Still → (s.modifyTracking (·.enter .untracked)).Still := fun hidle j =>
    (isRunning_untracked s j).trans (hidle j)
  have hclose (s' : State) (hs' : s'.InOrder σ)
      (hu : (s.modifyTracking (·.enter .untracked)).Upholds writes s') :
      (s'.modifyTracking (·.leave.2)).InOrder σ ∧
        s.Upholds writes (s'.modifyTracking (·.leave.2)) := by
    obtain ⟨horder', hprogress'⟩ : (s'.modifyTracking (·.leave.2)).InOrder σ ∧
      s'.Progress writes (s'.modifyTracking (·.leave.2)) := hs'.leave
    have hfirst : s.Progress writes s' := hprogress.trans hu.progress fun j hj =>
      (isRunning_untracked s j).trans hj
    refine ⟨horder', hfirst.trans hprogress' fun j hj => ?_, observers_close hu.observers⟩
    exact (hu.isRunning j).trans ((isRunning_untracked s j).trans hj)
  obtain ⟨heq, hpost⟩ := h _ hprogress.before hidle horder
  have hrun (z : Run α) : untracked z s =
      guarding (·.modifyTracking (·.leave.2)) z (s.modifyTracking (·.enter .untracked)) := rfl
  rw [hrun, hrun, Engine.guarding, Engine.guarding, ← heq]
  refine ⟨rfl, ?_⟩
  cases hr : x (s.modifyTracking (·.enter .untracked)) with
  | ok a s' =>
    rw [hr] at hpost
    obtain ⟨horder', hu⟩ := hclose s' hpost.1 hpost.2.1
    exact ⟨horder', hu, trivial⟩
  | error e s' =>
    rw [hr] at hpost
    exact hclose s' hpost.1 hpost.2

/-- A computation of a clean node that does not run yet. At its end the node is clean, and neither
what lies behind it nor how often it has changed is another than before. -/
theorem heeds_tracked {α : Type} {o : Tracking.Observer} {x y : Run α} (ho : o.node? = some id)
    (hid : MayRead s.kinds id) (hfree : σ.Frees s id)
    (hclean : s.Whole → ∃ n, s.graph.find? id = some n ∧ n.mark = .clean)
    (h : ∀ s', Heeds σ writes Whatever x y s') :
    Heeds σ writes (fun _ s' => s'.Whole → (∃ n, s'.graph.find? id = some n ∧ n.mark = .clean) ∧
      s'.changes? id = s.changes? id ∧ s'.cells[id]? = s.cells[id]?)
      (tracked id o x) (tracked id o y) s := by
  intro hs
  obtain ⟨horder, hprogress⟩ : (s.modifyTracking (·.enter o)).InOrder σ ∧
      s.Progress writes (s.modifyTracking (·.enter o)) := by
    refine hs.enter fun j hj hw => ?_
    obtain rfl : id = j := Option.some.inj (ho.symm.trans hj)
    exact hclean hw
  have hrunning (j : NodeId) (hj : s.tracking.isRunning j = true) :
      (s.modifyTracking (·.enter o)).tracking.isRunning j = true := by
    rw [State.modifyTracking, Tracking.isRunning_enter, hj, Bool.or_true]
  have hself : (s.modifyTracking (·.enter o)).tracking.isRunning id = true := by
    rw [State.modifyTracking, Tracking.isRunning_enter, ho]
    simp
  obtain ⟨heq, hpost⟩ := h (s.modifyTracking (·.enter o)) horder
  have hrun (z : Run α) : tracked id o z s =
      (do let a ← onInterrupt (·.modifyTracking (·.leave.2)) z
          modify (·.endRun id)
          return a : Run α) (s.modifyTracking (·.enter o)) := rfl
  rw [hrun, hrun]
  cases hr : x (s.modifyTracking (·.enter o)) with
  | error e s' =>
    rw [hr] at hpost
    rw [run_bind_error (onInterrupt_error hr _), run_bind_error (onInterrupt_error (heq ▸ hr) _)]
    obtain ⟨horder', hprogress'⟩ : (s'.modifyTracking (·.leave.2)).InOrder σ ∧
      s'.Progress writes (s'.modifyTracking (·.leave.2)) := hpost.1.leave
    have hfirst : s.Progress writes s' := hprogress.trans hpost.2.progress hrunning
    refine ⟨rfl, horder', hfirst.trans hprogress' fun j hj => ?_,
      observers_close hpost.2.observers⟩
    exact (hpost.2.isRunning j).trans (hrunning j hj)
  | ok a s' =>
    rw [hr] at hpost
    obtain ⟨hs', hu, -⟩ := hpost
    rw [run_bind_ok (onInterrupt_ok hr _), run_bind_ok (onInterrupt_ok (heq ▸ hr) _)]
    have hself' : s'.tracking.isRunning id = true := (hu.isRunning id).trans hself
    have hclean' (hw : s'.Whole) : ∃ n, s'.graph.find? id = some n ∧ n.mark = .clean :=
      (hs'.justified hw).running id hself'
    have hid' : MayRead s'.kinds id := hu.progress.before.mayRead hid
    obtain ⟨horder', hprogress'⟩ : (s'.endRun id).InOrder σ ∧ s'.Progress writes (s'.endRun id) :=
      hs'.endRun hid' (hu.progress.frees (hprogress.frees hfree)) hclean'
    have hfirst : s.Progress writes s' := hprogress.trans hu.progress hrunning
    refine ⟨rfl, horder', ⟨hfirst.trans hprogress' fun j hj => ?_, observers_close hu.observers⟩,
      fun hw => ?_⟩
    · exact (hu.isRunning j).trans (hrunning j hj)
    · have hw' := hprogress'.whole hw
      have hw'' := hu.progress.whole hw'
      obtain ⟨n, hn, hmark⟩ := hclean' hw'
      obtain ⟨n', hn', -⟩ := (hprogress'.continues hw).nodes id n hn
      have hsame := (hprogress'.continues hw).running id hself'
      have hbody := (hu.progress.continues hw').running id hself
      have hmark' : n'.mark = .clean := by
        have hmaps := Graph.maps_setDependencies hn s'.tracking.leave.1
        obtain ⟨k, hk, hr⟩ := hmaps.exists_old hn'
        rw [hn, Option.some.injEq] at hk
        have hkeep := hr.mark
        rw [if_pos rfl] at hkeep
        exact hkeep.trans (hk ▸ hmark)
      exact ⟨⟨n', hn', hmark'⟩, hsame.1.trans hbody.1, hsame.2.trans hbody.2⟩

end

end Engine

end Rivulet
