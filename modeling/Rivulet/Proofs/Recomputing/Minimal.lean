import Rivulet.Proofs.Reactive.Reading
import Rivulet.Proofs.Recomputing.Attending

/-!
# Recomputation is minimal

Programs that react run the same under supervision: no computation runs again unless something that
it has read has changed, none that reads only what has stayed the same runs at all, and what is up
to date stays so until a signal is written.
-/

namespace Rivulet.Engine

open State

variable {σ : Shelter} {writes v : Bool} {s s' : State} {id : NodeId} {κ κ' : Kernel}

/-- Giving something a name stays in order, supervised or not. -/
theorem heeds_bindName (name : Option String) {h : Handle} (suits : h.Suits s.kinds) :
    Heeds σ writes Whatever (modify (·.bindName name h) : Run Unit)
        (modify (·.bindName name h)) s :=
  .step fun hs => upholds_of_leads (leads_bindName name suits) (hs.bindName name suits)

/-- Doing something with what a name stands for stays in order, supervised or not. -/
theorem heeds_withHandle {α : Type} (name : String) (kind? : Handle → Option α)
    {f g : α → Run (Option Json)}
    (h : ∀ x a, kind? x = some a → x.Suits s.kinds → Heeds σ writes Whatever (f a) (g a) s) :
    Heeds σ writes Whatever (withHandle name kind? f) (withHandle name kind? g) s := by
  refine .look fun hs => ?_
  cases hname : (s.handle? name).bind kind? with
  | none => exact .ret fun _ => trivial
  | some a =>
    obtain ⟨x, hx, ha⟩ := Option.bind_eq_some_iff.1 hname
    exact h x a ha (suits_of_handle? hs.wired.1 hx)

/-- Doing something that gives no answer stays in order, supervised or not. -/
theorem heeds_noAnswer {x y : Run Unit} (h : Heeds σ writes Whatever x y s) :
    Heeds σ writes Whatever (noAnswer x) (noAnswer y) s :=
  h.bind fun _ _ _ _ => .ret fun _ => trivial

private theorem heeds_createSignal (name : Option String) {handle : NodeId → Handle}
    (hh : ∀ id kinds, (handle id).Suits kinds ↔ kinds[id.index]? = some .source) (v : Json) :
    Heeds σ writes Whatever (createSignal name handle v) (createSignal name handle v) s := by
  refine Heeds.bind (P := fun id s' => s'.kinds[id.index]? = some .source)
    (.stepGet (fun hs => upholds_of_leads (.one (.newSource (.signal v) rfl)) (hs.newSource rfl))
      fun _ => ?_) fun id s' _ hid => ?_
  · show (s.kinds.push Graph.Kind.source)[s.kinds.size]? = some .source
    rw [Array.getElem?_push, if_pos rfl]
  · exact heeds_bindName name ((hh id _).2 hid)

private theorem heeds_createComputed (name : Option String) {p : Program} (hp : p.Reacts false) :
    Heeds σ writes Whatever (createComputed name p) (createComputed name p) s := by
  rw [createComputed_eq]
  refine (Heeds.stepGet (P := fun id s' => s'.kinds[id.index]? = some .derived)
    (fun hs => upholds_of_leads (.one (.newComputed p)) (hs.newComputed hp))
    fun _ => kinds_created ..).bind fun id s' _ hid => ?_
  exact heeds_bindName (h := .computed id) name hid

private theorem heeds_withScopeOf (name : String) {f g : ScopeId → Run (Option Json)}
    (h : ∀ a, Heeds σ writes Whatever (f a) (g a) s) :
    Heeds σ writes Whatever (withScopeOf name f) (withScopeOf name g) s := by
  refine .look fun _ => ?_
  cases (s.handle? name).bind s.scopeOf? with
  | none => exact .ret fun _ => trivial
  | some scope => exact h scope

/-- Creating a scope stays in order, supervised or not. -/
theorem heeds_createScope (parent : Option ScopeId) :
    Heeds σ writes Whatever (createScope parent) (createScope parent) s :=
  .stepGet (fun hs => upholds_aside (Leads.path (.one (.newScope parent))) hs
    (hs.plain.rescoped (keeps_createScope { scopes := s.scopes } parent)) rfl rfl rfl rfl)
    fun _ => trivial

private theorem heeds_createNamedScope (parent : Option ScopeId) (name : Option String) :
    Heeds σ writes Whatever
      (do let scope ← createScope parent; modify (·.bindName name (.scope scope)))
      (do let scope ← createScope parent; modify (·.bindName name (.scope scope))) s :=
  (heeds_createScope parent).bind fun scope _ _ _ => heeds_bindName (h := .scope scope) name trivial

/-- Guards change nothing but which scopes are current. -/
theorem upholds_guard (hs : s.InOrder σ) {scopes : Scopes Cleanup Handler}
    {guards : List (String × ScopeId)} (hleads : Leads s { s with scopes, guards })
    (hkeeps : ({ scopes := s.scopes } : State).Keeps { scopes }) :
    ({ s with scopes, guards } : State).InOrder σ ∧ s.Upholds writes { s with scopes, guards } :=
  upholds_aside hleads.path hs ((hs.plain.rescoped hkeeps).same rfl rfl rfl rfl rfl) rfl rfl rfl rfl

private theorem heeds_dropGuard (name : String) :
    Heeds σ writes Whatever (dropGuard name) (dropGuard name) s := by
  refine .stepGet (fun hs => ?_) fun _ => trivial
  split
  · exact ⟨hs, .refl s⟩
  · exact upholds_guard hs (leads_leave_guard s _ _) (keeps_leave _ _)

/-- Keeping the current supply stays in order, supervised or not. -/
theorem heeds_keepCurrent (scope : ScopeId) (guard : Option String) :
    Heeds σ writes Whatever (keepCurrent scope guard) (keepCurrent scope guard) s := by
  refine .step fun hs => ?_
  cases guard with
  | none => exact ⟨hs, .refl s⟩
  | some name =>
    have henter : Leads s (s.modifyScopes (·.enter scope)) := .one (.enterScope scope)
    have hkeeps : ({ scopes := s.scopes } : State).Keeps { scopes := s.scopes.enter scope } :=
      keeps_enter { scopes := s.scopes } scope
    simp only
    cases s.guards.lookup name with
    | none =>
      exact upholds_guard hs (henter.trans (Leads.aside (by constructor <;> rfl))) hkeeps
    | some old =>
      exact upholds_guard hs (henter.trans (leads_leave_guard _ old _))
        (hkeeps.trans (keeps_leave { scopes := s.scopes.enter scope } old))

section

variable (hκ : Attentive σ κ κ')

include hκ in
/-- Creating an effect stays in order, supervised or not. -/
theorem heeds_createEffect (name : Option String) {p : Program} (hp : p.Reacts false)
    (fallible : Bool) : Heeds σ writes Whatever (createEffect κ (.body p fallible) none name)
      (createEffect κ' (.body p fallible) none name) s := by
  rw [createEffect_eq, createEffect_eq]
  refine (Heeds.stepGet (P := fun id s' => s'.kinds[id.index]? = some .effect)
    (fun hs => upholds_of_leads (.one (.newEffect _ none)) (hs.newEffect hp fallible none))
    fun _ => kinds_created ..).bind fun id s' _ hid => ?_
  refine heeds_using fun s'' hu => (heeds_callRefresh hκ id).bind fun _ t hu' _ => ?_
  refine (heeds_settle hκ).bind fun _ t' hu'' _ => ?_
  exact heeds_bindName (h := .effect id) name
    (hu''.progress.before.kinds _ _ (hu'.progress.before.kinds _ _
      (hu.progress.before.kinds _ _ hid)))

/-- Recording a read stays in order, supervised or not. -/
theorem heeds_recordRead (h : s.kinds[id.index]? = some .source) :
    Heeds σ writes Whatever (recordRead id) (recordRead id) s :=
  .step fun hs => upholds_of_leads (.one (.record id ⟨_, h, by simp⟩)) (hs.record ⟨_, h, by simp⟩)

include hκ in
/-- Reading what a name stands for stays in order, supervised or not. -/
theorem heeds_read (name : String) : Heeds σ writes Whatever (read κ name) (read κ' name) s := by
  refine .look fun hs => ?_
  have hsource (id : NodeId) (view : State → Json) (h : s.kinds[id.index]? = some .source) :
      Heeds σ writes Whatever (do recordRead id; return some (view (← get)))
        (do recordRead id; return some (view (← get))) s :=
    (heeds_recordRead h).bind fun _ _ _ _ => .look fun _ => .ret fun _ => trivial
  cases hname : s.handle? name with
  | none => exact .ret fun _ => trivial
  | some x =>
    have hfits := suits_of_handle? hs.wired.1 hname
    cases x with
    | signal id => exact hsource id _ hfits
    | pair id => exact hsource id _ hfits
    | computed id => exact (heeds_callRead hκ hfits).bind fun _ _ _ _ => .ret fun _ => trivial
    | query id key => exact hsource id _ hfits
    | _ => exact .ret fun _ => trivial

include hκ in
/-- Reading the size of what a name stands for stays in order, supervised or not. -/
theorem heeds_readSize (name : String) :
    Heeds σ writes Whatever (readSize κ name) (readSize κ' name) s := by
  refine .look fun _ => ?_
  have hsize : Heeds σ writes Whatever
      (do return (← read κ name).map fun v => Json.ofNat (Text.byteLength v.print))
      (do return (← read κ' name).map fun v => Json.ofNat (Text.byteLength v.print)) s :=
    (heeds_read hκ name).bind fun _ _ _ _ => .ret fun _ => trivial
  cases s.handle? name with
  | none => exact hsize
  | some x =>
    cases x with
    | query id key => exact .ret fun _ => trivial
    | _ => exact hsize

private theorem heeds_readQuery (name : String) (view : Option Json → Json) :
    Heeds σ writes Whatever (readQuery name view) (readQuery name view) s := by
  refine heeds_withHandle name Handle.query? fun x id hid suits => ?_
  have hkind : s.kinds[id.index]? = some .source := by
    cases x <;> simp only [Handle.query?, Option.some.injEq, reduceCtorEq] at hid
    exact hid ▸ suits
  exact (heeds_recordRead hkind).bind fun _ _ _ _ => .look fun _ => .ret fun _ => trivial

include hκ in
/-- Calls that look stay in order, supervised or not. -/
theorem heeds_looks {o : Op} (ho : o.Looks) :
    Heeds σ writes Whatever (performOp κ o) (performOp κ' o) s := by
  cases ho with
  | log v =>
    exact heeds_noAnswer (.step fun hs => upholds_aside
      (Leads.path (Leads.aside (by constructor <;> rfl))) hs
      (hs.plain.same rfl rfl rfl rfl rfl) rfl rfl rfl rfl)
  | get x => exact heeds_read hκ x
  | peek x => exact heeds_untracked fun _ _ _ => heeds_read hκ x
  | size x => exact heeds_readSize hκ x
  | state x => exact heeds_readQuery x _
  | loading x => exact heeds_readQuery x fun v => .bool v.isNone
  | inspect x => exact .look fun _ => .look fun _ => .ret fun _ => trivial
  | debug x => exact .look fun _ => .look fun _ => .ret fun _ => trivial
  | stats => exact .look fun _ => .ret fun _ => trivial
  | signal name v => exact heeds_noAnswer (heeds_createSignal name (fun _ _ => Iff.rfl) v)
  | pair name v => exact heeds_noAnswer (heeds_createSignal name (fun _ _ => Iff.rfl) v)
  | pushScope name =>
    refine heeds_noAnswer (.look fun _ => (heeds_createScope _).bind fun scope _ _ _ => ?_)
    exact (heeds_keepCurrent scope name).bind fun _ _ _ _ =>
      heeds_bindName (h := .scope scope) name trivial
  | enterScope scope guard =>
    exact heeds_withScopeOf scope fun id => heeds_noAnswer (heeds_keepCurrent id guard)
  | popScope guard =>
    refine (heeds_dropGuard guard).bind fun popped _ _ _ => ?_
    cases popped with
    | none => exact .ret fun _ => trivial
    | some scope => exact .look fun _ => .ret fun _ => trivial
  | dropGuard guard =>
    exact heeds_noAnswer ((heeds_dropGuard guard).bind fun _ _ _ _ => .ret fun _ => trivial)
  | createScope name => exact heeds_noAnswer (.look fun _ => heeds_createNamedScope _ name)
  | createRoot name => exact heeds_noAnswer (heeds_createNamedScope none name)
  | createChild name parent =>
    exact heeds_withScopeOf parent fun id =>
      heeds_noAnswer (heeds_createNamedScope (some id) name)

include hκ in
/-- Where no computation runs, a signal gets another value. -/
theorem heeds_replaceValue (hstill : s.Still) (h : s.kinds[id.index]? = some .source) (v : Json) :
    Heeds σ true Whatever (replaceValue κ id (.signal v)) (replaceValue κ' id (.signal v)) s := by
  refine .change (fun hs => upholds_of_leads (.one (.write id v h)) (hs.write v h hstill))
    fun hu => ?_
  refine .change (fun hs => ?_) fun _ => heeds_settle hκ
  have hstep : ((s.setCell id (.signal v)).markChanged id).InOrder σ ∧
      (s.setCell id (.signal v)).Progress true ((s.setCell id (.signal v)).markChanged id) :=
    hs.markChanged h hstill
  exact ⟨hstep.1, hstep.2, rfl⟩

include hκ in
private theorem heeds_write (hstill : s.Still) (h : s.kinds[id.index]? = some .source) (v : Json) :
    Heeds σ true Whatever (write κ id v) (write κ' id v) s := by
  refine heeds_using fun s' hu => .look fun _ => .ite (fun _ => .ret fun _ => trivial) fun _ => ?_
  exact (heeds_replaceValue hκ (hu.still hstill) (hu.progress.before.kinds _ _ h) v).bind
    fun _ _ _ _ => .ret fun _ => trivial

include hκ in
private theorem heeds_overwrite (hstill : s.Still) (h : s.kinds[id.index]? = some .source)
    (v : Json) :
    Heeds σ true Whatever (overwrite κ id v) (overwrite κ' id v) s :=
  heeds_using fun _ hu =>
    heeds_replaceValue hκ (hu.still hstill) (hu.progress.before.kinds _ _ h) v

private theorem heeds_ensureWritable : Heeds σ writes Whatever ensureWritable ensureWritable s :=
  .look fun _ => .ite (fun _ => .raise _) fun _ => .ret fun _ => trivial

private theorem heeds_ifWritable {x y : Run Bool} (h : Heeds σ writes Whatever x y s) :
    Heeds σ writes Whatever (ifWritable x) (ifWritable y) s :=
  .look fun _ => .ite (fun _ => .ret fun _ => trivial) fun _ =>
    h.bind fun _ _ _ _ => .ret fun _ => trivial

include hκ in
/-- Calls that write stay in order where nothing is going on. -/
theorem heeds_stores {o : Op} (ho : o.Stores) (hstill : s.Still) :
    Heeds σ true Whatever (performOp κ o) (performOp κ' o) s := by
  cases ho with
  | set name v =>
    refine heeds_withHandle name Handle.signal? fun x id hid suits => heeds_noAnswer ?_
    refine heeds_ensureWritable.bind fun _ s' hu _ => ?_
    exact (heeds_write hκ (hu.still hstill)
      (hu.progress.before.kinds _ _ (kinds_of_signal? hid suits)) v).bind
        fun _ _ _ _ => .ret fun _ => trivial
  | trySet name v =>
    exact heeds_withHandle name Handle.signal? fun x id hid suits =>
      heeds_ifWritable (heeds_write hκ hstill (kinds_of_signal? hid suits) v)
  | update name v =>
    refine heeds_withHandle name Handle.signal? fun x id hid suits => heeds_noAnswer ?_
    exact heeds_ensureWritable.bind fun _ s' hu _ => heeds_overwrite hκ (hu.still hstill)
      (hu.progress.before.kinds _ _ (kinds_of_signal? hid suits)) v
  | tryUpdate name v =>
    refine heeds_withHandle name _ fun x id hid suits => heeds_ifWritable ?_
    have hkind : s.kinds[id.index]? = some .source := by
      cases x <;> simp only [Option.some.injEq, reduceCtorEq] at hid
      exact hid ▸ suits
    exact (heeds_overwrite hκ hstill hkind v).bind fun _ _ _ _ => .ret fun _ => trivial

include hκ in
/-- Every enclosure of a program stays in order, supervised or not. -/
theorem heeds_enclose {e : Enclosure} (he : ∀ mode node, e ≠ .walk mode node) {body : Program}
    (hp : body.Reacts false ∨ writes = true ∧ body.Reacts true ∧ s.Still) :
    Heeds σ writes Whatever (enclose κ e body) (enclose κ' e body) s := by
  have hexec (s' : State) (h : s.Still → s'.Still) :
      Heeds σ writes Whatever (κ.exec body) (κ'.exec body) s' :=
    heeds_callExec hκ (hp.imp_right fun ⟨hw, hb, hstill⟩ => ⟨hw, hb, h hstill⟩)
  have hanswer {x y : Run Outcome} (h : Heeds σ writes Whatever x y s) :
      Heeds σ writes Whatever (do return (← x, none) : Run (Outcome × Option Json))
        (do return (← y, none)) s := h.bind fun _ _ _ _ => .ret fun _ => trivial
  cases e with
  | plain => exact hanswer (hexec s fun h => h)
  | batch => exact hanswer (heeds_batch hκ fun s' hu => hexec s' hu.still)
  | untrack => exact hanswer (heeds_untracked fun s' _ h => hexec s' h)
  | scope name =>
    refine .look fun _ => ?_
    cases (s.handle? name).bind s.scopeOf? with
    | none => exact .ret fun _ => trivial
    | some scope =>
      exact hanswer (heeds_withScope (fun s' hu _ _ _ => hexec s' hu.still) fun _ _ h => h)
  | walk mode node => exact absurd rfl (he mode node)

include hκ in
/-- Programs that react stay in order, supervised or not. -/
theorem heeds_program {p : Program} (hp : p.Reacts v) (h : v = true → writes = true ∧ s.Still) :
    Heeds σ writes Whatever (exec κ p) (exec κ' p) s := by
  induction hp generalizing s with
  | stop o => exact .ret fun _ => trivial
  | panic message => exact .raise _
  | look looks rest ih =>
    exact (heeds_looks hκ looks).bind fun a _ hu _ => ih a fun hv => ⟨(h hv).1, hu.still (h hv).2⟩
  | write ho rest ih =>
    obtain ⟨rfl, hstill⟩ := h rfl
    exact (heeds_stores hκ ho hstill).bind fun a _ hu _ => ih a fun _ => ⟨rfl, hu.still hstill⟩
  | @within v e body next enclosure inside rest _ ih =>
    refine (heeds_enclose hκ enclosure ?_).bind fun r _ hu _ =>
      ih r.1 r.2 fun hv => ⟨(h hv).1, hu.still (h hv).2⟩
    cases v with
    | false => exact .inl inside
    | true => exact .inr ⟨(h rfl).1, inside, (h rfl).2⟩
  | computed quiet rest _ ih =>
    exact (heeds_noAnswer (heeds_createComputed _ quiet)).bind fun a _ hu _ =>
      ih a fun hv => ⟨(h hv).1, hu.still (h hv).2⟩
  | effect quiet rest _ ih =>
    exact (heeds_noAnswer (heeds_createEffect hκ _ quiet _)).bind fun a _ hu _ =>
      ih a fun hv => ⟨(h hv).1, hu.still (h hv).2⟩

end

/-! ## Kernels -/

/-- What a call does under supervision is what it does without. -/
theorem attentive_supervised (σ : Shelter) (alarm : Interrupt) :
    ∀ n, Attentive σ (supervised σ alarm n) (kernel n)
  | 0 => fun _ _ _ _ => .raise _
  | n + 1 => by
    have hκ := attentive_supervised σ alarm n
    intro writes c s hc
    cases c with
    | exec p =>
      rcases hc with hp | ⟨rfl, hp, hstill⟩
      · exact heeds_program hκ hp fun h => nomatch h
      · exact heeds_program hκ hp fun _ => ⟨rfl, hstill⟩
    | read id => exact (heeds_readComputed hκ hc).bind fun _ _ _ h => .ret fun _ => h
    | dispose scope => exact (heeds_disposeScope hκ scope).bind fun _ _ _ _ => .ret fun _ => trivial
    | drain => exact (heeds_drain hκ).bind fun _ _ _ _ => .ret fun _ => trivial
    | report scope error =>
      exact (heeds_reportError scope error).bind fun _ _ _ _ => .ret fun _ => trivial
    | refresh id =>
      have hrefresh : Heeds σ writes (fun _ s' => s'.Fresh id)
          (refreshBy (attended σ alarm (supervised σ alarm n) id) (supervised σ alarm n) id >>=
            fun _ => pure (Outcome.value .null))
          (refresh (kernel n) id >>= fun _ => pure (Outcome.value .null)) s :=
        (heeds_refresh hκ alarm id).bind fun _ _ _ h => .ret fun _ => h
      intro hs
      have hrests : ensureRests σ alarm id s = .ok () s := if_pos (hs.rests id)
      have heq : supervised σ alarm (n + 1) (.refresh id) s =
          (refreshBy (attended σ alarm (supervised σ alarm n) id) (supervised σ alarm n) id >>=
            fun _ => pure (Outcome.value .null)) s := run_bind_ok hrests
      rw [heq]
      exact hrefresh hs

/-- The kernel in which nothing runs: an alarm is raised instead. -/
def dormant (alarm : Interrupt) : Nat → Kernel
  | 0 => fun _ => throw .outOfFuel
  | n + 1 => fun
    | .refresh id => do
      refreshBy (fun _ => throw alarm) (dormant alarm n) id
      return .value .null
    | c => answer (dormant alarm n) c

/-- Nothing runs when a node that is up to date is asked for. -/
theorem refreshBy_clean {k : Graph.Node} (hk : s.graph.find? id = some k) (hmark : k.mark = .clean)
    (run : Graph.Node → Run Unit) (κ : Kernel) : refreshBy run κ id s = .ok () s := by
  rw [refreshBy, run_get, hk]
  simp only [hmark]
  rfl

/-- A clean node is brought up to date without a run. -/
theorem refresh_dormant {k : Graph.Node} (hk : s.graph.find? id = some k) (hmark : k.mark = .clean)
    (alarm : Interrupt) (n : Nat) :
    (dormant alarm n).refresh id s = (kernel n).refresh id s := by
  cases n with
  | zero => rfl
  | succ n =>
    have hdormant : (dormant alarm (n + 1)).refresh id s = .ok () s :=
      run_bind_ok (run_bind_ok (refreshBy_clean hk hmark (fun _ => throw alarm) (dormant alarm n)))
    have hkernel : (kernel (n + 1)).refresh id s = .ok () s :=
      run_bind_ok (run_bind_ok (refreshBy_clean hk hmark (fun _ => rerun (kernel n) id) (kernel n)))
    exact hdormant.trans hkernel.symm

/-- Nothing runs when a computed value that is up to date is read. -/
theorem readComputed_dormant {k : Graph.Node} (hk : s.graph.find? id = some k)
    (hmark : k.mark = .clean) (alarm : Interrupt) (n : Nat) :
    readComputed (dormant alarm n) id s = readComputed (kernel n) id s := by
  have hlive : ((s.hold (.node id)).modifyTracking (·.record id)).graph.contains id = true := by
    rw [Graph.contains_eq]
    exact Option.isSome_iff_exists.2 ⟨k, hk⟩
  have hensure (κ : Kernel) : ensureFresh κ id ((s.hold (.node id)).modifyTracking (·.record id)) =
      κ.refresh id ((s.hold (.node id)).modifyTracking (·.record id)) := by
    rw [ensureFresh, run_get, if_pos hlive]
  have hfresh : readFresh (dormant alarm n) id (s.hold (.node id)) =
      readFresh (kernel n) id (s.hold (.node id)) := by
    refine run_bind_congr (s := (s.hold (.node id)).modifyTracking (·.record id))
      (t := (s.hold (.node id)).modifyTracking (·.record id)) ?_ _
    rw [hensure, hensure]
    exact refresh_dormant (s := (s.hold (.node id)).modifyTracking (·.record id)) hk hmark alarm n
  have hhold (κ : Kernel) : readComputed κ id s =
      guarding (·.unhold (.node id)) (readFresh κ id) (s.hold (.node id)) := rfl
  rw [hhold, hhold, guarding, guarding, hfresh]

/-- To read a computed value is to call the kernel for it. -/
theorem read_of_computed (κ : Kernel) {x : String} (hx : s.handle? x = some (.computed id)) :
    read κ x s = (κ.read id >>= fun v => pure (some v)) s := by
  rw [read, run_get, hx]

private theorem read_dormant {x : String} {k : Graph.Node} (hx : s.handle? x = some (.computed id))
    (hk : s.graph.find? id = some k) (hmark : k.mark = .clean) (alarm : Interrupt) (n : Nat) :
    read (dormant alarm n) x s = read (kernel n) x s := by
  rw [read_of_computed _ hx, read_of_computed _ hx]
  refine run_bind_congr (run_bind_congr ?_ _) _
  cases n with
  | zero => rfl
  | succ n => exact run_bind_congr (readComputed_dormant hk hmark alarm n) _

/-- The state behind several programs, however each of them ends. -/
def stateBehind (κ : Kernel) (ps : List Program) (s : State) : State :=
  ps.foldl (fun s p => finalState (exec κ p s)) s

/-- A program that reacts leaves a state at rest in order. -/
theorem inOrder_exec {p : Program} (hp : p.Reacts true) (n : Nat) (hs : s.InOrder σ)
    (hstill : s.Still) : (finalState (exec (kernel n) p s)).InOrder σ ∧
      s.Upholds true (finalState (exec (kernel n) p s)) := by
  have hprogram : Heeds σ true Whatever (exec (supervised σ .outOfFuel n) p)
      (exec (kernel n) p) s :=
    heeds_program (attentive_supervised σ .outOfFuel n) hp fun _ => ⟨rfl, hstill⟩
  obtain ⟨heq, hpost⟩ := hprogram hs
  rw [← heq]
  cases hr : exec (supervised σ .outOfFuel n) p s with
  | ok o s' =>
    rw [hr] at hpost
    exact ⟨hpost.1, hpost.2.1⟩
  | error e s' =>
    rw [hr] at hpost
    exact hpost

private theorem inOrder_stateBehind {ps : List Program} (hps : ∀ p ∈ ps, p.Reacts true) (n : Nat)
    (hs : s.InOrder σ) (hstill : s.Still) : (stateBehind (kernel n) ps s).InOrder σ ∧
      s.Upholds true (stateBehind (kernel n) ps s) := by
  induction ps generalizing s with
  | nil => exact ⟨hs, .refl s⟩
  | cons p ps ih =>
    obtain ⟨hs', hu⟩ := inOrder_exec (hps p List.mem_cons_self) n hs hstill
    obtain ⟨hs'', hu'⟩ := ih (fun q hq => hps q (List.mem_cons_of_mem p hq)) hs' (hu.still hstill)
    exact ⟨hs'', hu.trans hu'⟩

/-- Where nothing has happened yet, everything is in order. -/
theorem inOrder_start : ({} : State).InOrder ⟨{}, fun _ => rfl, fun _ => False,
    fun _ => False⟩ where
  wired := wiring_start ∅
  plain := ⟨fun id c hc => by simp at hc, fun id sc hsc => by simp at hsc,
    fun t ht => absurd ht List.not_mem_nil, rfl, by simp⟩
  justified _ := ⟨fun id n hn => by simp [Graph.find?] at hn,
    fun id n hn => by simp [Graph.find?] at hn, fun id hid => by simp [Tracking.isRunning] at hid⟩
  sheltered := ⟨fun _ => .refl _, fun _ h => h.elim, fun _ _ h => h.elim⟩

/-- Behind a read a computed value is up to date. -/
theorem clean_of_read {x : String} {n : Nat} {v : Option Json} (hs : s.InOrder σ)
    (hx : s.handle? x = some (.computed id)) (hread : read (kernel n) x s = .ok v s') :
    s'.InOrder σ ∧ s.Upholds true s' ∧
      (s'.Whole → ∃ k, s'.graph.find? id = some k ∧ k.mark = .clean) := by
  have hkind : s.kinds[id.index]? = some .derived := suits_of_handle? hs.wired.1 hx
  have hheeds : Heeds σ true (fun _ s' => s'.Fresh id)
      ((supervised σ .outOfFuel n).read id >>= fun v => pure (some v))
      ((kernel n).read id >>= fun v => pure (some v)) s :=
    (heeds_callRead (attentive_supervised σ .outOfFuel n) hkind).bind fun _ _ _ h => .ret fun _ => h
  obtain ⟨heq, hpost⟩ := hheeds hs
  rw [read_of_computed _ hx] at hread
  rw [heq, hread] at hpost
  obtain ⟨hs', hu, hfresh⟩ := hpost
  refine ⟨hs', hu, fun hw => ?_⟩
  obtain ⟨k, hk, -⟩ := hw id.index
    (Nat.lt_of_lt_of_le (Array.getElem?_eq_some_iff.1 hkind).1 hu.progress.before.size)
  exact ⟨k, hk, hfresh hw k hk⟩

/-- What is inside has no reason to run at the start: it is not dirty, it reads nothing but what is
inside or on the border, and has recorded the epochs of the start. -/
structure Shelter.Closed (σ : Shelter) : Prop where
  /-- No signals are inside. -/
  kinds : ∀ id, σ.inner id → MayRead σ.start.kinds id
  /-- What is there is up to date with what it reads. -/
  nodes : ∀ id, σ.inner id → ∃ n, σ.start.graph.find? id = some n ∧ n.mark ≠ .dirty ∧
    ∀ seen ∈ n.dependencies, (σ.inner seen.node ∨ σ.border seen.node) ∧
      σ.start.graph.epoch? seen.node = some seen.epoch

/-- What is closed at the start of a run is sheltered. -/
theorem Shelter.Closed.inOrder {τ : Shelter} (hσ : σ.Closed) (hs : σ.start.InOrder τ) :
    σ.start.InOrder σ where
  wired := hs.wired
  plain := hs.plain
  justified := hs.justified
  sheltered := by
    refine ⟨fun _ => .refl _, hσ.kinds, fun hun id hid => ?_⟩
    obtain ⟨n, hn, hmark, hseen⟩ := hσ.nodes id hid
    refine ⟨n, hn, hmark, ?_, fun seen hmem => ⟨(hseen seen hmem).1, ?_⟩⟩
    · rw [Shelter.level, changes?_eq hn]
      exact Nat.le_refl _
    · obtain ⟨m, hm⟩ := hs.wired.2.graph.dependencies hn ⟨seen, hmem, rfl⟩
      have hepoch := (hseen seen hmem).2
      rw [Graph.epoch?_eq hm, Option.some.injEq] at hepoch
      rw [Shelter.level, changes?_eq hm, ← hepoch, Graph.Node.epoch, UInt64.toNat_ofNat',
        Nat.mod_eq_of_lt (hun.1.lt_size (hs.wired.1.index_lt hm) hm)]
      exact Nat.le_refl _

/-- Recomputation is minimal. A program that reacts runs the same under supervision, whatever ran
before: a computed value or an effect runs again only if something that it has read has another
epoch, the epoch of a computed value changes only with the value, what reads nothing but computed
values that stay the same does not run, and what is up to date at the start is so until a signal is
written. Behind a read a computed value is up to date, and reading it again, later, with no signal
written in between, runs nothing. -/
theorem recomputes_minimally (n : Nat) {earlier : List Program}
    (hearlier : ∀ q ∈ earlier, q.Reacts true) {σ : Shelter}
    (hstart : σ.start = stateBehind (kernel n) earlier {}) (hσ : σ.Closed) :
    (∀ (alarm : Interrupt) (p : Program), p.Reacts true →
      exec (supervised σ alarm n) p σ.start = exec (kernel n) p σ.start) ∧
    ∀ (x : String) (id : NodeId) (v : Option Json) (s : State),
      σ.start.handle? x = some (.computed id) → read (kernel n) x σ.start = .ok v s →
        (s.Whole → ∃ k, s.graph.find? id = some k ∧ k.mark = .clean) ∧
        ∀ later : List Program, (∀ q ∈ later, q.Reacts true) →
          s.Unwritten (stateBehind (kernel n) later s) →
          (stateBehind (kernel n) later s).Whole →
          ∀ y, (stateBehind (kernel n) later s).handle? y = some (.computed id) →
            ∀ alarm, read (dormant alarm n) y (stateBehind (kernel n) later s) =
              read (kernel n) y (stateBehind (kernel n) later s) := by
  have hs : σ.start.InOrder σ := by
    refine hσ.inOrder (τ := ⟨{}, fun _ => rfl, fun _ => False, fun _ => False⟩) ?_
    rw [hstart]
    exact (inOrder_stateBehind hearlier n inOrder_start fun _ => rfl).1
  refine ⟨fun alarm p hp => ?_, fun x id v s hx hread => ?_⟩
  · have hprogram : Heeds σ true Whatever (exec (supervised σ alarm n) p)
      (exec (kernel n) p) σ.start :=
      heeds_program (attentive_supervised σ alarm n) hp fun _ => ⟨rfl, σ.still⟩
    exact (hprogram hs).1
  obtain ⟨hs', hu, hclean⟩ := clean_of_read hs hx hread
  refine ⟨hclean, fun later hlater hun hw y hy alarm => ?_⟩
  obtain ⟨-, hu'⟩ := inOrder_stateBehind hlater n hs' (hu.still σ.still)
  obtain ⟨k, hk, hmark⟩ := hclean (hu'.progress.whole hw)
  obtain ⟨k', hk', -⟩ := (hu'.progress.continues hw).nodes id k hk
  exact read_dormant hy hk' ((hu'.progress.continues hw).clean hun id k k' hk hk' hmark) alarm n

/-- What the sample has computed, and the signal that was read for it. -/
def Shelter.sample : Shelter where
  start := State.sample.echoed ⟨0⟩ ⟨1⟩ "a"
  still _ := rfl
  inner := (· = ⟨0⟩)
  border := (· = ⟨1⟩)

/-- The computed value of the sample is up to date with the signal that it has read. -/
theorem find?_sample : ∃ n, Shelter.sample.start.graph.find? ⟨0⟩ = some n ∧ n.mark = .clean ∧
    ∀ seen ∈ n.dependencies, seen.node = ⟨1⟩ ∧
      Shelter.sample.start.graph.epoch? ⟨1⟩ = some seen.epoch := by
  have hcomputed : (State.sample.graph.request ⟨0⟩ .clean).find? ⟨0⟩ =
      some ((Graph.Node.new .derived).request .clean) := by
    rw [Graph.request, Graph.find?_modify_self, find?_sample_computed]
    rfl
  have hsignal₀ : (State.sample.graph.request ⟨0⟩ .clean).find? ⟨1⟩ = some (.new .source) := by
    rw [Graph.request, Graph.find?_modify_of_ne _ (by simp), find?_sample_signal]
  have hmaps := Graph.maps_setDependencies hcomputed [⟨1⟩]
  obtain ⟨n, hn, hr⟩ := hmaps.exists_new hcomputed
  obtain ⟨m, hm, hr'⟩ := hmaps.exists_new hsignal₀
  rw [if_pos rfl] at hr
  rw [if_neg (by simp)] at hr'
  have hself : Shelter.sample.start.graph.find? ⟨0⟩ = some n.bump := by
    show (Graph.bump _ ⟨0⟩).find? ⟨0⟩ = _
    rw [Graph.bump, Graph.find?_modify_self, hn]
    rfl
  have hsignal : Shelter.sample.start.graph.find? ⟨1⟩ = some m := by
    show (Graph.bump _ ⟨0⟩).find? ⟨1⟩ = _
    rw [Graph.bump, Graph.find?_modify_of_ne _ (by simp), hm]
  refine ⟨n.bump, hself, hr.mark, fun seen hseen => ?_⟩
  have hobserved : seen ∈ (State.sample.graph.request ⟨0⟩ .clean).observe [⟨1⟩] := by
    rwa [show n.bump.dependencies = n.dependencies from rfl, hr.dependencies] at hseen
  obtain ⟨hnode, hepoch⟩ := Graph.mem_observe.1 hobserved
  have hnode' := List.mem_singleton.1 hnode
  refine ⟨hnode', ?_⟩
  rw [hnode', Graph.epoch?_eq hsignal₀] at hepoch
  rw [Graph.epoch?_eq hsignal, ← hepoch, Graph.Node.epoch, Graph.Node.epoch, hr'.changes]

/-- What the sample reads is in its shelter. -/
theorem closed_sample : Shelter.sample.Closed where
  kinds := by
    rintro _ rfl
    exact ⟨.derived, rfl, by simp⟩
  nodes := by
    rintro _ rfl
    obtain ⟨n, hn, hmark, hseen⟩ := find?_sample
    refine ⟨n, hn, by rw [hmark]; simp, fun seen hmem => ⟨.inr (hseen seen hmem).1, ?_⟩⟩
    rw [(hseen seen hmem).1]
    exact (hseen seen hmem).2

/-- A second read of the sample gives what is kept, and changes nothing. -/
theorem read_sample : read (kernel 3) "c" Shelter.sample.start =
    .ok (some (.int 1)) Shelter.sample.start := by
  obtain ⟨n, hn, hmark, -⟩ := find?_sample
  have hlive : (Shelter.sample.start.hold (.node ⟨0⟩)).graph.contains ⟨0⟩ = true := by
    rw [Graph.contains_eq]
    exact Option.isSome_iff_exists.2 ⟨n, hn⟩
  have hfresh : ensureFresh (kernel 2) ⟨0⟩ (Shelter.sample.start.hold (.node ⟨0⟩)) =
      .ok () (Shelter.sample.start.hold (.node ⟨0⟩)) := by
    rw [ensureFresh, run_get, if_pos hlive]
    exact run_bind_ok (run_bind_ok (refreshBy_clean (s := Shelter.sample.start.hold (.node ⟨0⟩)) hn
      hmark (fun _ => rerun (kernel 1) ⟨0⟩) (kernel 1)))
  have hkept : keptValue ⟨0⟩ (Shelter.sample.start.hold (.node ⟨0⟩)) =
      .ok (.int 1) (Shelter.sample.start.hold (.node ⟨0⟩)) := by
    have hself : (Shelter.sample.start.hold (.node ⟨0⟩)).cells[(⟨0⟩ : NodeId)]? =
        some (.computed (.echo "a") (some (State.sample.signalValue ⟨1⟩))) :=
      Std.HashMap.getElem?_insert_self
    rw [keptValue, run_get, hself, signalValue_sample]
    rfl
  have hread : readComputed (kernel 2) ⟨0⟩ Shelter.sample.start =
      .ok (.int 1) Shelter.sample.start := by
    have hsame : (Shelter.sample.start.hold (.node ⟨0⟩)).unhold (.node ⟨0⟩) =
        Shelter.sample.start :=
      unhold_echoed (s := State.sample) (y := "c") rfl
    have hheld : readComputed (kernel 2) ⟨0⟩ Shelter.sample.start =
        .ok (.int 1) ((Shelter.sample.start.hold (.node ⟨0⟩)).unhold (.node ⟨0⟩)) :=
      holding_ok (s := Shelter.sample.start) ((run_bind_ok hfresh).trans hkept)
    rwa [hsame] at hheld
  have hanswer : kernel 3 (.read ⟨0⟩) Shelter.sample.start =
      .ok (.value (.int 1)) Shelter.sample.start := run_bind_ok hread
  have hcall : (kernel 3).read ⟨0⟩ Shelter.sample.start = .ok (.int 1) Shelter.sample.start :=
    run_bind_ok hanswer
  exact run_bind_ok hcall

/-- To give the value of a name is to react. -/
theorem reacts_echo (x : String) : (Program.echo x).Reacts v :=
  .look (.get x) fun _ => .stop _

private theorem reacts_sample : Program.sample.Reacts true :=
  .computed (reacts_echo "a") fun _ => .look (.signal (some "a") (.int 1)) fun _ => reacts_echo "c"

/-- The signal of the sample is written, and the computed value is read, under supervision; before
that, nothing runs when the computed value is read again. -/
theorem recomputes_minimally_sample :
    exec (supervised Shelter.sample (.panic "needless") 3)
        (.op (.set "a" (.int 2)) fun _ => .echo "c") Shelter.sample.start =
      exec (kernel 3) (.op (.set "a" (.int 2)) fun _ => .echo "c") Shelter.sample.start ∧
    read (dormant (.panic "needless") 3) "c" Shelter.sample.start =
      .ok (some (.int 1)) Shelter.sample.start := by
  have hearlier : ∀ q ∈ [Program.sample], q.Reacts true := by
    simpa using reacts_sample
  have hstart : Shelter.sample.start = stateBehind (kernel 3) [Program.sample] {} := by
    show _ = finalState (exec (kernel (0 + 3)) Program.sample {})
    rw [exec_sample deepens_kernel]
    rfl
  obtain ⟨hruns, hreads⟩ := recomputes_minimally 3 hearlier hstart closed_sample
  refine ⟨hruns (.panic "needless") _ (.write (.set "a" (.int 2)) fun _ => reacts_echo "c"), ?_⟩
  have hwhole : Shelter.sample.start.Whole := fun i hi => by
    refine intact_sample.live ⟨i⟩ ?_
    obtain rfl | rfl : i = 0 ∨ i = 1 := by
      have hlt : i < 2 := hi
      omega
    · exact .inr rfl
    · exact .inl rfl
  have hagain := (hreads "c" ⟨0⟩ _ _ rfl read_sample).2 [] (by simp) (.refl _) hwhole "c" rfl
    (.panic "needless")
  exact hagain.trans read_sample

end Rivulet.Engine
