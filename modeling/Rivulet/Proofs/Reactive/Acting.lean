import Rivulet.Proofs.Reactive.Reacting
import Rivulet.Proofs.Reactive.Writing

/-!
# Programs that act

Every program that acts ends, by induction on the program, if what waits can be settled. Inside a
batch or a flush nothing has to be settled; so a flush ends, since it takes a bounded number of
effects; and so everything can be settled.
-/

namespace Rivulet

/-- Recording a read leaves the open sections. -/
theorem Tracking.observers_record (t : Tracking) (id : NodeId) :
    (t.record id).sections.map (·.observer) = t.sections.map (·.observer) := by
  rw [record]
  split
  · rfl
  · rename_i sec rest h
    split
    · rw [h]
      rfl
    · rfl

namespace Engine

open State

/-- What waits can be settled in states in which a flush may start only if that is allowed. -/
def Settling (rank : String → Nat) (allowed : Bool → Prop) : Prop :=
  ∀ s : State, s.Tame → s.Calm rank → allowed s.queue.canFlush →
    Ends True settle s fun _ s' => Acted rank s s'

/-- Inside of a batch or flush nothing has to settle. -/
theorem settling_closed (rank : String → Nat) : Settling rank (· = false) := by
  intro s _ hs hclosed
  refine .look ?_
  simp only [hclosed, Bool.false_eq_true, if_false]
  refine .ret ⟨hs, fun hflush => ?_, .refl s⟩
  simp [hclosed] at hflush

section

variable {rank : String → Nat} {allowed : Bool → Prop} (hsettle : Settling rank allowed) {s : State}

/-- What reading does is in order. -/
theorem acted_of_settles {s' : State} (hs : s.Calm rank) (hq : s.Quiet) {b : Nat}
    (h : Settles rank b s s')
    (hobservers : s'.tracking.sections.map (·.observer) = s.tracking.sections.map (·.observer)) :
    Acted rank s s' where
  calm := hs.settles h
  quiet := (h.ready (hs.ready hq)).quiet
  onward := ⟨by rw [h.queue], by rw [h.queue], hobservers⟩

/-- Reading is acting. -/
theorem State.Answers.acted {s' : State} (hs : s.Calm rank) (hq : s.Quiet) {b : Nat} {x : String}
    {f : Json → Json} {a : Option Json} (h : s.Answers rank s' b x f a) : Acted rank s s' := by
  obtain ⟨hsettles, hanswer⟩ := h
  refine acted_of_settles hs hq hsettles ?_
  split at hanswer
  · rw [hanswer.2.1]
    exact Tracking.observers_record _ _
  · rw [hanswer.2]

private theorem ends_read_acts (ht : s.Tame) (hs : s.Calm rank) (hq : s.Quiet) (x : String) :
    Ends True (fun κ => read κ x) s fun _ s' => Acted rank s s' := by
  exact (ends_read (fun y _ => refreshes rank y) ht (hs.ready hq) (hs.runsFrom _)
    (Nat.lt_succ_self (rank x))).weaken.imp fun _ _ h => h.acted hs hq

private theorem ends_readSize_acts (ht : s.Tame) (hs : s.Calm rank) (hq : s.Quiet) (x : String) :
    Ends True (fun κ => readSize κ x) s fun _ s' => Acted rank s s' := by
  exact (ends_readSize (fun y _ => refreshes rank y) ht (hs.ready hq) (hs.runsFrom _)
    (Nat.lt_succ_self (rank x))).weaken.imp fun _ _ h => h.acted hs hq

/-- An untracked section around what is in order. -/
theorem ends_untracked {α : Type} {P : α → Prop} {x : Kernel → Run α}
    (ht : s.Tame) (hs : s.Calm rank) (hx : ∀ s, Stays P x s)
    (h : (s.modifyTracking (·.enter .untracked)).Calm rank →
      Ends True x (s.modifyTracking (·.enter .untracked)) fun _ s' =>
        Acted rank (s.modifyTracking (·.enter .untracked)) s') :
    Ends True (fun κ => untracked (x κ)) s fun _ s' => Acted rank s s' := by
  have hentered : (s.modifyTracking (·.enter .untracked)).Calm rank := by
    refine hs.same rfl rfl rfl rfl hs.waiting fun j hj => hs.resting j ?_
    simpa [modifyTracking, Tracking.Observer.node?] using hj
  refine .untracked ht hx (h hentered) ?_
  intro _ s' _ _ hlater _ hacted
  have honward := hacted.onward.leave s'.graph
  refine ⟨hacted.calm.same rfl rfl rfl rfl hacted.calm.waiting fun j hj => ?_,
    hacted.quiet, honward⟩
  have hj' : s'.tracking.leave.2.isRunning j = true := hj
  rw [Tracking.isRunning_of_observers honward.observers] at hj'
  exact hlater.kinds _ _ (hs.resting j hj')

/-- Letting effects wait starts no batch and no flush. -/
theorem scheduleAll_same (q : Queue) (ids : List NodeId) :
    (q.scheduleAll ids).batches = q.batches ∧ (q.scheduleAll ids).flushing = q.flushing := by
  induction ids generalizing q with
  | nil => exact ⟨rfl, rfl⟩
  | cons x ids ih =>
    have hone : (q.schedule x).batches = q.batches ∧ (q.schedule x).flushing = q.flushing := by
      rw [Queue.schedule]
      split <;> exact ⟨rfl, rfl⟩
    obtain ⟨hb, hf⟩ := ih (q.schedule x)
    exact ⟨hb.trans hone.1, hf.trans hone.2⟩

include hsettle in
/-- Another value is put behind a signal, and what depends on it is marked. -/
theorem ends_replaceValue (ht : s.Tame) (hs : s.Calm rank) (hallowed : allowed s.queue.canFlush)
    {id : NodeId} (hid : s.kinds[id.index]? = some .source) {v : Json} (hv : v.Exact) :
    Ends True (fun κ => replaceValue κ id (.signal v)) s fun _ s' => Acted rank s s' := by
  refine .intact ht (fun κ hκ => staysAt_replaceValue hκ id (c := .signal v) hv) fun hi => ?_
  obtain ⟨n, hn, -⟩ := hi.live id (Or.inl hid)
  have hvalued := hs.withValue (v := v) hid hn
  have hset : s.Keeps (s.setCell id (.signal v)) := keeps_setCell fun _ => hv
  have ht' : (s.withValue id v).Tame :=
    (hset.trans (keeps_notify (s.setCell id (.signal v)) id) ht).1
  obtain ⟨hbatches, hflushing⟩ :=
    scheduleAll_same s.queue ((s.setCell id (.signal v)).graph.markChanged id).2
  have honward : s.Onward (s.withValue id v) := ⟨hbatches, hflushing, rfl⟩
  refine .change (.change ((hsettle _ ht' hvalued (by rwa [honward.canFlush])).imp ?_))
  intro _ s' hacted
  exact ⟨hacted.calm, hacted.quiet, honward.trans hacted.onward⟩

include hsettle in
/-- A signal is written. -/
theorem ends_write (ht : s.Tame) (hs : s.Calm rank) (hq : s.Quiet)
    (hallowed : allowed s.queue.canFlush)
    {id : NodeId} (hid : s.kinds[id.index]? = some .source) {v : Json} (hv : v.Exact) :
    Ends True (fun κ => write κ id v) s fun _ s' => Acted rank s s' := by
  have hinside : Ends True (fun κ => replaceOld κ id v) (s.hold (.node id)) fun _ s' =>
      Acted rank (s.hold (.node id)) s' := by
    refine .look ?_
    split
    · exact .ret ⟨hs.hold _, hq, .refl _⟩
    · exact .map (ends_replaceValue hsettle (keeps_hold s _ ht).1 (hs.hold _) hallowed hid hv)
        fun _ _ hacted => hacted
  refine .holdingValue ht (Or.inl hid) (fun _ κ hκ => staysAt_replaceOld hκ id hv) hinside ?_
  intro _ s' _ _ _ _ hacted
  exact ⟨hacted.calm.same rfl rfl rfl rfl hacted.calm.waiting hacted.calm.resting, hacted.quiet,
    ⟨hacted.onward.batches, hacted.onward.flushing, hacted.onward.observers⟩⟩

include hsettle in
private theorem ends_overwrite (ht : s.Tame) (hs : s.Calm rank)
    (hallowed : allowed s.queue.canFlush)
    {id : NodeId} (hid : s.kinds[id.index]? = some .source) {v : Json} (hv : v.Exact) :
    Ends True (fun κ => overwrite κ id v) s fun _ s' => Acted rank s s' := by
  refine .holdingValue ht (Or.inl hid) (fun _ κ hκ => staysAt_replaceValue hκ id
    (c := .signal v) hv)
    (ends_replaceValue hsettle (keeps_hold s _ ht).1 (hs.hold _) hallowed hid hv) ?_
  intro _ s' _ _ _ _ hacted
  exact ⟨hacted.calm.same rfl rfl rfl rfl hacted.calm.waiting hacted.calm.resting, hacted.quiet,
    ⟨hacted.onward.batches, hacted.onward.flushing, hacted.onward.observers⟩⟩

/-- A name of a signal is looked up, and a write is made. -/
theorem ends_withHandle (hs : s.Calm rank) (hq : s.Quiet) {x : String}
    {kind? : Handle → Option NodeId}
    (hkind : ∀ h id, kind? h = some id → h = .signal id ∨ h = .pair id)
    {body : Kernel → NodeId → Run (Option Json)}
    (hbody : ∀ id, s.kinds[id.index]? = some .source →
      Ends True (fun κ => body κ id) s fun _ s' => Acted rank s s') :
    Ends True (fun κ => withHandle x kind? (body κ)) s fun _ s' => Acted rank s s' := by
  refine .look ?_
  cases hx : (s.handle? x).bind kind? with
  | none => exact .ret ⟨hs, hq, .refl s⟩
  | some id =>
    rw [Option.bind_eq_some_iff] at hx
    obtain ⟨h, hh, hid⟩ := hx
    have hfits := hs.typed x h hh
    refine hbody id ?_
    rcases hkind h id hid with rfl | rfl
    · exact hfits
    · exact hfits

/-- A write is made unless a computed value is being evaluated. -/
theorem ends_ifWritable (hs : s.Calm rank) (hq : s.Quiet) {body : Kernel → Run Bool}
    (h : Ends True body s fun _ s' => Acted rank s s') :
    Ends True (fun κ => ifWritable (body κ)) s fun _ s' => Acted rank s s' := by
  refine .look ?_
  split
  · exact .ret ⟨hs, hq, .refl s⟩
  · exact .map h fun _ _ hacted => hacted

/-- A call without an answer. -/
theorem ends_noAnswer {body : Kernel → Run Unit}
    (h : Ends True body s fun _ s' => Acted rank s s') :
    Ends True (fun κ => noAnswer (body κ)) s fun _ s' => Acted rank s s' :=
  .map h fun _ _ hacted => hacted

include hsettle in
/-- Calls that log, read or write. -/
theorem ends_performOp {o : Op} (ho : o.Plain) (ht : s.Tame) (hs : s.Calm rank) (hq : s.Quiet)
    (hallowed : allowed s.queue.canFlush) :
    Ends True (fun κ => performOp κ o) s fun _ s' => Acted rank s s' := by
  have hensure (v : NodeId → Kernel → Run Unit) (hstays : ∀ id s, Stays Anything (v id) s)
      (hv : ∀ id, s.kinds[id.index]? = some .source → Ends True (v id) s
        fun _ s' => Acted rank s s')
      (id : NodeId) (hid : s.kinds[id.index]? = some .source) :
      Ends True (fun κ => do
        ensureWritable
        v id κ) s fun _ s' => Acted rank s s' := by
    have hwritable : Ends True (fun _ => ensureWritable) s fun _ s' => s' = s := by
      refine .look ?_
      split
      · exact .raise trivial
      · exact .ret rfl
    refine .bind ht (fun _ _ => staysAt_ensureWritable) hwritable (fun _ s' _ _ => hstays id s') ?_
    rintro _ _ _ _ _ _ rfl
    exact hv id hid
  cases ho with
  | log v =>
    refine ends_noAnswer (.step ⟨?_, hq, ⟨rfl, rfl, rfl⟩⟩)
    exact hs.same rfl rfl rfl rfl hs.waiting hs.resting
  | get x => exact ends_read_acts ht hs hq x
  | peek x =>
    exact ends_untracked ht hs (fun _ κ hκ => staysAt_read hκ x) fun hentered =>
      ends_read_acts (keeps_tracking s _ ht).1 hentered hq x
  | size x => exact ends_readSize_acts ht hs hq x
  | set x hv =>
    refine ends_withHandle hs hq ?_ fun id hid => ends_noAnswer
      (hensure (fun id κ => do let _ ← write κ id _) ?_ ?_ id hid)
    · intro h id hid
      cases h <;> simp_all [Handle.signal?]
    · exact fun id s κ hκ => (staysAt_write hκ id hv).bind fun _ _ _ _ => .ret trivial
    · exact fun id hid => .map (ends_write hsettle ht hs hq hallowed hid hv)
        fun _ _ hacted => hacted
  | trySet x hv =>
    refine ends_withHandle hs hq ?_ fun id hid =>
      ends_ifWritable hs hq (ends_write hsettle ht hs hq hallowed hid hv)
    intro h id hid
    cases h <;> simp_all [Handle.signal?]
  | update x hv =>
    refine ends_withHandle hs hq ?_ fun id hid => ends_noAnswer
      (hensure (fun id κ => overwrite κ id _) ?_ ?_ id hid)
    · intro h id hid
      cases h <;> simp_all [Handle.signal?]
    · exact fun id s κ hκ => staysAt_overwrite hκ id hv
    · exact fun id hid => ends_overwrite hsettle ht hs hallowed hid hv
  | tryUpdate x hv =>
    refine ends_withHandle hs hq ?_ fun id hid => ends_ifWritable hs hq
      (.map (ends_overwrite hsettle ht hs hallowed hid hv) fun _ _ hacted => hacted)
    intro h id hid
    cases h <;> simp_all

/-! ## Creating -/

/-- Binding a name does no more to what waits than ending something. -/
theorem disposes_bindName {s : State} (hs : s.Calm rank) (ht : s.Tame) {name : Option String}
    {h : Handle} (hfits : h.Fits s.kinds)
    (hnew : ∀ x id, h.value? = some id → s.lookup x ≠ some id)
    (hcomputed : ∀ y ∈ name, ∀ id p v, h.value? = some id → s.cells[id]? = some (.computed p v) →
      p.Computes fun x => rank x < rank y)
    (hi : (s.bindName name h).Intact) : Disposes rank s (s.bindName name h) := by
  have hcalm := hs.bindName ht hfits hnew hcomputed hi
  cases name with
  | none => exact disposes_releaseHandle ht h hcalm
  | some name =>
    have ht' : (s.withName name h).Tame :=
      ⟨ht.cells, ht.scopes, ht.deferred, ht.uncaught, ht.clients⟩
    rw [State.bindName, rebind] at hcalm ⊢
    cases hold : s.handle? name with
    | none =>
      simp only [hold] at hcalm ⊢
      exact ⟨hcalm, ⟨rfl, rfl, rfl⟩, List.Subset.refl _, rfl, Nat.le_refl _⟩
    | some old =>
      simp only [hold] at hcalm ⊢
      have hreleased := disposes_releaseHandle ht' old hcalm
      exact ⟨hcalm, ⟨hreleased.onward.batches, hreleased.onward.flushing,
        hreleased.onward.observers⟩, hreleased.pending, hreleased.deferred, hreleased.size⟩

/-- A name is bound to something new. -/
theorem acted_bindName {s₁ : State} (honward : s.Onward s₁) (hs : s₁.Calm rank) (hq : s₁.Quiet)
    (ht : s₁.Tame) {name : Option String} {h : Handle} (hfits : h.Fits s₁.kinds)
    (hnew : ∀ x id, h.value? = some id → s₁.lookup x ≠ some id)
    (hcomputed : ∀ y ∈ name, ∀ id p v, h.value? = some id → s₁.cells[id]? = some (.computed p v) →
      p.Computes fun x => rank x < rank y)
    (hi : (s₁.bindName name h).Intact) : Acted rank s (s₁.bindName name h) := by
  have hdisposes := disposes_bindName hs ht hfits hnew hcomputed hi
  exact ⟨hdisposes.calm, hdisposes.quiet hq, honward.trans hdisposes.onward⟩

/-- Creating a signal. -/
theorem ends_createSignal (ht : s.Tame) (hs : s.Calm rank) (hq : s.Quiet) (name : Option String)
    (handle : NodeId → Handle) (hvalue : ∀ id, (handle id).value? = some id)
    (hfits : ∀ (kinds : Array Graph.Kind) (id : NodeId), kinds[id.index]? = some .source →
      (handle id).Fits kinds) {v : Json} (hv : v.Exact) :
    Ends True (fun _ => createSignal name handle v) s fun _ s' => Acted rank s s' := by
  have hend : Ends True (fun _ => createSignal name handle v) s fun _ s' =>
      s' = (s.withNode .source (.signal v)).bindName name (handle ⟨s.kinds.size⟩) :=
    .changeGet (.step rfl)
  refine .mono ht (fun _ _ => staysAt_createSignal name hvalue hv) hend ?_
  rintro _ _ _ _ _ hi rfl
  have hcell : (Cell.signal v).Tame := hv
  have hcreated : (s.withNode .source (.signal v)).Calm rank := hs.withNode ⟨v, rfl⟩
  have ht' := (keeps_withNode s .source hcell ht).1
  have honward : s.Onward (s.withNode .source (.signal v)) := ⟨rfl, rfl, rfl⟩
  have hid : (s.withNode .source (.signal v)).kinds[(⟨s.kinds.size⟩ : NodeId).index]? =
      some .source := kinds_withNode_self _ _ _
  refine acted_bindName honward hcreated hq ht' (hfits _ _ hid) ?_ ?_ hi
  · intro x id hid
    rw [hvalue, Option.some.injEq] at hid
    exact hid ▸ hs.sound.lookup_ne_next x
  · intro y _ id p w hid hcell
    rw [hvalue, Option.some.injEq] at hid
    subst hid
    rw [cells_withNode_self] at hcell
    simp at hcell

/-- Handing a node over changes nothing but scopes. -/
theorem adopted_eq (s : State) (id : NodeId) : ∃ scopes, s.adopted id = { s with scopes } := by
  rw [adopted]
  split
  · exact ⟨_, rfl⟩
  · exact ⟨s.scopes, rfl⟩

/-- Handing a node over creates none. -/
theorem kinds_adopted (s : State) (id : NodeId) : (s.adopted id).kinds = s.kinds := by
  obtain ⟨scopes, h⟩ := adopted_eq s id
  rw [h]

/-- Handing a node over leaves effects as they are. -/
theorem effect?_adopted (s : State) (id j : NodeId) : (s.adopted id).effect? j = s.effect? j := by
  obtain ⟨scopes, h⟩ := adopted_eq s id
  rw [h]
  rfl

private theorem cells_adopted (s : State) (id : NodeId) : (s.adopted id).cells = s.cells := by
  obtain ⟨scopes, h⟩ := adopted_eq s id
  rw [h]

private theorem lookup_adopted (s : State) (id : NodeId) (x : String) :
    (s.adopted id).lookup x = s.lookup x := by
  obtain ⟨scopes, h⟩ := adopted_eq s id
  rw [h]
  rfl

/-- Handing a node over is acting. -/
theorem acted_adopted (hs : s.Calm rank) (hq : s.Quiet) (id : NodeId) :
    Acted rank s (s.adopted id) := by
  obtain ⟨scopes, h⟩ := adopted_eq s id
  rw [h]
  exact ⟨hs.same rfl rfl rfl rfl hs.waiting hs.resting, hq, ⟨rfl, rfl, rfl⟩⟩

/-- Creating a computed value. -/
theorem ends_createComputed (ht : s.Tame) (hs : s.Calm rank) (hq : s.Quiet) (name : Option String)
    {p : Program} (hp : p.Computes fun x => ∀ y ∈ name, rank x < rank y) :
    Ends True (fun _ => createComputed name p) s fun _ s' => Acted rank s s' := by
  have hend : Ends True (fun _ => createComputed name p) s fun _ s' =>
      s' = ((s.withNode .derived (.computed p none)).adopted ⟨s.kinds.size⟩).bindName name
        (.computed ⟨s.kinds.size⟩) :=
    .changeGet (.change (.step rfl))
  refine .mono ht (fun _ _ => staysAt_createComputed name hp) hend ?_
  rintro _ _ _ _ _ hi rfl
  have hcell : (Cell.computed p none).Tame := ⟨⟨_, hp⟩, by simp⟩
  have hcreated : (s.withNode .derived (.computed p none)).Calm rank := hs.withNode ⟨p, rfl⟩
  have hadopted := acted_adopted hcreated hq ⟨s.kinds.size⟩
  have ht' : ((s.withNode .derived (.computed p none)).adopted ⟨s.kinds.size⟩).Tame :=
    ((keeps_withNode s .derived hcell).trans (keeps_adopt _ ⟨s.kinds.size⟩) ht).1
  have honward : s.Onward (s.withNode .derived (.computed p none)) := ⟨rfl, rfl, rfl⟩
  refine acted_bindName (honward.trans hadopted.onward) hadopted.calm hadopted.quiet ht' ?_ ?_ ?_ hi
  · rw [kinds_adopted]
    exact kinds_withNode_self s _ _
  · rintro x id ⟨⟩
    rw [lookup_adopted]
    exact hs.sound.lookup_ne_next x
  · rintro y hy _ q v ⟨⟩ hq
    rw [cells_adopted, cells_withNode_self, Option.some.injEq, Cell.computed.injEq] at hq
    rw [← hq.1]
    exact hp.imp fun x hx => hx y hy

include hsettle in
/-- The first run of an effect, and what waits then. -/
theorem ends_startEffect {id : NodeId} (hrunnable : Runnable rank allowed s id) (ht : s.Tame)
    (hs : s.Calm rank) (hq : s.Quiet) (hallowed : allowed s.queue.canFlush)
    (hid : s.kinds[id.index]? = some .effect) (name : Option String) :
    Ends True (fun κ => startEffect κ id name) s fun _ s' => Acted rank s s' := by
  have hrest (s' : State) : Stays Anything (fun κ => do
      settle κ
      modify (·.bindName name (.effect id))) s' := fun κ hκ =>
    (staysAt_settle hκ).bind fun _ s'' _ _ => .step
      ((Keeps.refl s'').bindName rfl name (by simp [Handle.value?]))
  have hbind (s' : State) : Stays Anything (fun _ => modify (·.bindName name (.effect id))) s' :=
    fun _ _ => .step ((Keeps.refl s').bindName rfl name (by simp [Handle.value?]))
  refine .bind ht (fun κ hκ => hκ.callRefresh id)
    (.callRefresh (ends_refresh_effect hrunnable ht hs hq hallowed hid))
    (fun _ s' _ _ => hrest s') ?_
  intro _ s₁ _ ht₁ _ _ hreacted
  refine .bind ht₁ (fun κ hκ => staysAt_settle hκ) (hsettle s₁ ht₁ hreacted.calm
    (by rwa [hreacted.onward.canFlush])) (fun _ s' _ _ => hbind s') ?_
  intro _ s₂ _ ht₂ _ _ hacted
  have hend : Ends True (fun _ => (modify (·.bindName name (.effect id)) : Run Unit)) s₂
      fun _ s' => s' = s₂.bindName name (.effect id) := .step rfl
  refine .mono ht₂ (hbind s₂) hend ?_
  rintro _ _ _ _ _ hi rfl
  have hfits : (Handle.effect id).Fits s₂.kinds := trivial
  exact acted_bindName (hreacted.onward.trans hacted.onward) hacted.calm hacted.quiet ht₂ hfits
    (by simp [Handle.value?]) (by simp [Handle.value?]) hi

/-- A state with a new effect in a new scope. -/
def State.withEffect (s : State) (p : Program) (fallible : Bool) : State :=
  { s with scopes := (s.scopes.create s.scopes.current?).2 }.withNode .effect (.effect {
    reaction := .body p fallible
    scope := (s.scopes.create s.scopes.current?).1
    supply := none })

private theorem keeps_withEffect (s : State) {p : Program} (hp : p.Acts rank)
    (fallible : Bool) : s.Keeps (s.withEffect p fallible) :=
  (keeps_createScope s s.scopes.current?).trans
    (keeps_withNode _ .effect ⟨rfl, p, fallible, rank, rfl, hp⟩)

private theorem acted_withEffect {p : Program} (hp : p.Acts rank) (fallible : Bool)
    (hs : s.Calm rank)
    (hq : s.Quiet) :
    Acted rank s (s.withEffect p fallible) := by
  have hcreated : { s with scopes := (s.scopes.create s.scopes.current?).2 }.Calm rank :=
    hs.same rfl rfl rfl rfl hs.waiting hs.resting
  have hcalm : (s.withEffect p fallible).Calm rank :=
    hcreated.withNode ⟨_, p, fallible, rfl, rfl, hp⟩
  exact ⟨hcalm, hq, ⟨rfl, rfl, rfl⟩⟩

/-- A new effect can run if its program can. -/
theorem runnable_withEffect {p : Program} (fallible : Bool) (hexec : ActsOut rank allowed p) :
    Runnable rank allowed ((s.withEffect p fallible).adopted ⟨s.kinds.size⟩) ⟨s.kinds.size⟩ := by
  intro e he
  rw [effect?_adopted, State.effect?, withEffect, State.withNode, Std.HashMap.getElem?_insert_self,
    Option.some.injEq] at he
  subst he
  exact ⟨p, fallible, rfl, hexec⟩

include hsettle in
/-- Creating an effect. -/
theorem ends_createEffect {p : Program} {fallible : Bool} (hp : p.Acts rank)
    (hexec : ActsOut rank allowed p) (ht : s.Tame) (hs : s.Calm rank) (hq : s.Quiet)
    (hallowed : allowed s.queue.canFlush) (name : Option String) :
    Ends True (fun κ => createEffect κ (.body p fallible) none name) s fun _ s' =>
        Acted rank s s' := by
  have hcreated := acted_withEffect hp fallible hs hq
  have hadopted := acted_adopted hcreated.calm hcreated.quiet ⟨s.kinds.size⟩
  have honward := hcreated.onward.trans hadopted.onward
  have ht' := ((keeps_withEffect s hp fallible).trans (keeps_adopt _ ⟨s.kinds.size⟩) ht).1
  have hid : ((s.withEffect p fallible).adopted ⟨s.kinds.size⟩).kinds[s.kinds.size]? =
      some .effect := by
    rw [kinds_adopted]
    exact kinds_withNode_self _ _ _
  have hstart := ends_startEffect hsettle
    (s := ((s.withEffect p fallible).adopted ⟨s.kinds.size⟩).hold (.node ⟨s.kinds.size⟩))
    (runnable_withEffect fallible hexec) (keeps_hold _ _ ht').1 (hadopted.calm.hold _)
    hadopted.quiet (by rwa [← honward.canFlush] at hallowed) hid name
  refine .look (.changeGet (.changeGet (.change (.holding ht'
    (fun _ κ hκ => staysAt_startEffect hκ ⟨s.kinds.size⟩ name) hstart ?_))))
  intro _ s' _ ht'' _ hi'' hacted _
  have hunhold := hacted.calm.disposes_unhold ht'' hi'' ⟨s.kinds.size⟩
  have hheld : ((s.withEffect p fallible).adopted ⟨s.kinds.size⟩).Onward s' :=
    ⟨hacted.onward.batches, hacted.onward.flushing, hacted.onward.observers⟩
  exact ⟨hunhold.calm, hunhold.quiet hacted.quiet, (honward.trans hheld).trans hunhold.onward⟩

end

end Engine

end Rivulet
