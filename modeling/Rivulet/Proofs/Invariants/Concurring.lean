import Rivulet.Proofs.Invariants.Change

/-!
# Runs as chains of steps

Whatever the engine does is a chain of steps, at the end of which the same batches, flush and
sections are open as at its beginning, whether it ends or is interrupted. What a part of it does
depends on the kernel that answers its calls only through the answers given in lawful states: two
kernels that do the same in lawful states make no difference. Both facts are one property of the
parts of the engine, proved for each part from the parts it is made of.
-/

namespace Rivulet.Engine

/-- From a lawful state two runs do the same, by a chain of steps, and the result and the state
behind an interruption have a property. -/
def Alike {α : Type} (law : Law) (P : α → State → Prop) (E : State → Prop) (x y : Run α)
    (s : State) : Prop :=
  law.Holds s → x s = y s ∧ match x s with
    | .ok a s' => Path s s' ∧ P a s'
    | .error _ s' => Path s s' ∧ E s'

namespace Alike

variable {α β : Type} {law : Law} {P P' : α → State → Prop} {Q : β → State → Prop}
  {E E' : State → Prop} {s : State}

/-- A result that has the property. -/
theorem ret {a : α} (h : P a s) : Alike law P E (pure a : Run α) (pure a) s :=
  fun _ => ⟨rfl, .refl, h⟩

/-- A failure that leaves the right state. -/
theorem raise (e : Interrupt) (h : E s) : Alike law P E (throw e : Run α) (throw e) s :=
  fun _ => ⟨rfl, .refl, h⟩

/-- A change of the state with a result. -/
theorem stepGet {f : State → α × State} (h : law.Holds s → Path s (f s).2)
    (hP : law.Holds s → P (f s).1 (f s).2) :
    Alike law P E (modifyGet f : Run α) (modifyGet f) s :=
  fun hs => ⟨rfl, h hs, hP hs⟩

/-- What comes out may be described more weakly. -/
theorem mono {x y : Run α} (h : Alike law P E x y s)
    (hP : ∀ a s', Path s s' → P a s' → P' a s') (hE : ∀ s', Path s s' → E s' → E' s') :
    Alike law P' E' x y s := by
  intro hs
  obtain ⟨heq, hpost⟩ := h hs
  refine ⟨heq, ?_⟩
  cases he : x s with
  | error e s' =>
    rw [he] at hpost
    exact ⟨hpost.1, hE s' hpost.1 hpost.2⟩
  | ok a s' =>
    rw [he] at hpost
    exact ⟨hpost.1, hP a s' hpost.1 hpost.2⟩

/-- Two runs one after the other, from the state between them on. -/
theorem bind {x y : Run α} {f g : α → Run β} (hx : Alike law P E x y s)
    (hf : ∀ a s', Path s s' → P a s' → Alike law Q E (f a) (g a) s') :
    Alike law Q E (x >>= f) (y >>= g) s := by
  intro hs
  obtain ⟨heq, hpost⟩ := hx hs
  show EStateM.bind x f s = EStateM.bind y g s ∧ match EStateM.bind x f s with
    | .ok b s' => Path s s' ∧ Q b s'
    | .error _ s' => Path s s' ∧ E s'
  rw [EStateM.bind, EStateM.bind, ← heq]
  cases he : x s with
  | error e s' =>
    rw [he] at hpost
    exact ⟨rfl, hpost⟩
  | ok a s' =>
    rw [he] at hpost
    obtain ⟨heq', hpost'⟩ := hf a s' hpost.1 hpost.2 (law.path hs hpost.1)
    refine ⟨heq', ?_⟩
    simp only
    cases hr : f a s' with
    | error e s'' =>
      rw [hr] at hpost'
      exact ⟨hpost.1.trans hpost'.1, hpost'.2⟩
    | ok b s'' =>
      rw [hr] at hpost'
      exact ⟨hpost.1.trans hpost'.1, hpost'.2⟩

/-- A change of the state, behind which a run starts. -/
theorem change {f : State → State} {k k' : Unit → Run β} (h : law.Holds s → Path s (f s))
    (hk : Path s (f s) → Alike law Q E (k ()) (k' ()) (f s)) :
    Alike law Q E (modify f >>= k) (modify f >>= k') s := by
  intro hs
  refine Alike.bind (P := fun _ s' => s' = f s) (.stepGet h fun _ => rfl) ?_ hs
  rintro ⟨⟩ _ hpath rfl
  exact hk hpath

/-- Something is restored, however both end. -/
theorem guarding {restore : State → State} {x y : Run α} (h : Alike law P E x y s)
    (hP : ∀ a s', Path s s' → P a s' → Path s' (restore s') ∧ P' a (restore s'))
    (hE : ∀ s', Path s s' → E s' → Path s' (restore s') ∧ E' (restore s')) :
    Alike law P' E' (guarding restore x) (guarding restore y) s := by
  intro hs
  obtain ⟨heq, hpost⟩ := h hs
  rw [Engine.guarding, Engine.guarding, ← heq]
  refine ⟨rfl, ?_⟩
  cases he : x s with
  | error e s' =>
    rw [he] at hpost
    obtain ⟨hpath, hE'⟩ := hE s' hpost.1 hpost.2
    exact ⟨hpost.1.trans hpath, hE'⟩
  | ok a s' =>
    rw [he] at hpost
    obtain ⟨hpath, hP'⟩ := hP a s' hpost.1 hpost.2
    exact ⟨hpost.1.trans hpath, hP'⟩

/-- Something is restored if both fail. -/
theorem onInterrupt {restore : State → State} {x y : Run α} (h : Alike law P E x y s)
    (hE : ∀ s', Path s s' → E s' → Path s' (restore s') ∧ E' (restore s')) :
    Alike law P E' (onInterrupt restore x) (onInterrupt restore y) s := by
  intro hs
  obtain ⟨heq, hpost⟩ := h hs
  rw [Engine.onInterrupt, Engine.onInterrupt, ← heq]
  refine ⟨rfl, ?_⟩
  cases he : x s with
  | error e s' =>
    rw [he] at hpost
    obtain ⟨hpath, hE'⟩ := hE s' hpost.1 hpost.2
    exact ⟨hpost.1.trans hpath, hE'⟩
  | ok a s' =>
    rw [he] at hpost
    exact hpost

/-- A run in one of two cases. -/
theorem ite {c : Prop} [Decidable c] {x x' y y' : Run α} (h : c → Alike law P E x y s)
    (h' : ¬ c → Alike law P E x' y' s) :
    Alike law P E (if c then x else x') (if c then y else y') s := by
  by_cases hc : c
  · rw [if_pos hc, if_pos hc]
    exact h hc
  · rw [if_neg hc, if_neg hc]
    exact h' hc

end Alike

/-- What a run in its balance does to the state: it opens and closes the same, and at its end no
effect waits that could run, if none did at its beginning. -/
structure State.Balanced (s s' : State) : Prop where
  /-- The same is open. -/
  onward : s.Onward s'
  /-- No effect waits that could run. -/
  flushed : s.Flushed → s'.Flushed

private theorem State.Balanced.refl (s : State) : s.Balanced s := ⟨.refl s, fun h => h⟩

private theorem State.Balanced.trans {s s' s'' : State} (h : s.Balanced s') (h' : s'.Balanced s'') :
    s.Balanced s'' := ⟨h.onward.trans h'.onward, fun hs => h'.flushed (h.flushed hs)⟩

/-- Changes leave the same open. -/
theorem Leads.balanced {s s' : State} (h : Leads s s') : s.Balanced s' :=
  ⟨h.onward.1, h.flushed⟩

/-- From a lawful state two runs do the same, in their balance, and what comes out has a
property. -/
def Concur {α : Type} (law : Law) (P : α → State → Prop) (x y : Run α) (s : State) : Prop :=
  Alike law (fun a s' => P a s' ∧ s.Balanced s') s.Onward x y s

/-- Nothing is said of a result. -/
abbrev Whatever {α : Type} : α → State → Prop := fun _ _ => True

namespace Concur

variable {α β : Type} {law : Law} {P : α → State → Prop} {Q : β → State → Prop} {s : State}

/-- A result that has the property, and no change. -/
theorem ret {a : α} (h : P a s) : Concur law P (pure a : Run α) (pure a) s :=
  Alike.ret ⟨h, .refl s⟩

/-- A failure without a change. -/
theorem raise (e : Interrupt) : Concur law P (throw e : Run α) (throw e) s :=
  Alike.raise e (.refl s)

/-- A lawful change that gives a result. -/
theorem stepGet {f : State → α × State} (h : law.Holds s → Leads s (f s).2)
    (hP : law.Holds s → P (f s).1 (f s).2) :
    Concur law P (modifyGet f : Run α) (modifyGet f) s :=
  Alike.stepGet (fun hs => (h hs).path) fun hs => ⟨hP hs, (h hs).balanced⟩

/-- A lawful change. -/
theorem step {f : State → State} (h : law.Holds s → Leads s (f s)) :
    Concur law Whatever (modify f : Run Unit) (modify f) s :=
  .stepGet h fun _ => trivial

/-- A run that starts behind a step which opens and closes nothing. -/
theorem after {x y : Run β} {s' : State} (honward : s.Onward s')
    (hflushed : s.Flushed → (∀ b s'', s'.Balanced s'' → Q b s'' → s''.Flushed) ∨ s'.Flushed)
    (h : Concur law Q x y s') :
    Alike law (fun b s'' => Q b s'' ∧ s.Balanced s'') s.Onward x y s' :=
  Alike.mono h
    (fun b s'' _ hb => ⟨hb.1, honward.trans hb.2.onward, fun hs =>
      (hflushed hs).elim (fun hend => hend b s'' hb.2 hb.1) hb.2.flushed⟩)
    fun _ _ h => honward.trans h

/-- Two runs one after the other, behind what was there before. -/
theorem bind {x y : Run α} {f g : α → Run β} (hx : Concur law P x y s)
    (hf : ∀ a s', s.Before s' → P a s' → Concur law Q (f a) (g a) s') :
    Concur law Q (x >>= f) (y >>= g) s :=
  Alike.bind hx fun a s' hpath ha =>
    (hf a s' hpath.before ha.1).after ha.2.onward fun hs => .inr (ha.2.flushed hs)

/-- A look at the state. -/
theorem look {f g : State → Run β} (h : law.Holds s → Concur law Q (f s) (g s) s) :
    Concur law Q (get >>= f) (get >>= g) s := fun hs => h hs hs

/-- A change of the state, which is known behind it. -/
theorem change {f : State → State} {k k' : Unit → Run β} (h : law.Holds s → Leads s (f s))
    (hk : s.Before (f s) → Concur law Q (k ()) (k' ()) (f s)) :
    Concur law Q (modify f >>= k) (modify f >>= k') s := by
  intro hs
  exact Alike.change (fun hs => (h hs).path)
    (fun hpath => (hk hpath.before).after (h hs).onward.1 fun hf => .inr ((h hs).flushed hf)) hs

/-- A step that lets effects wait, behind which they run. -/
theorem passing {f : State → State} {k k' : Unit → Run β} (h : law.Holds s → Passage s (f s))
    (honward : s.Onward (f s)) (hQ : ∀ b s', Q b s' → s'.Flushed)
    (hk : s.Before (f s) → Concur law Q (k ()) (k' ()) (f s)) :
    Concur law Q (modify f >>= k) (modify f >>= k') s :=
  Alike.change (fun hs => .single (.inr (h hs))) fun hpath =>
    (hk hpath.before).after honward fun _ => .inl fun b s' _ => hQ b s'

/-- The result may be described more weakly. -/
theorem mono {P' : α → State → Prop} {x y : Run α} (h : Concur law P x y s)
    (hP : ∀ a s', s.Before s' → P a s' → P' a s') : Concur law P' x y s :=
  Alike.mono h (fun a s' hpath ha => ⟨hP a s' hpath.before ha.1, ha.2⟩) fun _ _ h => h

/-- What is true of the result anyway. -/
theorem whatever {x y : Run α} (h : Concur law P x y s) : Concur law Whatever x y s :=
  h.mono fun _ _ _ _ => trivial

/-- Something is restored by changes, however both end. -/
theorem guarding {restore : State → State} {x y : Run α} (h : Concur law Whatever x y s)
    (hr : ∀ s' : State, Leads s' (restore s')) :
    Concur law Whatever (guarding restore x) (guarding restore y) s :=
  Alike.guarding h (fun _ s' _ h => ⟨(hr s').path, trivial, h.2.trans (hr s').balanced⟩)
    fun s' _ h => ⟨(hr s').path, h.trans (hr s').onward.1⟩

/-- Something is restored by changes if both fail. -/
theorem onInterrupt {restore : State → State} {x y : Run α} (h : Concur law P x y s)
    (hr : ∀ s' : State, Leads s' (restore s')) :
    Concur law P (onInterrupt restore x) (onInterrupt restore y) s :=
  Alike.onInterrupt h fun s' _ h => ⟨(hr s').path, h.trans (hr s').onward.1⟩

/-- The same for all of a list. -/
theorem forM {f g : β → Run Unit} {l : List β}
    (h : ∀ b ∈ l, ∀ s, Concur law Whatever (f b) (g b) s) :
    Concur law Whatever (l.forM f) (l.forM g) s := by
  induction l generalizing s with
  | nil => exact .ret trivial
  | cons b l ih =>
    refine (h b List.mem_cons_self s).bind fun _ _ _ _ => ?_
    exact ih fun c hc => h c (List.mem_cons_of_mem b hc)

/-- A run in one of two cases. -/
theorem ite {c : Prop} [Decidable c] {x x' y y' : Run α} (h : c → Concur law P x y s)
    (h' : ¬ c → Concur law P x' y' s) :
    Concur law P (if c then x else x') (if c then y else y') s := Alike.ite h h'

end Concur

/-- What a call needs: only computed values are asked for as such. -/
def Call.Apt (s : State) : Call → Prop
  | .read id => s.kinds[id.index]? = some .derived
  | _ => True

/-- Two kernels that do the same in lawful states, by chains of steps. -/
def Interchangeable (law : Law) (κ κ' : Kernel) : Prop :=
  ∀ c s, c.Apt s → Concur law Whatever (κ c) (κ' c) s

section

variable {law : Law} {κ κ' : Kernel} (hκ : Interchangeable law κ κ') {s : State}

include hκ in
/-- Running a program is the same with both kernels. -/
theorem concur_exec (p : Program) : Concur law Whatever (κ.exec p) (κ'.exec p) s :=
  hκ _ s trivial

include hκ in
/-- Running a program for its value is the same with both kernels. -/
theorem concur_eval (p : Program) : Concur law Whatever (κ.eval p) (κ'.eval p) s :=
  (hκ (.exec p) s trivial).bind fun _ _ _ _ => .ret trivial

include hκ in
/-- Performing a program is the same with both kernels. -/
theorem concur_perform (p : Program) : Concur law Whatever (κ.perform p) (κ'.perform p) s :=
  (hκ (.exec p) s trivial).bind fun _ _ _ _ => .ret trivial

include hκ in
/-- The call that brings a node up to date is the same with both kernels. -/
theorem concur_callRefresh (id : NodeId) :
    Concur law Whatever (κ.refresh id) (κ'.refresh id) s :=
  (hκ (.refresh id) s trivial).bind fun _ _ _ _ => .ret trivial

include hκ in
/-- The call that reads a computed value is the same with both kernels. -/
theorem concur_callRead {id : NodeId} (h : s.kinds[id.index]? = some .derived) :
    Concur law Whatever (κ.read id) (κ'.read id) s :=
  (hκ (.read id) s h).bind fun _ _ _ _ => .ret trivial

include hκ in
/-- The call that ends a scope is the same with both kernels. -/
theorem concur_callDispose (id : ScopeId) :
    Concur law Whatever (κ.dispose id) (κ'.dispose id) s :=
  (hκ (.dispose id) s trivial).bind fun _ _ _ _ => .ret trivial

include hκ in
/-- The call that does what was put off is the same with both kernels. -/
theorem concur_callDrain : Concur law Whatever κ.drain κ'.drain s :=
  (hκ .drain s trivial).bind fun _ _ _ _ => .ret trivial

include hκ in
/-- The call that reports an error is the same with both kernels. -/
theorem concur_callReport (scope : Option ScopeId) (error : String) :
    Concur law Whatever (κ.report scope error) (κ'.report scope error) s :=
  (hκ (.report scope error) s trivial).bind fun _ _ _ _ => .ret trivial

/-! ## Sections, uses and current scopes -/

/-- Doing something in a scope is the same with both kernels. -/
theorem concur_withScope {α : Type} {id : ScopeId} {x y : Run α}
    (h : ∀ s, Concur law Whatever x y s) :
    Concur law Whatever (withScope id x) (withScope id y) s :=
  .change (fun _ => .one (.enterScope id)) fun _ =>
    (h _).guarding fun _ => .one (.leaveScope id)

/-- An untracked section is the same with both kernels. -/
theorem concur_untracked {α : Type} {x y : Run α}
    (h : ∀ s', s.Before s' → Concur law Whatever x y s') :
    Concur law Whatever (untracked x) (untracked y) s := by
  refine Alike.change (fun _ => .single (.inr (.openSection .untracked))) fun hpath => ?_
  refine Alike.guarding (h _ hpath.before) (fun a s' _ h => ?_) fun s' _ h => ?_
  · exact ⟨.single (.inr .dropSection), trivial, h.2.onward.leave s'.graph, h.2.flushed⟩
  · exact ⟨.single (.inr .dropSection), h.leave s'.graph⟩

/-- A tracked section is the same with both kernels. -/
theorem concur_tracked {α : Type} {id : NodeId} {o : Tracking.Observer} {x y : Run α}
    (hid : MayRead s.kinds id) (h : ∀ s', s.Before s' → Concur law Whatever x y s') :
    Concur law Whatever (tracked id o x) (tracked id o y) s := by
  refine Alike.change (fun _ => .single (.inr (.openSection o))) fun hpath => ?_
  have hx : Alike law (fun _ s' => (s.modifyTracking (·.enter o)).Balanced s') s.Onward
      (onInterrupt (·.modifyTracking (·.leave.2)) x) (onInterrupt (·.modifyTracking (·.leave.2)) y)
      (s.modifyTracking (·.enter o)) :=
    Alike.onInterrupt (Alike.mono (h _ hpath.before) (fun _ _ _ h => h.2) fun _ _ h => h)
      fun s' _ h => ⟨.single (.inr .dropSection), h.leave s'.graph⟩
  refine hx.bind fun a s' hpath' ha => ?_
  have hid' : MayRead s'.kinds id := hpath'.before.mayRead (hpath.before.mayRead hid)
  refine Alike.change (fun _ => .single (.inr (.endRun id hid'))) fun _ => Alike.ret ?_
  exact ⟨trivial, ha.onward.leave _, ha.flushed⟩

/-- Doing something while a node is in use is the same with both kernels. -/
theorem concur_holding {α : Type} {id : NodeId} {x y : Run α}
    (h : ∀ s', s.Before s' → Concur law Whatever x y s') :
    Concur law Whatever (holding id x) (holding id y) s :=
  .change (fun _ => State.leads_hold s _) fun hb =>
    (h _ hb).guarding fun _ => State.leads_unhold _ _

/-- Doing something while query data is in use is the same with both kernels. -/
theorem concur_holdingClient {α : Type} {id : ClientId} {x y : Run α}
    (h : ∀ s, Concur law Whatever x y s) :
    Concur law Whatever (holdingClient id x) (holdingClient id y) s :=
  .change (fun _ => State.leads_hold s _) fun _ =>
    (h _).guarding fun _ => State.leads_unhold _ _

/-- Doing something with query data at hand is the same with both kernels. -/
theorem concur_withSupply {α : Type} {supply : Option Supply} {x y : Run α}
    (h : ∀ s', s.Before s' → Concur law Whatever x y s') :
    Concur law Whatever (withSupply supply x) (withSupply supply y) s := by
  cases supply with
  | none => exact h s (.refl s)
  | some supply =>
    exact .change (fun _ => Leads.aside (by constructor <;> rfl)) fun hb =>
      (h _ hb).guarding State.leads_leaveSupply

include hκ in
/-- Behind the last one no effect waits. -/
theorem concur_runWaiting (n : Nat) :
    Concur law (fun _ s' => s'.queue.pending = []) (runWaiting κ n) (runWaiting κ' n) s := by
  induction n generalizing s with
  | zero => exact .stepGet (fun _ => .one .clear) fun _ => rfl
  | succ n ih =>
    refine (Concur.stepGet (P := fun next s' => next = none → s'.queue.pending = [])
      (fun _ => .one .pop) fun _ => ?_).bind fun next s' _ hnext => ?_
    · cases hpending : s.queue.pending <;> simp [Queue.pop, hpending]
    · cases next with
      | none => exact .ret (hnext rfl)
      | some id => exact (concur_callRefresh hκ id).bind fun _ _ _ _ => ih

include hκ in
/-- A flush is the same with both kernels. -/
theorem concur_flush :
    Concur law (fun _ => State.Flushed) (flush κ) (flush κ') s := by
  refine .look fun _ => ?_
  cases hbegin : s.queue.beginFlush with
  | none =>
    have hclosed := Queue.canFlush_of_flushing (Queue.beginFlush_eq_none.1 hbegin)
    exact .ret fun hflush => by simp [hclosed] at hflush
  | some q =>
    obtain ⟨hflushing, rfl⟩ := Queue.beginFlush_eq_some.1 hbegin
    have hopen : Passage s { s with queue := { s.queue with flushing := true } } :=
      .pace ({ · with flushing := true }) fun _ => rfl
    have hclose (s' : State) : Path s' (s'.modifyQueue Queue.endFlush) :=
      .single (.inr (.pace Queue.endFlush fun _ => rfl))
    have honward {s' : State}
        (h : ({ s with queue := { s.queue with flushing := true } } : State).Onward s') :
        s.Onward (s'.modifyQueue Queue.endFlush) := ⟨h.batches, hflushing.symm, h.observers⟩
    refine Alike.change (fun _ => .single (.inr hopen)) fun hpath => ?_
    refine (Alike.guarding (concur_runWaiting hκ flushLimit) (fun a s' _ h => ?_)
      fun s' _ h => ?_).bind (P := fun _ s' => s.Onward s' ∧ s'.Flushed) fun _ s' _ h => ?_
    · exact ⟨hclose s', honward h.2.onward, fun _ => h.1⟩
    · exact ⟨hclose s', honward h⟩
    · refine Alike.mono (concur_callDrain hκ) (fun _ s'' _ h' => ?_) fun s'' _ h' => ?_
      · exact ⟨h'.2.flushed h.2, h.1.trans h'.2.onward, fun _ => h'.2.flushed h.2⟩
      · exact h.1.trans h'

include hκ in
/-- Settling what waits and what was put off is the same with both kernels. -/
theorem concur_settle : Concur law (fun _ => State.Flushed) (settle κ) (settle κ') s :=
  .look fun _ => .ite (fun _ => concur_flush hκ) fun hflush => .ret fun h => absurd h hflush

include hκ in
/-- A batch is the same with both kernels. -/
theorem concur_batch {α : Type} {x y : Run α} (h : ∀ s, Concur law Whatever x y s) :
    Concur law Whatever (batch κ x) (batch κ' y) s := by
  have henter : Passage s (s.modifyQueue Queue.enterBatch) := .pace _ fun _ => rfl
  have hclose (s' : State) : Path s' (s'.modifyQueue Queue.exitBatch) :=
    .single (.inr (.pace Queue.exitBatch fun _ => rfl))
  have honward {s' : State} (h : (s.modifyQueue Queue.enterBatch).Onward s') :
      s.Onward (s'.modifyQueue Queue.exitBatch) :=
    ⟨congrArg (· - 1) h.batches, h.flushing, h.observers⟩
  refine Alike.change (fun _ => .single (.inr henter)) fun _ => ?_
  have hx : Alike law (fun _ s' => (s.modifyQueue Queue.enterBatch).Onward s') s.Onward
      (onInterrupt (·.modifyQueue Queue.exitBatch) x)
      (onInterrupt (·.modifyQueue Queue.exitBatch) y) (s.modifyQueue Queue.enterBatch) :=
    Alike.onInterrupt (Alike.mono (h _) (fun _ _ _ h => h.2.onward) fun _ _ h => h)
      fun s' _ h => ⟨hclose s', honward h⟩
  refine hx.bind fun a s' _ ha => ?_
  refine Alike.change (fun _ => hclose s') fun _ => ?_
  have hend : Concur law (fun _ => State.Flushed) (do settle κ; return a)
      (do settle κ'; return a) (s'.modifyQueue Queue.exitBatch) :=
    (concur_settle hκ).bind fun _ _ _ h => .ret h
  exact (hend.after (honward ha) fun _ => .inl fun _ _ _ h => h).mono
    (fun _ _ _ h => ⟨trivial, h.2⟩) fun _ _ h => h

/-- Marking what depends on a node opens and closes nothing. -/
theorem onward_markChanged (s : State) (id : NodeId) : s.Onward (s.markChanged id) := by
  have hall (q : Queue) (ids : List NodeId) : (q.scheduleAll ids).batches = q.batches ∧
      (q.scheduleAll ids).flushing = q.flushing := by
    induction ids generalizing q with
    | nil => exact ⟨rfl, rfl⟩
    | cons id ids ih =>
      obtain ⟨hbatches, hflushing⟩ := ih (q.schedule id)
      rw [Queue.scheduleAll, List.foldl_cons]
      refine ⟨hbatches.trans ?_, hflushing.trans ?_⟩ <;>
        · rw [Queue.schedule]
          split <;> rfl
  exact ⟨(hall _ _).1, (hall _ _).2, rfl⟩

/-- Letting an effect wait opens and closes nothing. -/
theorem onward_scheduled (s : State) (id : NodeId) : s.Onward (s.scheduled id) := by
  rw [State.scheduled]
  split
  · refine ⟨?_, ?_, rfl⟩ <;>
      · simp only [Queue.schedule]
        split <;> rfl
  · exact .refl s

include hκ in
private theorem concur_notify (id : NodeId) : Concur law Whatever (notify κ id) (notify κ' id) s :=
  (Concur.passing (Q := fun _ => State.Flushed) (fun _ => .notify id) (onward_markChanged s id)
    (fun _ _ h => h) fun _ => concur_settle hκ).whatever

/-- The check that nothing is computed is the same with both kernels. -/
theorem concur_ensureWritable : Concur law Whatever ensureWritable ensureWritable s :=
  .look fun _ => .ite (fun _ => .raise _) fun _ => .ret trivial

include hκ in
/-- Putting something else behind a node is the same with both kernels. -/
theorem concur_replaceValue {id : NodeId} {c : Cell} (h : Change s (s.setCell id c)) :
    Concur law Whatever (replaceValue κ id c) (replaceValue κ' id c) s :=
  .change (fun _ => .one h) fun _ => concur_notify hκ id

include hκ in
/-- Letting an effect wait is the same with both kernels. -/
theorem concur_scheduleEffect {id : NodeId} (h : s.kinds[id.index]? = some .effect) :
    Concur law Whatever (scheduleEffect κ id) (scheduleEffect κ' id) s :=
  (Concur.passing (Q := fun _ => State.Flushed) (f := (·.scheduled id)) (fun _ => .schedule id h)
    (onward_scheduled s id) (fun _ _ h => h) fun _ => concur_settle hκ).whatever

/-- Noting that an effect is disposed. -/
theorem leads_dispose_effect (s : State) (id : NodeId) :
    Leads s (s.modifyEffect id ({ · with disposed := true })) :=
  .one (.effect id _ fun _ => ⟨rfl, fun _ => rfl⟩)

include hκ in
/-- Ending what stood behind a node that has left the graph is the same with both kernels. -/
theorem concur_endRemoved (id : NodeId) (removed : Option Graph.Node) :
    Concur law Whatever (endRemoved κ id removed) (endRemoved κ' id removed) s := by
  refine .look fun _ => ?_
  cases removed with
  | none => exact .ret trivial
  | some n =>
    cases s.effect? id with
    | none => exact .ret trivial
    | some e => exact .change (fun _ => leads_dispose_effect s id) fun _ => concur_callDispose hκ _

include hκ in
private theorem concur_removeNode (id : NodeId) :
    Concur law Whatever (removeNode κ id) (removeNode κ' id) s :=
  (Concur.stepGet (P := Whatever) (fun _ => .one (.detach id)) fun _ => trivial).bind
    fun removed _ _ _ => concur_endRemoved hκ id removed

include hκ in
/-- Retiring a computation is the same with both kernels. -/
theorem concur_retire (id : NodeId) : Concur law Whatever (retire κ id) (retire κ' id) s :=
  concur_holding fun _ _ => concur_removeNode hκ id

include hκ in
/-- Running a cleanup is the same with both kernels. -/
theorem concur_runCleanup (c : Cleanup) :
    Concur law Whatever (runCleanup κ c) (runCleanup κ' c) s := by
  cases c with
  | program p => exact concur_perform hκ p
  | unlisten document node listener =>
    exact .step fun _ => Leads.aside (by constructor <;> rfl)

include hκ in
/-- Taking down what a scope held is the same with both kernels. -/
theorem concur_teardown (h : Scopes.Holdings Cleanup) :
    Concur law Whatever (teardown κ h) (teardown κ' h) s := by
  refine (Concur.forM fun id _ s => concur_callDispose hκ id).bind fun _ _ _ _ => ?_
  refine (Concur.forM fun c _ s => concur_runCleanup hκ c).bind fun _ _ _ _ => ?_
  exact Concur.forM fun id _ s => concur_retire hκ id

include hκ in
private theorem concur_removeScope (id : ScopeId) :
    Concur law Whatever (removeScope κ id) (removeScope κ' id) s := by
  refine (Concur.stepGet (P := Whatever) (fun _ => .one (.removeScope id)) fun _ => trivial).bind
    fun removed _ _ _ => ?_
  cases removed with
  | none => exact .ret trivial
  | some scope => exact (concur_teardown hκ scope.holdings).guarding State.leads_sweep

include hκ in
/-- Ending a scope is the same with both kernels. -/
theorem concur_disposeScope (id : ScopeId) :
    Concur law Whatever (disposeScope κ id) (disposeScope κ' id) s :=
  concur_batch hκ fun _ => concur_removeScope hκ id

include hκ in
/-- Emptying a scope is the same with both kernels. -/
theorem concur_resetScope (id : ScopeId) :
    Concur law Whatever (resetScope κ id) (resetScope κ' id) s := by
  refine (Concur.stepGet (P := Whatever) (fun _ => .one (.stripScope id)) fun _ => trivial).bind
    fun owned _ _ _ => ?_
  cases owned with
  | none => exact .ret trivial
  | some h => exact concur_teardown hκ h

include hκ in
/-- Stopping an effect is the same with both kernels. -/
theorem concur_stopEffect (id : NodeId) :
    Concur law Whatever (stopEffect κ id) (stopEffect κ' id) s := by
  refine concur_holding fun _ _ => ?_
  refine (concur_retire hκ id).bind fun _ s' _ _ => .look fun _ => ?_
  cases s'.effect? id with
  | none => exact .ret trivial
  | some e =>
    refine .ite (fun _ => .ret trivial) fun _ => ?_
    exact .change (fun _ => leads_dispose_effect s' id) fun _ => concur_callDispose hκ _

/-- Putting a task off is the same with both kernels. -/
theorem concur_defer (task : Deferred) : Concur law Whatever (defer task) (defer task) s :=
  .step fun _ => Leads.aside (by constructor <;> rfl)

private theorem concur_catchError (b : BoundaryId) (error : String) :
    Concur law Whatever (catchError b error) (catchError b error) s := by
  refine .look fun _ => ?_
  cases s.boundary? b with
  | none => exact .ret trivial
  | some boundary =>
    exact .ite (fun _ => concur_defer _) fun _ =>
      .step fun _ => Leads.aside (by constructor <;> rfl)

include hκ in
/-- Reporting an error is the same with both kernels. -/
theorem concur_reportError (scope : Option ScopeId) (error : String) :
    Concur law Whatever (reportError κ scope error) (reportError κ' scope error) s := by
  refine .look fun _ => ?_
  cases scope.bind s.scopes.findHandler with
  | none => exact concur_defer _
  | some h =>
    cases h with
    | program p => exact concur_perform hκ _
    | boundary b => exact concur_catchError b error

include hκ in
/-- Surfacing an error that nobody takes is the same with both kernels. -/
theorem concur_surfaceUncaught (error : String) :
    Concur law Whatever (surfaceUncaught κ error) (surfaceUncaught κ' error) s := by
  refine .look fun _ => ?_
  cases s.uncaught with
  | none => exact .raise _
  | some p => exact concur_perform hκ _

end

end Rivulet.Engine
