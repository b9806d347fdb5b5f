import Rivulet.Proofs.Reactive.Persistence

/-!
# Runs that come to an end

With enough depth a run ends, and all reads of computed values in it give what recursive evaluation
gives. This is said of runs behind which the state is intact and in which all names that computed
values read stand for something, and it is put together from the parts of a run.
-/

namespace Rivulet.Engine

open State

/-- The state behind a run, however it ended. -/
def finalState {α : Type} : EStateM.Result Interrupt State α → State
  | .ok _ s => s
  | .error _ s => s

/-- A run that ended with a property of its result and state, or broke down if that is
allowed. -/
inductive EndsWell {α : Type} (fails : Prop) (Q : α → State → Prop) :
    EStateM.Result Interrupt State α → Prop where
  /-- It ended with a result. -/
  | ok {a : α} {s : State} (h : Q a s) : EndsWell fails Q (.ok a s)
  /-- It broke down. -/
  | panic {message : String} {s : State} (h : fails) : EndsWell fails Q (.error (.panic message) s)

/-- The kernels under which a run is to go the same way. -/
inductive Variant (message : String) (n : Nat) : Kernel → Prop where
  /-- The usual one. -/
  | plain : Variant message n (kernel n)
  /-- The one that audits reads. -/
  | audited : Variant message n (audited n)
  /-- The one that minds names that stand for nothing. -/
  | wary : Variant message n (wary message n)

/-- The state behind a run is intact, and the run does not break down, with a message, because a
computed value reads a name that stands for nothing. -/
structure Proper {α : Type} (message : String) (n : Nat) (x : Kernel → Run α) (s : State) :
    Prop where
  /-- The state is intact. -/
  intact : (finalState (x (kernel n) s)).Intact
  /-- The names stand for something. -/
  bound : ∀ s', x (wary message n) s ≠ .error (.panic message) s'

/-- A run that ends well if it is proper, with an audit and without. -/
def Ends {α : Type} (fails : Prop) (x : Kernel → Run α) (s : State) (Q : α → State → Prop) : Prop :=
  ∃ (r : EStateM.Result Interrupt State α) (depth : Nat), ∀ message n, depth ≤ n →
    Proper message n x s → (∀ κ, Variant message n κ → x κ s = r) ∧ EndsWell fails Q r

/-- A failure is as good whatever was expected of the result. -/
theorem EndsWell.error {α β : Type} {fails : Prop} {Q : α → State → Prop} {R : β → State → Prop}
    {e : Interrupt} {s s' : State} (h : EndsWell fails Q (.error e s)) :
    EndsWell fails R (.error e s') := by
  cases h with
  | panic h => exact .panic h

/-- Behind a run that gave a result the next one goes on. -/
theorem run_bind_ok {α β : Type} {x : Run α} {y : α → Run β} {s s' : State} {a : α}
    (h : x s = .ok a s') : (x >>= y) s = y a s' := by
  show EStateM.bind x y s = _
  rw [EStateM.bind, h]

/-- Behind a run that failed nothing goes on. -/
theorem run_bind_error {α β : Type} {x : Run α} {s s' : State} {e : Interrupt}
    (h : x s = .error e s') (y : α → Run β) : (x >>= y) s = .error e s' := by
  show EStateM.bind x y s = _
  rw [EStateM.bind, h]

/-- A change of the state that gives a result. -/
theorem run_modifyGet {α : Type} (f : State → α × State) (s : State) :
    (modifyGet f : Run α) s = .ok (f s).1 (f s).2 := rfl

/-- What comes behind two runs that end the same ends the same. -/
theorem run_bind_congr {α β : Type} {x y : Run α} {s t : State} (h : x s = y t) (f : α → Run β) :
    (x >>= f) s = (y >>= f) t := by
  cases hr : y t with
  | ok a t' => rw [run_bind_ok hr, run_bind_ok (h.trans hr)]
  | error e t' => rw [run_bind_error hr, run_bind_error (h.trans hr)]

/-- Something is restored behind a run that gave a result. -/
theorem guarding_ok {α : Type} {x : Run α} {s s' : State} {a : α} (h : x s = .ok a s')
    (restore : State → State) : guarding restore x s = .ok a (restore s') := by
  rw [guarding, h]

/-- Something is restored behind a run that failed. -/
theorem guarding_error {α : Type} {x : Run α} {s s' : State} {e : Interrupt}
    (h : x s = .error e s') (restore : State → State) :
    guarding restore x s = .error e (restore s') := by
  rw [guarding, h]

/-- Nothing is restored behind a run that gave a result. -/
theorem onInterrupt_ok {α : Type} {x : Run α} {s s' : State} {a : α} (h : x s = .ok a s')
    (restore : State → State) : onInterrupt restore x s = .ok a s' := by
  rw [onInterrupt, h]

/-- Something is restored behind a run that failed. -/
theorem onInterrupt_error {α : Type} {x : Run α} {s s' : State} {e : Interrupt}
    (h : x s = .error e s') (restore : State → State) :
    onInterrupt restore x s = .error e (restore s') := by
  rw [onInterrupt, h]

private theorem auditing_ok {id : NodeId} {x : Run Outcome} {s s' : State} {v : Json}
    (h : x s = .ok (.value v) s') (hv : v = s'.evaluate id) :
    auditing id x s = .ok (.value v) s' := by
  simp only [auditing, h, hv, if_true]

/-- The state behind a run that stays tame is tame and a later one. -/
theorem StaysAt.final {α : Type} {P : α → Prop} {x : Run α} {s : State} (h : StaysAt P x s)
    (hs : s.Tame) : (finalState (x s)).Tame ∧ s.Later (finalState (x s)) := by
  have h' := h hs
  cases he : x s with
  | error e s' =>
    rw [he] at h'
    exact h'
  | ok a s' =>
    rw [he] at h'
    exact h'.2

/-- A run that stays tame, whatever kernel it is run with. -/
def Stays {α : Type} (P : α → Prop) (x : Kernel → Run α) (s : State) : Prop :=
  ∀ κ, KernelStays κ → StaysAt P (x κ) s

namespace Proper

variable {α β : Type} {message : String} {n : Nat} {s : State}

/-- The first of two runs is proper if both are, and the second one leads to a later state. -/
theorem first {x : Kernel → Run α} {y : Kernel → α → Run β}
    (h : Proper message n (fun κ => x κ >>= y κ) s)
    (hlater : ∀ a s', x (kernel n) s = .ok a s' → (finalState (y (kernel n) a s')).Intact →
      s'.Intact) : Proper message n x s where
  intact := by
    have hfinal := h.intact
    cases hxs : x (kernel n) s with
    | error e s' => rwa [run_bind_error hxs] at hfinal
    | ok a s' =>
      rw [run_bind_ok hxs] at hfinal
      exact hlater a s' hxs hfinal
  bound s' hs' := h.bound s' (run_bind_error hs' _)

/-- The second of two runs is proper if both are. -/
theorem second {x : Kernel → Run α} {y : Kernel → α → Run β} {a : α} {s' : State}
    (h : Proper message n (fun κ => x κ >>= y κ) s)
    (hx : ∀ κ, Variant message n κ → x κ s = .ok a s') : Proper message n (fun κ => y κ a) s' where
  intact := by
    have hfinal := h.intact
    rwa [run_bind_ok (hx _ .plain)] at hfinal
  bound s'' hs'' := h.bound s'' ((run_bind_ok (hx _ .wary)).trans hs'')

/-- A run behind which something is made of its result. -/
theorem of_map {x : Kernel → Run α} {f : α → β}
    (h : Proper message n (fun κ => x κ >>= fun a => pure (f a)) s) : Proper message n x s :=
  h.first fun _ _ _ hfinal => hfinal

/-- A run behind which part of the state is restored. -/
theorem of_guarding {P : α → Prop} {x : Kernel → Run α} {restore : State → State}
    (h : Proper message n (fun κ => Engine.guarding restore (x κ)) s) (hs : s.Tame)
    (hx : Stays P x s) (hrestore : ∀ s' : State, s'.Keeps (restore s')) :
    Proper message n x s where
  intact := by
    have hfinal := h.intact
    have hstays := (hx _ (kernelStays n)).final hs
    cases hxs : x (kernel n) s with
    | error e s' =>
      rw [guarding_error hxs] at hfinal
      rw [hxs] at hstays
      exact (hrestore s' hstays.1).2.intact hfinal
    | ok a s' =>
      rw [guarding_ok hxs] at hfinal
      rw [hxs] at hstays
      exact (hrestore s' hstays.1).2.intact hfinal
  bound s' hs' := h.bound (restore s') (guarding_error hs' restore)

/-- A run behind which part of the state is restored if it broke down. -/
theorem of_onInterrupt {P : α → Prop} {x : Kernel → Run α} {restore : State → State}
    (h : Proper message n (fun κ => Engine.onInterrupt restore (x κ)) s) (hs : s.Tame)
    (hx : Stays P x s) (hrestore : ∀ s' : State, s'.Keeps (restore s')) :
    Proper message n x s where
  intact := by
    have hfinal := h.intact
    have hstays := (hx _ (kernelStays n)).final hs
    cases hxs : x (kernel n) s with
    | error e s' =>
      rw [onInterrupt_error hxs] at hfinal
      rw [hxs] at hstays
      exact (hrestore s' hstays.1).2.intact hfinal
    | ok a s' => rwa [onInterrupt_ok hxs] at hfinal
  bound s' hs' := h.bound (restore s') (onInterrupt_error hs' restore)

end Proper

namespace Ends

variable {α β : Type} {fails : Prop} {s : State} {Q : α → State → Prop} {R : β → State → Prop}

/-- A run that only gives a result. -/
theorem ret {a : α} (h : Q a s) : Ends fails (fun _ => pure a) s Q :=
  ⟨.ok a s, 0, fun _ _ _ _ => ⟨fun _ _ => rfl, .ok h⟩⟩

/-- A run that panics where it may fail. -/
theorem raise {message : String} (h : fails) : Ends fails (fun _ => panicWith message) s Q :=
  ⟨.error (.panic message) s, 0, fun _ _ _ _ => ⟨fun _ _ => rfl, .panic h⟩⟩

/-- A run that does not depend on the kernel. -/
theorem of_eq {x : Kernel → Run α} {a : α} {s' : State} (hx : ∀ κ, x κ s = .ok a s')
    (h : Q a s') : Ends fails x s Q :=
  ⟨.ok a s', 0, fun _ _ _ _ => ⟨fun κ _ => hx κ, .ok h⟩⟩

/-- A breakdown that does not depend on the kernel. -/
theorem of_panic {x : Kernel → Run α} {message : String} {s' : State}
    (hx : ∀ κ, x κ s = .error (.panic message) s') (h : fails) : Ends fails x s Q :=
  ⟨.error (.panic message) s', 0, fun _ _ _ _ => ⟨fun κ _ => hx κ, .panic h⟩⟩

/-- A run that does the same as another one. -/
theorem congr {x y : Kernel → Run α} {t : State} (h : Ends fails y t Q)
    (hxy : ∀ κ, x κ s = y κ t) : Ends fails x s Q := by
  obtain ⟨r, depth, hr⟩ := h
  refine ⟨r, depth, fun message n hn hproper => ?_⟩
  obtain ⟨hruns, hend⟩ := hr message n hn
    ⟨hxy (kernel n) ▸ hproper.intact, fun s' hs' => hproper.bound s' ((hxy _).trans hs')⟩
  exact ⟨fun κ hκ => (hxy κ).trans (hruns κ hκ), hend⟩

/-- A run that is never proper. -/
theorem improper {x : Kernel → Run α} (depth : Nat)
    (h : ∀ message n, depth ≤ n → ¬ Proper message n x s) : Ends fails x s Q :=
  ⟨.error .outOfFuel s, depth, fun message n hn hproper => absurd hproper (h message n hn)⟩

/-- A look at the state. -/
theorem look {f : Kernel → State → Run β} (h : Ends fails (fun κ => f κ s) s R) :
    Ends fails (fun κ => get >>= f κ) s R := h.congr fun _ => rfl

/-- A change of the state. -/
theorem change {f : State → State} {g : Kernel → Unit → Run β}
    (h : Ends fails (fun κ => g κ ()) (f s) R) : Ends fails (fun κ => modify f >>= g κ) s R :=
  h.congr fun _ => rfl

/-- A change of the state that gives something. -/
theorem changeGet {f : State → α × State} {g : Kernel → α → Run β}
    (h : Ends fails (fun κ => g κ (f s).1) (f s).2 R) :
    Ends fails (fun κ => modifyGet f >>= g κ) s R := h.congr fun _ => rfl

/-- A change of the state. -/
theorem step {f : State → State} {Q : Unit → State → Prop} (h : Q () (f s)) :
    Ends fails (fun _ => (modify f : Run Unit)) s Q := .of_eq (fun _ => rfl) h

/-- A run may be taken to start in an intact state. -/
theorem intact {P : α → Prop} {x : Kernel → Run α} (hs : s.Tame) (hx : Stays P x s)
    (h : s.Intact → Ends fails x s Q) : Ends fails x s Q := by
  by_cases hi : s.Intact
  · exact h hi
  · refine .improper 0 fun message n _ hproper => hi ?_
    exact ((hx _ (kernelStays n)).final hs).2.intact hproper.intact

/-- Less may be said of the end of a run. -/
theorem imp {x : Kernel → Run α} {Q' : α → State → Prop} (h : Ends fails x s Q)
    (hQ : ∀ a s', Q a s' → Q' a s') : Ends fails x s Q' := by
  obtain ⟨r, depth, hr⟩ := h
  refine ⟨r, depth, fun message n hn hproper => ?_⟩
  obtain ⟨hruns, hend⟩ := hr message n hn hproper
  refine ⟨hruns, ?_⟩
  cases hend with
  | ok hq => exact .ok (hQ _ _ hq)
  | panic h => exact .panic h

/-- What is known of the state behind a run may be used for its property. -/
theorem mono {P : α → Prop} {x : Kernel → Run α} {Q' : α → State → Prop} (hs : s.Tame)
    (hx : Stays P x s) (h : Ends fails x s Q)
    (hQ : ∀ a s', P a → s'.Tame → s.Later s' → s'.Intact → Q a s' → Q' a s') :
    Ends fails x s Q' := by
  obtain ⟨r, depth, hr⟩ := h
  refine ⟨r, depth, fun message n hn hproper => ?_⟩
  obtain ⟨hruns, hend⟩ := hr message n hn hproper
  refine ⟨hruns, ?_⟩
  have hstays := hx _ (kernelStays n) hs
  have hfinal := hproper.intact
  rw [hruns _ .plain] at hstays hfinal
  cases hend with
  | ok h => exact .ok (hQ _ _ hstays.1 hstays.2.1 hstays.2.2 hfinal h)
  | panic h => exact .panic h

/-- The result of a run is put to use without a change of the state. -/
theorem map {x : Kernel → Run α} {f : α → β} (h : Ends fails x s Q)
    (hR : ∀ a s', Q a s' → R (f a) s') :
    Ends fails (fun κ => x κ >>= fun a => pure (f a)) s R := by
  obtain ⟨r, depth, hr⟩ := h
  cases r with
  | error e s' =>
    refine ⟨.error e s', depth, fun message n hn hproper => ?_⟩
    obtain ⟨hruns, hend⟩ := hr message n hn hproper.of_map
    exact ⟨fun κ hκ => run_bind_error (hruns κ hκ) _, hend.error⟩
  | ok a s' =>
    refine ⟨.ok (f a) s', depth, fun message n hn hproper => ?_⟩
    obtain ⟨hruns, hend⟩ := hr message n hn hproper.of_map
    cases hend with
    | ok hq => exact ⟨fun κ hκ => run_bind_ok (hruns κ hκ), .ok (hR a s' hq)⟩

/-- A run that does not break down may be one that is allowed to. -/
theorem weaken {x : Kernel → Run α} (h : Ends False x s Q) : Ends fails x s Q := by
  obtain ⟨r, depth, hr⟩ := h
  refine ⟨r, depth, fun message n hn hproper => ?_⟩
  obtain ⟨hruns, hend⟩ := hr message n hn hproper
  refine ⟨hruns, ?_⟩
  cases hend with
  | ok hq => exact .ok hq
  | panic h => exact h.elim

/-- One run behind another one. -/
theorem bind {P : α → Prop} {P' : β → Prop} {x : Kernel → Run α} {y : Kernel → α → Run β}
    (hs : s.Tame) (hx : Stays P x s) (h : Ends fails x s Q)
    (hy : ∀ a s', P a → s'.Tame → Stays P' (fun κ => y κ a) s')
    (h' : ∀ a s', P a → s'.Tame → s.Later s' → s'.Intact → Q a s' →
      Ends fails (fun κ => y κ a) s' R) :
    Ends fails (fun κ => x κ >>= y κ) s R := by
  obtain ⟨r, depth, hr⟩ := h
  -- The state between the runs is intact when the one behind both of them is.
  have hfirst (message : String) (n : Nat)
      (hproper : Proper message n (fun κ => x κ >>= y κ) s) : Proper message n x s := by
    refine hproper.first fun a s' hxs hfinal => ?_
    have hstays := hx _ (kernelStays n) hs
    rw [hxs] at hstays
    exact ((hy a s' hstays.1 hstays.2.1 _ (kernelStays n)).final hstays.2.1).2.intact hfinal
  cases r with
  | error e s' =>
    refine ⟨.error e s', depth, fun message n hn hproper => ?_⟩
    obtain ⟨hruns, hend⟩ := hr message n hn (hfirst message n hproper)
    exact ⟨fun κ hκ => run_bind_error (hruns κ hκ) _, hend.error⟩
  | ok a s' =>
    by_cases hgood : P a ∧ s'.Tame ∧ s.Later s' ∧ s'.Intact ∧ Q a s'
    · obtain ⟨ha, hs', hlater, hi, hq⟩ := hgood
      obtain ⟨r', depth', hr'⟩ := h' a s' ha hs' hlater hi hq
      refine ⟨r', max depth depth', fun message n hn hproper => ?_⟩
      have hn1 : depth ≤ n := Nat.le_trans (Nat.le_max_left _ _) hn
      have hn2 : depth' ≤ n := Nat.le_trans (Nat.le_max_right _ _) hn
      obtain ⟨hruns, -⟩ := hr message n hn1 (hfirst message n hproper)
      obtain ⟨hruns', hend⟩ := hr' message n hn2 (hproper.second hruns)
      exact ⟨fun κ hκ => (run_bind_ok (hruns κ hκ)).trans (hruns' κ hκ), hend⟩
    · refine .improper depth fun message n hn hproper => hgood ?_
      have hfinal := (hfirst message n hproper).intact
      obtain ⟨hruns, hend⟩ := hr message n hn (hfirst message n hproper)
      have hstays := hx _ (kernelStays n) hs
      rw [hruns _ .plain] at hstays hfinal
      cases hend with
      | ok hq => exact ⟨hstays.1, hstays.2.1, hstays.2.2, hfinal, hq⟩

/-- A run behind which part of the state is restored. -/
theorem guarding {P : α → Prop} {x : Kernel → Run α} {restore : State → State}
    {Q' : α → State → Prop} (hs : s.Tame) (hx : Stays P x s)
    (hrestore : ∀ s' : State, s'.Keeps (restore s')) (h : Ends fails x s Q)
    (hQ : ∀ a s', P a → s'.Tame → s.Later s' → s'.Intact → Q a s' → (restore s').Intact →
      Q' a (restore s')) :
    Ends fails (fun κ => Engine.guarding restore (x κ)) s Q' := by
  obtain ⟨r, depth, hr⟩ := h
  cases r with
  | error e s' =>
    refine ⟨.error e (restore s'), depth, fun message n hn hproper => ?_⟩
    obtain ⟨hruns, hend⟩ := hr message n hn (hproper.of_guarding hs hx hrestore)
    exact ⟨fun κ hκ => guarding_error (hruns κ hκ) restore, hend.error⟩
  | ok a s' =>
    refine ⟨.ok a (restore s'), depth, fun message n hn hproper => ?_⟩
    have hinner := hproper.of_guarding hs hx hrestore
    obtain ⟨hruns, hend⟩ := hr message n hn hinner
    have hi := hinner.intact
    have hfinal := hproper.intact
    have hstays := hx _ (kernelStays n) hs
    rw [guarding_ok (hruns _ .plain)] at hfinal
    rw [hruns _ .plain] at hstays hi
    refine ⟨fun κ hκ => guarding_ok (hruns κ hκ) restore, ?_⟩
    cases hend with
    | ok hq => exact .ok (hQ a s' hstays.1 hstays.2.1 hstays.2.2 hi hq hfinal)

/-- A run behind which part of the state is restored if it broke down. -/
theorem onInterrupt {P : α → Prop} {x : Kernel → Run α} {restore : State → State} (hs : s.Tame)
    (hx : Stays P x s) (hrestore : ∀ s' : State, s'.Keeps (restore s')) (h : Ends fails x s Q) :
    Ends fails (fun κ => Engine.onInterrupt restore (x κ)) s Q := by
  obtain ⟨r, depth, hr⟩ := h
  cases r with
  | error e s' =>
    refine ⟨.error e (restore s'), depth, fun message n hn hproper => ?_⟩
    obtain ⟨hruns, hend⟩ := hr message n hn (hproper.of_onInterrupt hs hx hrestore)
    exact ⟨fun κ hκ => onInterrupt_error (hruns κ hκ) restore, hend.error⟩
  | ok a s' =>
    refine ⟨.ok a s', depth, fun message n hn hproper => ?_⟩
    obtain ⟨hruns, hend⟩ := hr message n hn (hproper.of_onInterrupt hs hx hrestore)
    exact ⟨fun κ hκ => onInterrupt_ok (hruns κ hκ) restore, hend⟩

/-- A run with a node in use. -/
theorem holding {P : α → Prop} {x : Kernel → Run α} {id : NodeId} {Q' : α → State → Prop}
    (hs : s.Tame) (hx : ∀ s, Stays P x s)
    (h : Ends fails x (s.hold (.node id)) Q)
    (hQ : ∀ a s', P a → s'.Tame → s.Later s' → s'.Intact → Q a s' →
      (s'.unhold (.node id)).Intact → Q' a (s'.unhold (.node id))) :
    Ends fails (fun κ => Engine.holding id (x κ)) s Q' := by
  obtain ⟨hs', hlater⟩ := keeps_hold s (.node id) hs
  refine .change (.guarding hs' (hx _) (fun s' => keeps_unhold s' _) h ?_)
  intro a s' ha ht hl hi hq
  exact hQ a s' ha ht (hlater.trans hl) hi hq

/-- A run with a value in use, which keeps its name. -/
theorem holdingValue {P : α → Prop} {x : Kernel → Run α} {id : NodeId} {Q' : α → State → Prop}
    (hs : s.Tame) (hid : s.IsValue id) (hx : ∀ s, Stays P x s)
    (h : Ends fails x (s.hold (.node id)) Q)
    (hQ : ∀ a s', P a → s'.Tame → s.Later s' → s'.Intact → Q a s' →
      Q' a { s' with held := s'.held.erase (.node id) }) :
    Ends fails (fun κ => Engine.holding id (x κ)) s Q' := by
  refine .holding hs hx h ?_
  intro a s' ha ht hl hi hq _
  obtain ⟨y, hy⟩ := hi.named id (hl.isValue hid)
  rw [unhold_of_named ht hy]
  exact hQ a s' ha ht hl hi hq

/-- A run with a scope current. -/
theorem withScope {P : α → Prop} {x : Kernel → Run α} {id : ScopeId} {Q' : α → State → Prop}
    (hs : s.Tame) (hx : ∀ s, Stays P x s) (h : Ends fails x (s.modifyScopes (·.enter id)) Q)
    (hQ : ∀ a s', P a → s'.Tame → s.Later s' → s'.Intact → Q a s' →
      Q' a (s'.modifyScopes (·.leave id))) :
    Ends fails (fun κ => Engine.withScope id (x κ)) s Q' := by
  obtain ⟨hs', hlater⟩ := keeps_enter s id hs
  refine .change (.guarding hs' (hx _) (fun s' => keeps_leave s' id) h ?_)
  intro a s' ha ht hl hi hq _
  exact hQ a s' ha ht (hlater.trans hl) hi hq

/-- A run with reads going unrecorded. -/
theorem untracked {P : α → Prop} {x : Kernel → Run α} {Q' : α → State → Prop}
    (hs : s.Tame) (hx : ∀ s, Stays P x s)
    (h : Ends fails x (s.modifyTracking (·.enter .untracked)) Q)
    (hQ : ∀ a s', P a → s'.Tame → s.Later s' → s'.Intact → Q a s' →
      Q' a (s'.modifyTracking (·.leave.2))) :
    Ends fails (fun κ => Engine.untracked (x κ)) s Q' := by
  obtain ⟨hs', hlater⟩ := keeps_tracking s (·.enter .untracked) hs
  refine .change (.guarding hs' (hx _) (fun s' => keeps_tracking s' _) h ?_)
  intro a s' ha ht hl hi hq _
  exact hQ a s' ha ht (hlater.trans hl) hi hq

/-- A run of a computation. -/
theorem tracked {P : α → Prop} {x : Kernel → Run α} {id : NodeId} {o : Tracking.Observer}
    {Q' : α → State → Prop} (hs : s.Tame) (hx : ∀ s, Stays P x s)
    (h : Ends fails x (s.modifyTracking (·.enter o)) Q)
    (hQ : ∀ a s', P a → s'.Tame → s.Later s' → s'.Intact → Q a s' → Q' a (s'.endRun id)) :
    Ends fails (fun κ => Engine.tracked id o (x κ)) s Q' := by
  obtain ⟨hs', hlater⟩ := keeps_tracking s (·.enter o) hs
  have hrun : Stays P (fun κ => Engine.onInterrupt (·.modifyTracking (·.leave.2)) (x κ))
      (s.modifyTracking (·.enter o)) :=
    fun κ hκ => (hx _ κ hκ).onInterrupt fun _ => keeps_tracking _ _
  have hrest (a : α) (s' : State) (ha : P a) (_ : s'.Tame) :
      Stays P (fun _ => (do modify (·.endRun id); return a : Run α)) s' :=
    fun κ _ => .change (keeps_endRun s' id) (.ret ha)
  refine .change (.bind hs' hrun (.onInterrupt hs' (hx _) (fun _ => keeps_tracking _ _) h) hrest ?_)
  · intro a s' ha ht hl hi hq
    exact .change (.ret (hQ a s' ha ht (hlater.trans hl) hi hq))

/-- A run inside a batch, behind which what waits is settled. -/
theorem batch {P : α → Prop} {x : Kernel → Run α} {Q' : α → State → Prop} (hs : s.Tame)
    (hx : ∀ s, Stays P x s) (h : Ends fails x (s.modifyQueue Queue.enterBatch) Q)
    (hsettle : ∀ a s', P a → s'.Tame → s.Later s' → s'.Intact → Q a s' →
      Ends fails settle (s'.modifyQueue Queue.exitBatch) fun _ s'' => Q' a s'') :
    Ends fails (fun κ => Engine.batch κ (x κ)) s Q' := by
  obtain ⟨hs', hlater⟩ := keeps_queue s Queue.enterBatch hs
  have hrun : Stays P (fun κ => Engine.onInterrupt (·.modifyQueue Queue.exitBatch) (x κ))
      (s.modifyQueue Queue.enterBatch) :=
    fun κ hκ => (hx _ κ hκ).onInterrupt fun _ => keeps_queue _ _
  have hrest (a : α) (s' : State) (ha : P a) (_ : s'.Tame) : Stays P (fun κ => do
      modify (·.modifyQueue Queue.exitBatch)
      settle κ
      return a) s' :=
    fun κ hκ => .change (keeps_queue s' _) ((staysAt_settle hκ).bind fun _ _ _ _ => .ret ha)
  refine .change (.bind hs' hrun (.onInterrupt hs' (hx _) (fun _ => keeps_queue _ _) h) hrest ?_)
  intro a s' ha ht hl hi hq
  exact .change (.map (hsettle a s' ha ht (hlater.trans hl) hi hq) fun _ _ hq' => hq')

/-- Runs for the items of a list, one after the other. -/
theorem forM {β : Type} {I : State → Prop} {f : Kernel → β → Run Unit} {l : List β} (hs : s.Tame)
    (hf : ∀ b ∈ l, ∀ s, Stays Anything (fun κ => f κ b) s)
    (hstep : ∀ b ∈ l, ∀ s : State, s.Tame → I s → Ends fails (fun κ => f κ b) s fun _ s' => I s')
    (h : I s) : Ends fails (fun κ => l.forM (f κ)) s fun _ s' => I s' := by
  induction l generalizing s with
  | nil => exact .ret h
  | cons b l ih =>
    have hf' : ∀ c ∈ l, ∀ s, Stays Anything (fun κ => f κ c) s :=
      fun c hc => hf c (List.mem_cons_of_mem b hc)
    refine .bind hs (hf b List.mem_cons_self s) (hstep b List.mem_cons_self s hs h)
      (fun _ s' _ _ κ hκ => staysAt_forM fun c hc s => hf' c hc s κ hκ) ?_
    intro _ s' _ hs' _ _ h'
    exact ih hs' hf' (fun c hc => hstep c (List.mem_cons_of_mem b hc)) h'

/-- A call that runs no program and reads no computed value. -/
theorem call {c : Call} {Q : Outcome → State → Prop} (hread : ∀ id, c ≠ .read id)
    (hexec : ∀ p, c ≠ .exec p) (h : Ends fails (fun κ => answer κ c) s Q) :
    Ends fails (fun κ => κ c) s Q := by
  obtain ⟨r, depth, hr⟩ := h
  refine ⟨r, depth + 1, fun message n hn hproper => ?_⟩
  obtain ⟨m, rfl⟩ : ∃ m, n = m + 1 := ⟨n - 1, by omega⟩
  have haudited : audited (m + 1) c = answer (audited m) c := by
    cases c with
    | read id => exact absurd rfl (hread id)
    | _ => rfl
  have hwary : wary message (m + 1) c = answer (wary message m) c := by
    cases c with
    | exec p => exact absurd rfl (hexec p)
    | _ => rfl
  obtain ⟨hruns, hend⟩ := hr message m (by omega) ⟨hproper.intact, fun s' hs' =>
    hproper.bound s' ((congrFun hwary s).trans hs')⟩
  refine ⟨fun κ hκ => ?_, hend⟩
  cases hκ with
  | plain => exact hruns _ .plain
  | audited => exact (congrFun haudited s).trans (hruns _ .audited)
  | wary => exact (congrFun hwary s).trans (hruns _ .wary)

/-- The run of a program. If a computed value runs it, the names that it reads may be taken to stand
for something. -/
theorem callExec {p : Program} {Q : Outcome → State → Prop}
    (h : s.Bound p → Ends fails (fun κ => exec κ p) s Q) :
    Ends fails (fun κ => κ.exec p) s Q := by
  by_cases hbound : s.Bound p
  · obtain ⟨r, depth, hr⟩ := h hbound
    refine ⟨r, depth + 1, fun message n hn hproper => ?_⟩
    obtain ⟨m, rfl⟩ : ∃ m, n = m + 1 := ⟨n - 1, by omega⟩
    have hwary : wary message (m + 1) (.exec p) s = exec (wary message m) p s := if_pos hbound
    obtain ⟨hruns, hend⟩ := hr message m (by omega) ⟨hproper.intact, fun s' hs' =>
      hproper.bound s' (hwary.trans hs')⟩
    refine ⟨fun κ hκ => ?_, hend⟩
    cases hκ with
    | plain => exact hruns _ .plain
    | audited => exact hruns _ .audited
    | wary => exact hwary.trans (hruns _ .wary)
  · refine .improper 1 fun message n hn hproper => ?_
    obtain ⟨m, rfl⟩ : ∃ m, n = m + 1 := ⟨n - 1, by omega⟩
    have hwary : wary message (m + 1) (.exec p) s = panicWith message s := if_neg hbound
    exact hproper.bound s hwary

/-- A read of a computed value that gives what recursive evaluation gives. -/
theorem read {id : NodeId} {Q : Outcome → State → Prop}
    (h : Ends False (fun κ => readComputed κ id) s fun v s' => Q (.value v) s')
    (hQ : ∀ v s', Q (.value v) s' → v = s'.evaluate id) :
    Ends fails (fun κ => κ (.read id)) s Q := by
  obtain ⟨r, depth, hr⟩ := h
  have hinner (message : String) (m : Nat) (hproper : Proper message (m + 1)
    (fun κ => κ (.read id)) s) :
      Proper message m (fun κ => readComputed κ id) s :=
    Proper.of_map (f := Outcome.value) ⟨hproper.intact, hproper.bound⟩
  cases r with
  | error e s' =>
    refine .improper (depth + 1) fun message n hn hproper => ?_
    obtain ⟨m, rfl⟩ : ∃ m, n = m + 1 := ⟨n - 1, by omega⟩
    obtain ⟨-, hend⟩ := hr message m (by omega) (hinner message m hproper)
    cases hend with
    | panic h => exact h
  | ok v s' =>
    refine ⟨.ok (.value v) s', depth + 1, fun message n hn hproper => ?_⟩
    obtain ⟨m, rfl⟩ : ∃ m, n = m + 1 := ⟨n - 1, by omega⟩
    obtain ⟨hruns, hend⟩ := hr message m (by omega) (hinner message m hproper)
    cases hend with
    | ok hq =>
      refine ⟨fun κ hκ => ?_, .ok hq⟩
      cases hκ with
      | plain => exact run_bind_ok (hruns _ .plain)
      | audited =>
        have hanswer : answer (Engine.audited m) (.read id) s = .ok (.value v) s' :=
          run_bind_ok (hruns _ .audited)
        exact auditing_ok hanswer (hQ v s' hq)
      | wary => exact run_bind_ok (hruns _ .wary)

/-- The call that runs a program, at all depths from some on. -/
theorem callEval {p : Program} {Q : Outcome → State → Prop}
    (h : s.Bound p → Ends fails (fun κ => exec κ p) s Q) :
    Ends fails (fun κ => κ.eval p) s fun v s' => ∃ o, v = o.get ∧ Q o s' :=
  (callExec h).map fun o _ hq => ⟨o, rfl, hq⟩

/-- The call that brings a node up to date, at all depths from some on. -/
theorem callRefresh {id : NodeId} {Q : Unit → State → Prop}
    (h : Ends fails (fun κ => refresh κ id) s Q) : Ends fails (fun κ => κ.refresh id) s Q := by
  have hanswer : Ends fails (fun κ => answer κ (.refresh id)) s fun _ s' => Q () s' :=
    h.map fun _ _ hq => hq
  exact (call (c := .refresh id) (by simp) (by simp) hanswer).map fun _ _ hq => hq

/-- The call that ends a scope, at all depths from some on. -/
theorem callDispose {id : ScopeId} {Q : Unit → State → Prop}
    (h : Ends fails (fun κ => disposeScope κ id) s Q) : Ends fails (fun κ => κ.dispose id) s Q := by
  have hanswer : Ends fails (fun κ => answer κ (.dispose id)) s fun _ s' => Q () s' :=
    h.map fun _ _ hq => hq
  exact (call (c := .dispose id) (by simp) (by simp) hanswer).map fun _ _ hq => hq

/-- The call that does what was put off, at all depths from some on. -/
theorem callDrain {Q : Unit → State → Prop} (h : Ends fails drain s Q) :
    Ends fails (fun κ => κ.drain) s Q := by
  have hanswer : Ends fails (fun κ => answer κ .drain) s fun _ s' => Q () s' :=
    h.map fun _ _ hq => hq
  exact (call (c := .drain) (by simp) (by simp) hanswer).map fun _ _ hq => hq

/-- The call that reports an error, at all depths from some on. -/
theorem callReport {scope : Option ScopeId} {error : String} {Q : Unit → State → Prop}
    (h : Ends fails (fun κ => reportError κ scope error) s Q) :
    Ends fails (fun κ => κ.report scope error) s Q := by
  have hanswer : Ends fails (fun κ => answer κ (.report scope error)) s fun _ s' => Q () s' :=
    h.map fun _ _ hq => hq
  exact (call (c := .report scope error) (by simp) (by simp) hanswer).map fun _ _ hq => hq

/-- The call that reads a computed value, at all depths from some on. -/
theorem callRead {id : NodeId} {Q : Json → State → Prop}
    (h : Ends False (fun κ => readComputed κ id) s Q) (hQ : ∀ v s', Q v s' → v = s'.evaluate id) :
    Ends fails (fun κ => κ.read id) s Q :=
  (read (Q := fun o => Q o.get) h hQ).map fun _ _ hq => hq

end Ends

end Rivulet.Engine
