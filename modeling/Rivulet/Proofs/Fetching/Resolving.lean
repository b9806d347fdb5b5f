import Rivulet.Proofs.Fetching.Handing

/-!
# How fetches are resolved

All fetches that wait are taken away at once and run at the same time, and when the last of them has
ended their results are handed out: for one key after the other in the order in which they were
first asked for, to one query after the other in the order in which they asked. Then the effects
run. What they or the handlers of errors ask for waits for the next time.
-/

namespace Rivulet.Engine

variable {client : Ward} {s t : State} {payload : Query.Payload} {κ : Kernel} {id : ClientId}
  {l : List PendingFetch}

/-- A fetch that comes to an end, and not by breaking down. -/
def PendingFetch.Ends (p : PendingFetch) : Prop :=
  ∃ result, p.fetch.result? = some result ∧ ∀ message, result ≠ .panic message

/-- Who waits for some fetches. -/
def consumersOf (l : List PendingFetch) : List Consumer := l.flatMap (·.consumers)

/-- How long the longest of them takes. -/
def longest (l : List PendingFetch) : Nat :=
  (l.map (·.fetch)).foldl (fun longest f => max longest f.plan.sleep) 0

/-- All of them are waited for, unless one breaks down or never ends. -/
def awaitAll (l : List PendingFetch) : Run Unit :=
  (firstBreakdown? (l.map (·.fetch))).elim
    (if (l.map (·.fetch)).any (·.result?.isNone) then throw .outOfFuel else advance (longest l))
    fun b => do advance b.sleep; panicWith b.message

/-- Those who wait are given up. -/
def State.giveUp (s : State) (l : List Consumer) : State :=
  l.foldl (fun s c => s.unhold (.node c.node)) s

/-- What is done with fetches that have been taken away. -/
def runFetches (κ : Kernel) (l : List PendingFetch) : Run Nat := do
  onInterrupt (·.giveUp (consumersOf l)) (awaitAll l)
  batch κ (applyAll κ (resultsOf l))
  return l.length

/-- The state in which nothing is put off. -/
def State.cleared (s : State) (id : ClientId) : State :=
  s.modifyClient id ({ · with pending := [] })

/-- The state in which fetches have been taken away. Those who wait are in use until they are
served. -/
def State.taken (s : State) (id : ClientId) : State :=
  { s.cleared id with
    held := (consumersOf (s.fetches id)).map (.node ·.node) ++ .client id :: s.held }

/-- The state in which the results are handed out. -/
def State.fetched (s : State) (id : ClientId) : State :=
  ((s.taken id).advanceTo (s.clock + longest (s.fetches id)) false).modifyQueue Queue.enterBatch

private theorem resolvePending_none (h : s.fetches id = []) :
    resolvePending κ id s = .ok 0 ((s.hold (.client id)).unhold (.client id)) := by
  change guarding _ _ (s.hold (.client id)) = _
  refine guarding_ok ?_ _
  rw [run_get, show (((s.hold (.client id)).clients[id]?).map (·.pending)).getD [] = [] from h]
  rfl

theorem resolvePending_some (h : s.fetches id ≠ []) : resolvePending κ id s =
    guarding (·.unhold (.client id)) (runFetches κ (s.fetches id)) (s.taken id) := by
  have hsome : (s.fetches id).isEmpty = false := by simpa using h
  change guarding _ _ (s.hold (.client id)) = _
  rw [guarding, guarding, run_get,
    show (((s.hold (.client id)).clients[id]?).map (·.pending)).getD [] = s.fetches id from rfl]
  simp only [hsome, Bool.false_eq_true, if_false]
  rw [runFetches, awaitAll]
  cases firstBreakdown? ((s.fetches id).map (·.fetch)) with
  | some b => rfl
  | none =>
    simp only [List.length_map]
    cases ((s.fetches id).map (·.fetch)).any (·.result?.isNone) <;> rfl

/-- The first of some breakdowns is one. -/
theorem no_breakdown {fetches : List Query.Fetch} (h : firstBreakdown? fetches = none) :
    fetches.filterMap breakdown? = [] := by
  rw [firstBreakdown?] at h
  cases hall : fetches.filterMap breakdown? with
  | nil => rfl
  | cons b bs =>
    rw [hall, List.foldl_cons] at h
    refine absurd h (List.foldlRecOn (motive := (· ≠ none)) bs _ (Option.some_ne_none b)
      fun first hfirst b' _ => ?_)
    cases first with
    | none => exact absurd rfl hfirst
    | some a =>
      simp only
      split <;> simp

/-- All fetches end. -/
theorem awaitAll_ends (h : ∀ p ∈ l, p.Ends) :
    awaitAll l s = .ok () (s.advanceTo (s.clock + longest l) false) := by
  have hbreak : firstBreakdown? (l.map (·.fetch)) = none := by
    have hnone : (l.map (·.fetch)).filterMap breakdown? = [] := by
      refine List.filterMap_eq_nil_iff.2 fun f hf => ?_
      obtain ⟨p, hp, rfl⟩ := List.mem_map.1 hf
      obtain ⟨result, hresult, hpanic⟩ := h p hp
      rw [breakdown?]
      cases hending : p.fetch.plan.ending with
      | panic message =>
        rw [Query.Fetch.result?, hending] at hresult
        exact absurd (Option.some.inj hresult).symm (hpanic message)
      | _ => rfl
    rw [firstBreakdown?, hnone]
    rfl
  have hstuck : (l.map (·.fetch)).any (·.result?.isNone) = false := by
    rw [List.any_eq_false]
    intro f hf
    obtain ⟨p, hp, rfl⟩ := List.mem_map.1 hf
    obtain ⟨result, hresult, -⟩ := h p hp
    simp [hresult]
  rw [awaitAll, hbreak, Option.elim_none, hstuck]
  rfl

/-- If a fetch breaks down or never ends, nothing is handed out. -/
theorem awaitAll_error (h : ¬ ∀ p ∈ l, p.Ends) : ∃ e t, awaitAll l s = .error e t := by
  rw [awaitAll]
  cases hbreak : firstBreakdown? (l.map (·.fetch)) with
  | some b => exact ⟨_, _, rfl⟩
  | none =>
    have hstuck : (l.map (·.fetch)).any (·.result?.isNone) = true := by
      by_contra hno
      rw [Bool.not_eq_true, List.any_eq_false] at hno
      refine h fun p hp => ?_
      have hfetch : p.fetch ∈ l.map (·.fetch) := List.mem_map_of_mem hp
      obtain ⟨result, hresult⟩ := Option.ne_none_iff_exists'.1 (by simpa using hno _ hfetch)
      refine ⟨result, hresult, ?_⟩
      rintro message rfl
      have hno' := List.filterMap_eq_nil_iff.1 (no_breakdown hbreak) _ hfetch
      rw [breakdown?] at hno'
      rw [Query.Fetch.result?] at hresult
      cases hending : p.fetch.plan.ending with
      | panic message => simp [hending] at hno'
      | value =>
        simp only [hending] at hresult
        cases hcheck : p.fetch.shape.check p.fetch.value <;> simp [hcheck] at hresult
      | _ => simp [hending] at hresult
    rw [Option.elim_none, hstuck]
    exact ⟨_, _, rfl⟩

private theorem State.minding_advanceTo {old : NodeId → Prop} (s : State) (moment : Nat)
    (through : Bool) :
    s.Minding old client (s.advanceTo moment through) := by
  have harrive (s : State) (l : Late) : s.Minding old client (s.arrive l) :=
    State.Aside.minding rfl
  exact (State.Minding.foldl harrive _ s).trans (State.Aside.minding rfl)

private theorem mindful_awaitAll {old : NodeId → Prop} : Mindful old client (awaitAll l) s := by
  have hadvance (ms : Nat) : Mindful old client (advance ms) s :=
    .step (State.minding_advanceTo s _ _)
  rw [awaitAll]
  cases firstBreakdown? (l.map (·.fetch)) with
  | some b => exact (hadvance b.sleep).bind fun _ _ _ => .raise _
  | none => exact .ite (fun _ => .raise _) fun _ => hadvance _

private theorem concur_awaitAll {law : Law} : Concur law Whatever (awaitAll l) (awaitAll l) s := by
  rw [awaitAll]
  cases firstBreakdown? (l.map (·.fetch)) with
  | some b => exact (concur_wait _ _).bind fun _ _ _ _ => .raise _
  | none => exact .ite (fun _ => .raise _) fun _ => concur_wait _ _

theorem waiting_eq (c : Client) : c.waiting = (consumersOf c.pending).map (·.node) := by
  rw [Client.waiting, consumersOf, List.map_flatMap]

/-- Everyone who waits for fetches that end gets a result, first come first served. -/
theorem map_resultsOf (h : ∀ p ∈ l, p.Ends) : (resultsOf l).map (·.2) = consumersOf l := by
  rw [resultsOf, consumersOf, List.map_flatMap]
  refine List.flatMap_congr fun p hp => ?_
  obtain ⟨result, hresult, -⟩ := h p hp
  simp only [hresult, List.map_map]
  exact List.map_id _

private theorem resultsOf_ends (h : ∀ p ∈ l, p.Ends) :
    ∀ r ∈ resultsOf l, ∀ message, r.1 ≠ .panic message := by
  intro r hr
  obtain ⟨p, hp, hmem⟩ := List.mem_flatMap.1 hr
  obtain ⟨result, hresult, hpanic⟩ := h p hp
  simp only [hresult, List.mem_map] at hmem
  obtain ⟨c, -, rfl⟩ := hmem
  exact hpanic

theorem State.Hosts.cleared (hs : s.Hosts client payload) :
    (s.cleared client.id).Hosts client payload ∧ (s.cleared client.id).fetches client.id = [] := by
  obtain ⟨c, hc, -, -, hpayload, -, -⟩ := hs.data
  have hclient : (s.cleared client.id).clients[client.id]? = some { c with pending := [] } := by
    rw [State.cleared, modifyClient, Std.HashMap.getElem?_modify_self, hc, Option.map_some]
  have hpath : Path s (s.cleared client.id) :=
    Leads.path (leads_modifyClient fun _ _ _ hn => by simp [Client.waiting] at hn)
  refine ⟨⟨⟨typing.path hs.carries.typed hpath, hs.carries.signals, hs.carries.apart,
    hs.carries.held, hs.carries.known, { c with pending := [] }, hclient, .empty _,
    by simp [Client.waiting]⟩, hs.unlocked, hs.writable, fun d hd => ?_⟩, fetches_of hclient⟩
  obtain rfl := Option.some.inj (hclient.symm.trans hd)
  exact hpayload

/-- Those whose fetches have been taken away wait for their results, and nobody else. -/
theorem State.Hosts.taken (hs : s.Hosts client payload) :
    (s.taken client.id).Handing client payload s.kinds.size s.queue.batches
      (consumersOf (s.fetches client.id)) := by
  obtain ⟨c, -, hfetches, -, -, -, hloading⟩ := hs.data
  obtain ⟨hcleared, hnone⟩ := hs.cleared
  have hpath : Path (s.cleared client.id) (s.taken client.id) :=
    Leads.path (Leads.aside (by constructor <;> rfl))
  have hcarries : (s.taken client.id).Carries client :=
    ⟨typing.path hcleared.carries.typed hpath, hcleared.carries.signals, hcleared.carries.apart,
      List.mem_append_right _ List.mem_cons_self, hcleared.carries.known, hcleared.carries.data⟩
  have hwaits (x : Consumer) (hx : x ∈ consumersOf (s.fetches client.id)) :
      s.cells[x.node]? = some (.query none) := by
    refine hloading x.node ?_
    rw [waiting_eq, ← hfetches]
    exact List.mem_map_of_mem hx
  refine ⟨⟨hcarries, hcleared.unlocked, hcleared.writable, hcleared.payload⟩, rfl, hwaits,
    fun x hx => ?_, fun n hn => ?_, Nat.le_refl _⟩
  · exact (Array.getElem?_eq_some_iff.1 (hs.carries.typed.cells _ _ (hwaits x hx))).1
  · have hnobody : (s.taken client.id).waiters client.id = [] := by
      rw [waiters, show (s.taken client.id).fetches client.id = [] from hnone, List.flatMap_nil]
    exact absurd (hnobody ▸ hn) List.not_mem_nil

/-! ## Handing the results out -/

private theorem batch_ok {α : Type} {x : Run α} {a : α}
    (h : x (s.modifyQueue Queue.enterBatch) = .ok a t) :
    batch κ x s = (do settle κ; return a) (t.modifyQueue Queue.exitBatch) :=
  run_bind_ok (onInterrupt_ok h _)

private theorem batch_error {α : Type} {x : Run α} {e : Interrupt}
    (h : x (s.modifyQueue Queue.enterBatch) = .error e t) :
    batch κ x s = .error e (t.modifyQueue Queue.exitBatch) :=
  run_bind_error (onInterrupt_error h _) _

/-- In the end the data is not in use for the call any more. -/
theorem State.Handing.finish {first n : Nat} {rest : List Consumer}
    (h : t.Handing client payload first n rest) (hheld : t.held = .client client.id :: s.held)
    (hs : .client client.id ∈ s.held) (hrest : ∀ c ∈ rest, .node c.node ∈ s.held) :
    (t.unhold (.client client.id)).Handing client payload first n rest ∧
      (t.unhold (.client client.id)).fetches client.id = t.fetches client.id := by
  have herase : t.held.erase (.client client.id) = s.held := by
    rw [hheld, List.erase_cons_head]
  refine ⟨h.unhold _ (herase ▸ hs) fun c hc => herase ▸ hrest c hc, ?_⟩
  have hless : .client client.id ∈
      ({ t with held := t.held.erase (.client client.id) } : State).held := herase ▸ hs
  exact (State.sparesData_dropClient _ client.id).fetches hless

/-- The effects run in the end, and then the data is not in use for the call any more. -/
theorem finalState_settled {u : State} {m : Nat} : finalState (guarding (·.unhold (.client id))
    (do settle κ; return m) u) = (finalState (settle κ u)).unhold (.client id) := by
  change finalState (guarding _ (EStateM.bind (settle κ) fun _ => pure m) u) = _
  rw [guarding, EStateM.bind]
  cases settle κ u <;> rfl

/-- What becomes of those who wait when the fetches are resolved. -/
structure State.Resolves (s : State) (κ : Kernel) (id : ClientId) : Prop where
  /-- If nobody waits, there is nothing to do. -/
  idle : s.fetches id = [] → ∃ t, resolvePending κ id s = .ok 0 t ∧ t.fetches id = []
  /-- Fetches that end are counted, each of them once, and their results are handed out, to everyone
  who waits in turn, before the effects run; nobody is lost who was put off meanwhile. But if the
  handler of an error breaks down, those who are behind get nothing. -/
  serves : s.fetches id ≠ [] → (∀ p ∈ s.fetches id, p.Ends) →
    (∃ u, HandsOut κ id (resultsOf (s.fetches id)) (s.fetched id) u ∧
      resolvePending κ id s = guarding (·.unhold (.client id))
        (do settle κ; return (s.fetches id).length) (u.modifyQueue Queue.exitBatch) ∧
      Lasts (u.fetches id) ((finalState (resolvePending κ id s)).fetches id)) ∨
    ∃ e behind t, BreaksOff κ id (resultsOf (s.fetches id)) (s.fetched id) e behind ∧
      resolvePending κ id s = .error e t ∧
      ∀ c ∈ behind, .node c.node ∈ s.held → t.cells[c.node]? = some (.query none)
  /-- Everyone who waits gets a result of the fetch for the key. -/
  everyone : (∀ p ∈ s.fetches id, p.Ends) →
    (resultsOf (s.fetches id)).map (·.2) = consumersOf (s.fetches id)
  /-- Behind it only new queries wait. -/
  later : ∀ n ∈ (finalState (resolvePending κ id s)).waiters id, s.kinds.size ≤ n.index

section

variable (hκ : ∀ old, κ.Mindful old client) (hκ' : Interchangeable typing κ κ)
  (hapart : client.apart)

include hκ hκ' hapart

omit hκ hκ' hapart in
/-- Waiting for fetches minds everyone who waits for them. -/
theorem State.Hosts.awaited (hs : s.Hosts client payload) :
    (finalState (awaitAll l (s.taken client.id))).Handing client payload s.kinds.size
        s.queue.batches (consumersOf (s.fetches client.id)) ∧
      (finalState (awaitAll l (s.taken client.id))).held = (s.taken client.id).held := by
  obtain ⟨hosts, hminds⟩ := hs.taken.hosts.run (mindful_awaitAll (l := l)) concur_awaitAll
  refine ⟨hs.taken.minds hosts hminds fun c hc => ?_, hminds.held⟩
  exact List.mem_append_left _ (List.mem_map_of_mem (f := fun x : Consumer => Hold.node x.node) hc)

omit hκ hκ' hapart in
/-- If a fetch breaks down or never ends, those who wait are given up. -/
theorem runFetches_fails (hs : s.Hosts client payload)
    (h : ¬ ∀ p ∈ s.fetches client.id, p.Ends) :
    ∃ e t, runFetches κ (s.fetches client.id) (s.taken client.id) = .error e t ∧
      t.Handing client payload s.kinds.size s.queue.batches [] ∧
        t.held = .client client.id :: s.held := by
  obtain ⟨e, t, hrun⟩ := awaitAll_error (s := s.taken client.id) h
  obtain ⟨ht, hheld⟩ := hs.awaited (l := s.fetches client.id)
  rw [hrun] at ht hheld
  obtain ⟨hhanding, hbase⟩ := (ht.subset (List.nil_subset _)).unholdAll hheld (by simp)
  exact ⟨e, _, run_bind_error (onInterrupt_error hrun _) _, hhanding, hbase⟩

/-- If all fetches end, their results are handed out. -/
theorem runFetches_ends (hs : s.Hosts client payload) (h : ∀ p ∈ s.fetches client.id, p.Ends) :
    (∃ u, HandsOut κ client.id (resultsOf (s.fetches client.id)) (s.fetched client.id) u ∧
      runFetches κ (s.fetches client.id) (s.taken client.id) =
        (do settle κ; return (s.fetches client.id).length) (u.modifyQueue Queue.exitBatch) ∧
      (u.modifyQueue Queue.exitBatch).Handing client payload s.kinds.size s.queue.batches [] ∧
        u.held = .client client.id :: s.held) ∨
    ∃ e behind t,
      BreaksOff κ client.id (resultsOf (s.fetches client.id)) (s.fetched client.id) e behind ∧
      runFetches κ (s.fetches client.id) (s.taken client.id) = .error e t ∧
      t.Handing client payload s.kinds.size s.queue.batches
        (behind.filter fun c => .node c.node ∈ .client client.id :: s.held) ∧
      t.held = .client client.id :: s.held := by
  obtain ⟨c, -, hfetches, -, -, horderly, -⟩ := hs.data
  obtain ⟨ht, hheld⟩ := hs.awaited (l := s.fetches client.id)
  rw [awaitAll_ends h] at ht hheld
  have hopened : (s.fetched client.id).Handing client payload s.kinds.size (s.queue.batches + 1)
      ((resultsOf (s.fetches client.id)).map (·.2)) := by
    rw [map_resultsOf h, ← ht.batches]
    exact ht.pace (f := Queue.enterBatch) fun _ => rfl
  have hclosed {u : State} {rest : List Consumer} (hu : u.Handing client payload s.kinds.size
      (s.queue.batches + 1) rest) : (u.modifyQueue Queue.exitBatch).Handing client payload
        s.kinds.size s.queue.batches rest := by
    have hbatches : (Queue.exitBatch u.queue).batches = s.queue.batches :=
      congrArg (· - 1) hu.batches
    exact hbatches ▸ hu.pace (f := Queue.exitBatch) fun _ => rfl
  have hdistinct : (((resultsOf (s.fetches client.id)).map (·.2)).map (·.node)).Nodup := by
    rw [map_resultsOf h, hfetches, ← waiting_eq]
    exact horderly.once
  have hawait : runFetches κ (s.fetches client.id) (s.taken client.id) =
      (do batch κ (applyAll κ (resultsOf (s.fetches client.id)))
          return (s.fetches client.id).length) ((s.taken client.id).advanceTo
            ((s.taken client.id).clock + longest (s.fetches client.id)) false) :=
    run_bind_ok (onInterrupt_ok (awaitAll_ends h) _)
  rcases applyAll_hands hκ hκ' hapart (Nat.succ_pos _) (resultsOf_ends h) hopened
    (by rw [map_resultsOf h]; exact hheld) hdistinct with
    ⟨u, hands, hok, hu, hbase⟩ | ⟨e, behind, t, hbreaks, herror, ht', hbase⟩
  · refine .inl ⟨u, hands, hawait.trans ?_, hclosed hu, hbase⟩
    refine (run_bind_congr (batch_ok hok) _).trans ?_
    simp only [bind_assoc, pure_bind]
  · exact .inr ⟨e, behind, t.modifyQueue Queue.exitBatch, hbreaks,
      hawait.trans (run_bind_error (batch_error herror) _), hclosed ht', hbase⟩

omit hκ hκ' hapart in
theorem resolves_idle (hs : s.Hosts client payload) (h : s.fetches client.id = []) :
    ∃ t, resolvePending κ client.id s = .ok 0 t ∧ t.fetches client.id = [] ∧
      t.Handing client payload s.kinds.size s.queue.batches [] := by
  have hhold : (s.hold (.client client.id)).Handing client payload s.kinds.size s.queue.batches
      [] := by
    refine ⟨⟨hs.carries.hold _, hs.unlocked, hs.writable, hs.payload⟩, rfl, by simp, by simp,
      fun n hn => ?_, Nat.le_refl _⟩
    have hnobody : s.waiters client.id = [] := by rw [State.waiters, h, List.flatMap_nil]
    exact absurd (hnobody ▸ hn) List.not_mem_nil
  obtain ⟨hhanding, hfetches⟩ := hhold.finish rfl hs.carries.held (by simp)
  exact ⟨_, resolvePending_none h, hfetches.trans h, hhanding⟩

/-- The effects run when everyone is served. -/
theorem settled (hs : s.Hosts client payload) {u : State} {n m : Nat}
    (hu : (u.modifyQueue Queue.exitBatch).Handing client payload s.kinds.size n [])
    (hheld : u.held = .client client.id :: s.held) :
    (finalState (guarding (·.unhold (.client client.id)) (do settle κ; return m)
      (u.modifyQueue Queue.exitBatch))).Handing client payload s.kinds.size n [] ∧
    Lasts (u.fetches client.id) ((finalState (guarding (·.unhold (.client client.id))
      (do settle κ; return m) (u.modifyQueue Queue.exitBatch))).fetches client.id) := by
  obtain ⟨hosts, hminds⟩ := hu.hosts.run (mindful_settle (hκ _)) (concur_settle hκ').whatever
  rw [finalState_settled]
  obtain ⟨hhanding, hfetches⟩ := (hu.minds hosts hminds (by simp)).finish (s := s)
    (hminds.held.trans hheld) hs.carries.held (by simp)
  exact ⟨hhanding, hfetches ▸ hminds.lasts hu.hosts hapart⟩

theorem resolves (hs : s.Hosts client payload) : s.Resolves κ client.id ∧
    ∃ n rest, (finalState (resolvePending κ client.id s)).Handing client payload s.kinds.size n
      rest := by
  have hheld := hs.carries.held
  suffices hspec : (s.fetches client.id ≠ [] → (∀ p ∈ s.fetches client.id, p.Ends) → _) ∧
      ∃ n rest, (finalState (resolvePending κ client.id s)).Handing client payload s.kinds.size n
        rest by
    obtain ⟨hserves, n, rest, hhanding⟩ := hspec
    refine ⟨⟨fun hnone => ?_, hserves, map_resultsOf, hhanding.later⟩, n, rest, hhanding⟩
    obtain ⟨t, hrun, hfetches, -⟩ := resolves_idle (κ := κ) hs hnone
    exact ⟨t, hrun, hfetches⟩
  by_cases hnone : s.fetches client.id = []
  · obtain ⟨t, hrun, -, ht⟩ := resolves_idle (κ := κ) hs hnone
    refine ⟨fun hsome => absurd hnone hsome, ?_⟩
    rw [hrun]
    exact ⟨_, _, ht⟩
  have hrun := resolvePending_some (κ := κ) hnone
  by_cases hends : ∀ p ∈ s.fetches client.id, p.Ends
  · rcases runFetches_ends hκ hκ' hapart hs hends with
      ⟨u, hands, hsettle, hu, hbase⟩ | ⟨e, behind, t, hbreaks, herror, ht, hbase⟩
    · have hfinal := hrun.trans (guarding_congr hsettle _)
      obtain ⟨hhanding, hlasts⟩ := settled (m := (s.fetches client.id).length) hκ hκ' hapart hs hu
        hbase
      rw [← hfinal] at hhanding hlasts
      exact ⟨fun _ _ => .inl ⟨u, hands, hfinal, hlasts⟩, _, _, hhanding⟩
    · have hfinal := hrun.trans (guarding_error herror _)
      have hbehind (c : Consumer)
          (hc : c ∈ behind.filter fun c => .node c.node ∈ .client client.id :: s.held) :
          .node c.node ∈ s.held := by
        simpa using (List.mem_filter.1 hc).2
      obtain ⟨hhanding, -⟩ := ht.finish hbase hheld hbehind
      refine ⟨fun _ _ => .inr ⟨e, behind, _, hbreaks, hfinal, fun c hc hinUse => ?_⟩, ?_⟩
      · exact hhanding.loading c (List.mem_filter.2 ⟨hc, by simpa using hinUse⟩)
      · rw [hfinal]
        exact ⟨_, _, hhanding⟩
  · obtain ⟨e, t, herror, ht, hbase⟩ := runFetches_fails (κ := κ) hs hends
    obtain ⟨hhanding, -⟩ := ht.finish hbase hheld (by simp)
    refine ⟨fun _ hends' => absurd hends' hends, ?_⟩
    rw [hrun.trans (guarding_error herror _)]
    exact ⟨_, _, hhanding⟩

end

end Rivulet.Engine
