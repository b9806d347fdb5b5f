import Rivulet.Proofs.Fetching.Asking

/-!
# How results are handed out

The results of fetches are handed out in one batch, to one query after the other. A query gets its
value, or its failure is reported where the query was made; either way it does not wait any more,
and no effect runs before the last one is served. What the handler of an error puts off meanwhile
waits for the next time.
-/

namespace Rivulet.Engine

variable {old : NodeId → Prop} {client : Ward} {s s' t u : State} {payload : Query.Payload}
  {κ : Kernel} {first n : Nat} {base : List Hold} {rest : List Consumer} {c : Consumer}
  {result : Query.Result}

/-- What a result means for a query that waits for it: a value, or the text of an error. -/
def Consumer.answer (c : Consumer) : Query.Result → Except String Json
  | .value v => (c.shape.check v).mapError fun message => (Query.Failure.decode message).display
  | .failure f => .error (Query.Failure.fetch f.display).display
  | .panic message => .error message

theorem applyResult_value {v : Json} (h : c.answer result = .ok v) :
    applyResult κ result c = resolveQuery κ c.node v := by
  cases result with
  | value w =>
    rw [applyResult]
    cases hcheck : c.shape.check w with
    | error message => simp [Consumer.answer, hcheck, Except.mapError] at h
    | ok w' =>
      simp only [Consumer.answer, hcheck, Except.mapError, Except.ok.injEq] at h
      rw [h]
  | failure f => cases h
  | panic message => cases h

theorem applyResult_error {text : String} (hresult : ∀ message, result ≠ .panic message)
    (h : c.answer result = .error text) :
    applyResult κ result c = κ.report c.scope text := by
  cases result with
  | value w =>
    rw [applyResult]
    cases hcheck : c.shape.check w with
    | error message =>
      simp only [Consumer.answer, hcheck, Except.mapError, Except.error.injEq] at h
      rw [← h]
    | ok w' => simp [Consumer.answer, hcheck, Except.mapError] at h
  | failure f => rw [applyResult, Except.error.inj h]
  | panic message => exact absurd rfl (hresult message)

/-- A query gets its value. -/
def State.receives (s : State) (id : NodeId) (v : Json) : State :=
  (s.setCell id (.query (some v))).markChanged id

/-- While a batch is open, a query that gets its value lets nothing run. -/
theorem resolveQuery_receives {id : NodeId} (hwritable : s.tracking.inDerived = false)
    (hopen : 0 < s.queue.batches) (hloading : s.cells[id]? = some (.query none)) (v : Json) :
    resolveQuery κ id v s = .ok () (s.receives id v) := by
  have hensure : ensureWritable s = .ok () s := by
    rw [ensureWritable, run_get, if_neg (by simp [hwritable])]
    rfl
  have hbatches : (s.receives id v).queue.batches = s.queue.batches :=
    (onward_markChanged (s.setCell id (.query (some v))) id).batches
  have hclosed : ¬ (s.receives id v).queue.canFlush = true := by
    simp only [Queue.canFlush, hbatches, Bool.and_eq_true, decide_eq_true_eq, not_and]
    omega
  rw [resolveQuery, run_bind_ok hensure, run_get]
  simp only [hloading, isCurrent, Bool.false_eq_true]
  change settle κ (s.receives id v) = _
  rw [settle, run_get, if_neg hclosed]
  rfl

/-- What the handler of an error may do while results are handed out: it lets no effect run that was
there, and nobody who was put off meanwhile is lost. -/
structure State.Patient (id : ClientId) (s s' : State) : Prop where
  /-- No effect has run that was there. -/
  calm : ∀ n e', n.index < s.kinds.size → s'.effect? n = some e' →
    ∃ e, s.effect? n = some e ∧ e'.runs = e.runs
  /-- Nobody who waits is lost. -/
  lasts : Lasts (s.fetches id) (s'.fetches id)

/-- A result is handed to a query. -/
inductive Handed (κ : Kernel) (id : ClientId) (result : Query.Result) (c : Consumer) (s : State) :
    State → Prop where
  /-- The query gets its value. -/
  | value {v : Json} (hanswer : c.answer result = .ok v) :
      Handed κ id result c s (s.receives c.node v)
  /-- Its failure is reported where it was made. -/
  | error {text : String} {t : State} (hanswer : c.answer result = .error text)
      (hreport : κ.report c.scope text s = .ok () t) (hpatient : s.Patient id t) :
      Handed κ id result c s t

/-- Results are handed out in one batch, to one query after the other, each of which has been
loading so far and is not in use for the hand-out any more. -/
inductive HandsOut (κ : Kernel) (id : ClientId) :
    List (Query.Result × Consumer) → State → State → Prop where
  /-- Everyone is served. -/
  | nil (s : State) : HandsOut κ id [] s s
  /-- The next one is served. -/
  | cons {s t u : State} {result : Query.Result} {c : Consumer}
      {rest : List (Query.Result × Consumer)} (hopened : 0 < s.queue.batches)
      (hloading : s.cells[c.node]? = some (.query none)) (hhanded : Handed κ id result c s t)
      (hrest : HandsOut κ id rest (t.unhold (.node c.node)) u) :
      HandsOut κ id ((result, c) :: rest) s u

/-- The hand-out breaks off because the handler of an error breaks down, and some are left
behind. -/
def BreaksOff (κ : Kernel) (id : ClientId) (results : List (Query.Result × Consumer)) (s : State)
    (e : Interrupt) (behind : List Consumer) : Prop :=
  ∃ done result c rest text u t, results = done ++ (result, c) :: rest ∧
    HandsOut κ id done s u ∧ c.answer result = .error text ∧
      κ.report c.scope text u = .error e t ∧ behind = rest.map (·.2)

private theorem BreaksOff.cons {id : ClientId} {results : List (Query.Result × Consumer)}
    {e : Interrupt}
    {behind : List Consumer} (hopened : 0 < s.queue.batches)
    (hloading : s.cells[c.node]? = some (.query none)) (hhanded : Handed κ id result c s t)
    (h : BreaksOff κ id results (t.unhold (.node c.node)) e behind) :
    BreaksOff κ id ((result, c) :: results) s e behind := by
  obtain ⟨done, result', c', rest, text, u, t', rfl, hands, hbreak⟩ := h
  exact ⟨(result, c) :: done, result', c', rest, text, u, t', rfl,
    .cons hopened hloading hhanded hands, hbreak⟩

/-- A state in which results are handed out, where some queries still wait for theirs, and those
that were put off meanwhile are new. -/
structure State.Handing (client : Ward) (payload : Query.Payload) (first n : Nat)
    (rest : List Consumer) (s : State) : Prop where
  /-- The data is in order. -/
  hosts : s.Hosts client payload
  /-- So many batches are open. -/
  batches : s.queue.batches = n
  /-- Nobody has got a result who still waits for it. -/
  loading : ∀ c ∈ rest, s.cells[c.node]? = some (.query none)
  /-- Those who wait for their results were there before. -/
  earlier : ∀ c ∈ rest, c.node.index < first
  /-- Those who were put off meanwhile were not. -/
  later : ∀ n ∈ s.waiters client.id, first ≤ n.index
  /-- There are as many nodes as before, or more. -/
  size : first ≤ s.kinds.size

namespace State.Handing

theorem subset {rest' : List Consumer} (h : s.Handing client payload first n rest)
    (hsub : rest' ⊆ rest) : s.Handing client payload first n rest' :=
  ⟨h.hosts, h.batches, fun c hc => h.loading c (hsub hc), fun c hc => h.earlier c (hsub hc),
    h.later, h.size⟩

/-- Something happens that minds those who wait for their results. -/
theorem behind (h : s.Handing client payload first n rest) (hosts : s'.Hosts client payload)
    (hminds : s.Minds old client s')
    (hold : ∀ c ∈ rest, old c.node ∧ .node c.node ∈ s.held)
    (hwaiters : ∀ n ∈ s'.waiters client.id, n.index < s.kinds.size → n ∈ s.waiters client.id) :
    s'.Handing client payload first n rest where
  hosts := hosts
  batches := hminds.batches.trans h.batches
  loading c hc := hminds.cells c.node none (hold c hc).1 (hold c hc).2 (h.loading c hc)
  earlier := h.earlier
  later n hn := by
    rcases Nat.lt_or_ge n.index s.kinds.size with hlt | hge
    · exact h.later n (hwaiters n hn hlt)
    · exact Nat.le_trans h.size hge
  size := Nat.le_trans h.size hminds.path.before.size

/-- Something happens that minds all that is there. -/
theorem minds (h : s.Handing client payload first n rest) (hosts : s'.Hosts client payload)
    (hminds : s.Minds (fun n => n.index < s.kinds.size) client s')
    (hheld : ∀ c ∈ rest, .node c.node ∈ s.held) : s'.Handing client payload first n rest :=
  h.behind hosts hminds
    (fun c hc => ⟨Nat.lt_of_lt_of_le (h.earlier c hc) h.size, hheld c hc⟩)
    fun _ hn hlt => hminds.waiters h.hosts hn hlt

/-- A query gets its value, and the others still wait. -/
theorem receives (h : s.Handing client payload first n (c :: rest))
    (hheld : ∀ x ∈ c :: rest, .node x.node ∈ s.held) (hdistinct : c.node ∉ rest.map (·.node))
    (v : Json) : (s.receives c.node v).Handing client payload first n rest := by
  have hloading := h.loading c List.mem_cons_self
  have hkind : s.kinds[c.node.index]? = some .source :=
    h.hosts.carries.typed.cells c.node _ hloading
  have hfree (d : Client) (hd : s.clients[client.id]? = some d) : c.node ∉ d.waiting := fun hmem =>
    absurd (h.later c.node (waiters_of hd ▸ hmem))
      (Nat.not_le.2 (h.earlier c List.mem_cons_self))
  have hset : s.Minding (fun n => n.index < s.kinds.size ∧ n ≠ c.node) client
      (s.setCell c.node (.query (some v))) := by
    refine minding_replaced (Leads.one (.resolve c.node v hkind)).path rfl
      ⟨rfl, rfl, rfl, rfl, rfl, rfl, rfl⟩ (fun _ _ _ => ⟨fun hn => hn.2 rfl, hfree⟩)
      (fun hs p hp hn => ?_) (by simp [Cell.kind])
    obtain ⟨w, hw⟩ := hs.signals p hp c.node hn
    simp [hloading] at hw
  have hmark : (s.setCell c.node (.query (some v))).Minding
      (fun n => n.index < s.kinds.size ∧ n ≠ c.node) client (s.receives c.node v) :=
    SameData.minding ⟨(onward_markChanged _ _).batches, rfl, rfl, rfl, rfl, rfl, rfl⟩
      (.single (.inr (.notify c.node)))
  obtain ⟨hcarries, hminds⟩ := (hset.trans hmark) h.hosts.carries fun _ hn => hn.1
  have hmarked := onward_markChanged (s.setCell c.node (.query (some v))) c.node
  have honward : s.Onward (s.receives c.node v) :=
    ⟨hmarked.batches, hmarked.flushing, hmarked.observers⟩
  refine (h.subset (List.subset_cons_self c rest)).behind
    (h.hosts.behind hcarries hminds honward) hminds
    (fun x hx => ⟨⟨?_, ?_⟩, hheld x (List.mem_cons_of_mem _ hx)⟩) fun n hn _ => hn
  · exact Nat.lt_of_lt_of_le (h.earlier x (List.mem_cons_of_mem _ hx)) h.size
  · intro he
    exact hdistinct (List.mem_map.2 ⟨x, hx, he⟩)

/-- Something is let go of, and those who are in use anyway still wait. -/
theorem unhold (h : s.Handing client payload first n rest) (x : Hold)
    (hclient : .client client.id ∈ s.held.erase x)
    (hheld : ∀ c ∈ rest, .node c.node ∈ s.held.erase x) :
    (s.unhold x).Handing client payload first n rest := by
  have hpath : Path s { s with held := s.held.erase x } :=
    Leads.path (Leads.aside (by constructor <;> rfl))
  have hcarries : ({ s with held := s.held.erase x } : State).Carries client :=
    ⟨typing.path h.hosts.carries.typed hpath, h.hosts.carries.signals, h.hosts.carries.apart,
      hclient, h.hosts.carries.known, h.hosts.carries.data⟩
  have hless : ({ s with held := s.held.erase x } : State).Handing client payload first n rest :=
    ⟨⟨hcarries, h.hosts.unlocked, h.hosts.writable, h.hosts.payload⟩, h.batches, h.loading,
      h.earlier, h.later, h.size⟩
  cases x with
  | node id =>
    obtain ⟨hosts, hminds⟩ := hless.hosts.step (minding_releaseNode _ id)
      (leads_releaseNode _ id).onward.1
    exact hless.minds hosts hminds hheld
  | client id =>
    obtain ⟨hosts, hminds⟩ := hless.hosts.step (minding_dropClient _ id)
      (leads_dropClient _ id).onward.1
    exact hless.minds hosts hminds hheld

theorem unholdNode (h : s.Handing client payload first n rest) (id : NodeId)
    (hheld : ∀ c ∈ rest, .node c.node ∈ s.held.erase (.node id)) :
    (s.unhold (.node id)).Handing client payload first n rest :=
  h.unhold _ ((List.mem_erase_of_ne (by simp)).2 h.hosts.carries.held) hheld

/-- A batch is opened or closed. -/
theorem pace (h : s.Handing client payload first n rest) {f : Queue → Queue}
    (hpending : ∀ q, (f q).pending = q.pending) :
    (s.modifyQueue f).Handing client payload first (f s.queue).batches rest := by
  have hpath : Path s (s.modifyQueue f) := .single (.inr (.pace f hpending))
  have hcarries : (s.modifyQueue f).Carries client :=
    { h.hosts.carries with typed := typing.path h.hosts.carries.typed hpath }
  have hhosts : (s.modifyQueue f).Hosts client payload :=
    { h.hosts with carries := hcarries }
  exact { h with hosts := hhosts, batches := rfl }

theorem held_unhold (s : State) (id : NodeId) :
    (s.unhold (.node id)).held = s.held.erase (.node id) := by
  obtain ⟨_, _, _, _, h⟩ := letsGo_releaseNode { s with held := s.held.erase (.node id) } id
  exact congrArg State.held h

/-- Those who are given up are let go of one after the other. -/
theorem unholdAll {l : List Consumer} (h : s.Handing client payload first n rest)
    (hs : s.held = l.map (.node ·.node) ++ base) (hheld : ∀ c ∈ rest, .node c.node ∈ base) :
    (l.foldl (fun s c => s.unhold (.node c.node)) s).Handing client payload first n rest ∧
      (l.foldl (fun s c => s.unhold (.node c.node)) s).held = base := by
  induction l generalizing s with
  | nil => exact ⟨h, hs⟩
  | cons x l ih =>
    have herase : s.held.erase (.node x.node) = l.map (.node ·.node) ++ base := by
      rw [hs, List.map_cons, List.cons_append, List.erase_cons_head]
    refine ih (h.unholdNode x.node fun c hc => ?_) ((held_unhold s x.node).trans herase)
    rw [herase]
    exact List.mem_append_right _ (hheld c hc)

/-- The failure of a query is reported. -/
theorem report (h : s.Handing client payload first n rest) (hκ : ∀ old, κ.Mindful old client)
    (hκ' : Interchangeable typing κ κ) (hheld : ∀ c ∈ rest, .node c.node ∈ s.held)
    (scope : Option ScopeId) (text : String) :
    (finalState (κ.report scope text s)).Handing client payload first n rest ∧
      (finalState (κ.report scope text s)).held = s.held ∧
      (0 < n → client.apart →
        s.Patient client.id (finalState (κ.report scope text s))) := by
  obtain ⟨hosts, hminds⟩ := h.hosts.run (mindful_callReport (hκ _) scope text)
    (concur_callReport hκ' scope text)
  exact ⟨h.minds hosts hminds hheld, hminds.held, fun hn hapart =>
    ⟨hminds.calm (h.batches ▸ hn), hminds.lasts h.hosts hapart⟩⟩

end State.Handing

private theorem applyAll_ok {rest : List (Query.Result × Consumer)}
    (h : applyResult κ result c s = .ok () t) :
    applyAll κ ((result, c) :: rest) s = applyAll κ rest (t.unhold (.node c.node)) :=
  run_bind_ok (onInterrupt_ok (guarding_ok h _) _)

private theorem applyAll_error {rest : List (Query.Result × Consumer)} {e : Interrupt}
    (h : applyResult κ result c s = .error e t) :
    applyAll κ ((result, c) :: rest) s = .error e
      ((c :: rest.map (·.2)).foldl (fun s c => s.unhold (.node c.node)) t) := by
  rw [List.foldl_cons, List.foldl_map]
  exact run_bind_error (onInterrupt_error (guarding_error h _) _) _

section

variable (hκ : ∀ old, κ.Mindful old client) (hκ' : Interchangeable typing κ κ)
  (hapart : client.apart) (hn : 0 < n)

include hκ hκ' hapart hn

/-- The next one is served, unless the handler of its error breaks down. -/
theorem applyResult_handed (h : s.Handing client payload first n (c :: rest))
    (hheld : ∀ x ∈ c :: rest, .node x.node ∈ s.held) (hdistinct : c.node ∉ rest.map (·.node))
    (hresult : ∀ message, result ≠ .panic message) :
    (∃ t, Handed κ client.id result c s t ∧ applyResult κ result c s = .ok () t ∧
      t.Handing client payload first n rest ∧ t.held = s.held) ∨
    ∃ text e t, c.answer result = .error text ∧ κ.report c.scope text s = .error e t ∧
      applyResult κ result c s = .error e t ∧ t.Handing client payload first n rest ∧
        t.held = s.held := by
  cases hanswer : c.answer result with
  | ok v =>
    have hreceives := resolveQuery_receives (κ := κ) h.hosts.writable (h.batches ▸ hn)
      (h.loading c List.mem_cons_self) v
    exact .inl ⟨_, .value hanswer, (congrFun (applyResult_value hanswer) s).trans hreceives,
      h.receives hheld hdistinct v, rfl⟩
  | error text =>
    have hrun := congrFun (applyResult_error (κ := κ) hresult hanswer) s
    obtain ⟨hhanding, hheld', hpatient⟩ := h.report hκ hκ' hheld c.scope text
    cases hreport : κ.report c.scope text s with
    | ok a t =>
      rw [hreport] at hhanding hheld' hpatient
      exact .inl ⟨t, .error hanswer hreport (hpatient hn hapart), hrun.trans hreport,
        hhanding.subset (List.subset_cons_self _ _), hheld'⟩
    | error e t =>
      rw [hreport] at hhanding hheld'
      exact .inr ⟨text, e, t, rfl, hreport, hrun.trans hreport,
        hhanding.subset (List.subset_cons_self _ _), hheld'⟩

/-- Everyone is served in turn, or the hand-out breaks off; those who are left behind then are as
they were, if they are in use. -/
theorem applyAll_hands {results : List (Query.Result × Consumer)}
    (hresults : ∀ r ∈ results, ∀ message, r.1 ≠ .panic message)
    (h : s.Handing client payload first n (results.map (·.2)))
    (hheld : s.held = (results.map (·.2)).map (.node ·.node) ++ base)
    (hdistinct : ((results.map (·.2)).map (·.node)).Nodup) :
    (∃ u, HandsOut κ client.id results s u ∧ applyAll κ results s = .ok () u ∧
      u.Handing client payload first n [] ∧ u.held = base) ∨
    ∃ e behind t, BreaksOff κ client.id results s e behind ∧ applyAll κ results s = .error e t ∧
      t.Handing client payload first n (behind.filter fun c => .node c.node ∈ base) ∧
        t.held = base := by
  induction results generalizing s with
  | nil => exact .inl ⟨s, .nil s, rfl, h, hheld⟩
  | cons r rest ih =>
    obtain ⟨result, c⟩ := r
    obtain ⟨hnew, hrest⟩ := List.nodup_cons.1 hdistinct
    have hinUse (l : List Consumer) (x : Consumer) (hx : x ∈ l) :
        .node x.node ∈ l.map (.node ·.node) ++ base :=
      List.mem_append_left _ (List.mem_map_of_mem (f := fun x : Consumer => Hold.node x.node) hx)
    have hresult : ∀ message, result ≠ .panic message := hresults _ List.mem_cons_self
    have hstep := applyResult_handed hκ hκ' hapart hn h (fun x hx => hheld ▸ hinUse _ x hx) hnew
      hresult
    have hloading := h.loading c List.mem_cons_self
    rcases hstep with ⟨t, hhanded, hrun, ht, hheld'⟩ |
      ⟨text, e, t, hanswer, hreport, hrun, ht, hheld'⟩
    · have herase : t.held.erase (.node c.node) =
          (rest.map (·.2)).map (.node ·.node) ++ base := by
        rw [hheld', hheld, List.map_cons, List.map_cons, List.cons_append, List.erase_cons_head]
      rw [applyAll_ok hrun]
      rcases ih (fun r hr => hresults r (List.mem_cons_of_mem _ hr))
        (ht.unholdNode c.node fun x hx => herase ▸ hinUse _ x hx)
        ((State.Handing.held_unhold t c.node).trans herase) hrest with
        ⟨u, hands, hok, hu⟩ | ⟨e, behind, t', hbreaks, herror, ht'⟩
      · exact .inl ⟨u, .cons (h.batches ▸ hn) hloading hhanded hands, hok, hu⟩
      · exact .inr ⟨e, behind, t', hbreaks.cons (h.batches ▸ hn) hloading hhanded, herror, ht'⟩
    · refine .inr ⟨e, rest.map (·.2), _, ⟨[], result, c, rest, text, s, t, rfl, .nil s, hanswer,
        hreport, rfl⟩, applyAll_error hrun, ?_⟩
      refine (ht.subset (List.filter_sublist.subset)).unholdAll ?_ fun x hx => ?_
      · rw [hheld', hheld]
        rfl
      · simpa using (List.mem_filter.1 hx).2

end

end Rivulet.Engine
