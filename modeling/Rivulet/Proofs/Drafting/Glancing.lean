import Rivulet.Proofs.Drafting.Bearing

/-!
# Programs that look, at work

A program that only looks ends with a value, which is what it comes to by what it sees. Computed
values may be brought up to date for that, which only looks as well. So nothing is drawn and nothing
comes to wait, however deep the looks go.
-/

namespace Rivulet

/-- What a program that looks ends with. -/
def Program.Says (p : Program) (o : Outcome) : Prop :=
  ∃ v answers, o = .value v ∧ p.Recites answers v

namespace Engine

/-- A kernel that answers calls which only look by looking. -/
structure Kernel.Glances (κ : Kernel) : Prop where
  /-- It runs programs that look. -/
  exec : ∀ {p : Program}, p.Quiet → ∀ {k s},
    Brings State.Idles k (κ.exec p) s fun o _ => p.Says o
  /-- It brings computed values up to date. -/
  refresh : ∀ {id k} {s : State}, s.kinds[id.index]? = some .derived →
    Brings State.Idles k (κ.refresh id) s Whatever
  /-- It reads computed values. -/
  read : ∀ {id k} {s : State}, s.kinds[id.index]? = some .derived →
    Brings State.Idles k (κ.read id) s Whatever
  /-- It does nothing where nothing was put off. -/
  drain : ∀ {s s'}, s.deferred = [] → κ.drain s = .ok () s' → s' = s

section

variable {α : Type} {R : State → State → Prop} [Bearing R] {κ : Kernel} {k : Nat} {s s' : State}
  {P : α → State → Prop} {q : α → Canvas → Prop}

/-- Something is brought about in a scope. -/
theorem brings_withScope {id : ScopeId} {x : Run α}
    (h : Brings R k x (s.modifyScopes (·.enter id)) fun a s' => q a s'.canvas) :
    Brings R k (withScope id x) s fun a s' => q a s'.canvas :=
  .change (fun _ => Bearing.idles (State.idles_enterScope s id)) fun _ =>
    h.guarding (fun s' => Bearing.idles (State.idles_leaveScope s' id)) fun _ _ _ ha => ha

/-- Something is brought about in an untracked section. -/
theorem brings_untracked {x : Run α}
    (h : Brings R k x (s.modifyTracking (·.enter .untracked)) fun a s' => q a s'.canvas) :
    Brings R k (untracked x) s fun a s' => q a s'.canvas :=
  .change (fun _ => Bearing.idles (State.idles_enter s .untracked)) fun _ =>
    h.guarding (fun s' => Bearing.idles (State.idles_leave s')) fun _ _ _ ha => ha

/-- Something is brought about while a node is in use. -/
theorem brings_holding {id : NodeId} {x : Run α}
    (h : Brings R k x (s.hold (.node id)) fun a s' => q a s'.canvas) :
    Brings R k (holding id x) s fun a s' => q a s'.canvas :=
  .change (fun _ => Bearing.idles (State.idles_hold s _)) fun _ =>
    h.guarding (fun s' => Bearing.idles (State.idles_unhold s' _)) fun _ s' _ ha =>
      (State.idles_unhold s' _).canvas ▸ ha

/-- Query data is at hand while something runs. -/
theorem brings_withSupply {supply : Option Supply} {x : Run α}
    (h : ∀ u, u.supply? = supply.or s.supply? → u.canvas = s.canvas →
      Brings State.Preserves k x u fun a s' => q a s'.canvas) :
    Brings State.Preserves k (withSupply supply x) s fun a s' => q a s'.canvas := by
  cases supply with
  | none => exact h s rfl rfl
  | some supply =>
    let u : State := { s with supplies := supply :: s.supplies }
    intro hs a s'' hrun
    have hentered : u.Placid k := ⟨hs.reached.path (State.path_enterSupply s supply),
      ⟨hs.hushed.computed, hs.hushed.cleanups⟩, hs.quiet, hs.begun⟩
    obtain ⟨⟨⟩, v, henter, hbody⟩ := bind_ok_cases hrun
    cases henter
    rw [guarding] at hbody
    split at hbody
    · rename_i b s' hx
      cases hbody
      obtain ⟨hpreserves, hq⟩ := h u rfl rfl hentered _ s' hx
      refine ⟨hpreserves.supplied, ?_⟩
      show q a s'.leaveSupply.canvas
      rw [State.canvas_leaveSupply]
      exact hq
    · cases hbody

/-- Something is brought about in a tracked section. -/
theorem brings_tracked {id : NodeId} {o : Tracking.Observer} {x : Run α}
    (hid : MayRead s.kinds id)
    (h : Brings R k x (s.modifyTracking (·.enter o)) fun a s' => q a s'.canvas) :
    Brings R k (tracked id o x) s fun a s' => q a s'.canvas := by
  refine .change (fun _ => Bearing.idles (State.idles_enter s o)) fun _ => ?_
  refine h.onInterrupt.bind fun a u hu _ ha => ?_
  have hid' : MayRead u.kinds id := (Bearing.preserves hu).path.before.mayRead hid
  exact .change (fun _ => Bearing.idles (State.idles_endRun hid')) fun _ => .ret ha

/-- Nothing happens where nothing waits that could be done. -/
theorem eq_of_settle (hκ : κ.Glances) (hs : s.Quiet) (h : settle κ s = .ok () s') : s' = s := by
  cases hflush : s.queue.canFlush with
  | false =>
    rw [settle_of_batching hflush κ] at h
    cases h
    rfl
  | true =>
    obtain ⟨hpending, hdeferred⟩ := hs hflush
    have hrun : flush κ s = .ok () s' := by
      have hbranch : (if s.queue.canFlush = true then flush κ else pure ()) s = .ok () s' := h
      rwa [if_pos hflush] at hbranch
    obtain ⟨u, v, hlook, hflushed⟩ := bind_ok_cases (x := (get : Run State)) hrun
    cases hlook
    simp only [Queue.beginFlush_of_canFlush hflush] at hflushed
    obtain ⟨⟨⟩, w, hopen, hserved⟩ := bind_ok_cases hflushed
    cases hopen
    obtain ⟨⟨⟩, x, hwaiting, hdrain⟩ := bind_ok_cases hserved
    have hnone := runWaiting_nil κ
      (s := { s with queue := { s.queue with flushing := true } }) hpending flushLimit
    rw [guarding_ok hnone] at hwaiting
    cases hwaiting
    rw [State.endFlush_begun (Queue.flushing_of_canFlush hflush)] at hdrain
    exact hκ.drain hdeferred hdrain

/-- In a placid state there is nothing to settle. -/
theorem brings_settle (hκ : κ.Glances) : Brings R k (settle κ) s fun _ s' => s' = s := by
  intro hs _ _ h
  obtain rfl := eq_of_settle hκ hs.quiet h
  exact ⟨Bearing.idles (.refl _), rfl⟩

/-- Something is brought about in a batch, with nothing to settle behind it. -/
theorem brings_batch (hκ : κ.Glances) {x : Run α}
    (h : Brings R k x (s.modifyQueue Queue.enterBatch) fun a s' => q a s'.canvas)
    (hR : ∀ {s'}, R (s.modifyQueue Queue.enterBatch) s' → R s (s'.modifyQueue Queue.exitBatch)) :
    Brings R k (batch κ x) s fun a s' => q a s'.canvas := by
  intro hs a s'' hrun
  have hentered : (s.modifyQueue Queue.enterBatch).Placid k :=
    ⟨hs.reached.path (.single (.inr (.pace _ fun _ => rfl))), ⟨hs.hushed.computed,
      hs.hushed.cleanups⟩, State.quiet_enterBatch s,
        hs.begun⟩
  obtain ⟨⟨⟩, u, henter, hbody⟩ := bind_ok_cases hrun
  cases henter
  obtain ⟨b, u, hx, hrest⟩ := bind_ok_cases hbody
  obtain ⟨hu, hq⟩ := h.onInterrupt hentered b u hx
  have hleft := hR hu
  obtain ⟨⟨⟩, v, hexit, hsettled⟩ := bind_ok_cases hrest
  cases hexit
  obtain ⟨⟨⟩, v, hsettle, hret⟩ := bind_ok_cases hsettled
  obtain rfl := eq_of_settle hκ ((Bearing.preserves hleft).quiet hs.quiet) hsettle
  cases hret
  exact ⟨hleft, hq⟩

/-- What goes on inside a batch goes on outside. -/
theorem State.Preserves.batch {s s' : State}
    (h : (s.modifyQueue Queue.enterBatch).Preserves s') :
    s.Preserves (s'.modifyQueue Queue.exitBatch) where
  path := .trans (.single (.inr (.pace Queue.enterBatch fun _ => rfl)))
    (h.path.tail (.inr (.pace Queue.exitBatch fun _ => rfl)))
  batches := by
    have hbatches : s'.queue.batches = s.queue.batches + 1 := h.batches
    rw [State.modifyQueue, Queue.exitBatch, hbatches, Nat.add_sub_cancel]
  flushing := h.flushing
  pending := h.pending
  deferred := h.deferred
  supplies := h.supplies
  hushed hs :=
    have hhushed := h.hushed ⟨hs.computed, hs.cleanups⟩
    ⟨hhushed.computed, hhushed.cleanups⟩

/-- A batch in which nothing is drawn. -/
theorem State.Idles.batch {s s' : State} (h : (s.modifyQueue Queue.enterBatch).Idles s') :
    s.Idles (s'.modifyQueue Queue.exitBatch) :=
  ⟨h.toPreserves.batch, h.canvas⟩

/-- Recording a read. -/
theorem brings_recordRead {id : NodeId} (h : MayBeRead s.kinds id) :
    Brings State.Idles k (recordRead id) s Whatever :=
  (Brings.step fun _ => State.idles_record h).imp fun _ _ _ _ => trivial

/-- Reading what a name stands for. -/
theorem brings_read (hκ : κ.Glances) (name : String) :
    Brings State.Idles k (read κ name) s Whatever := by
  refine .look fun hs => ?_
  have hrecord {id : NodeId} (hid : s.kinds[id.index]? = some .source)
      (f : State → Option Json) :
      Brings State.Idles k (do recordRead id; return f (← get)) s Whatever :=
    (brings_recordRead ⟨_, hid, by simp⟩).bind fun _ _ _ _ _ => .look fun _ => .ret trivial
  cases hname : s.handle? name with
  | none => exact .ret trivial
  | some hd =>
    have hsuits := suits_of_handle? hs.reached.typed hname
    cases hd with
    | signal id => exact hrecord hsuits fun s => some (s.signalValue id)
    | pair id => exact hrecord hsuits fun s => some (s.signalValue id)
    | computed id => exact (hκ.read hsuits).bind fun _ _ _ _ _ => .ret trivial
    | query id key => exact hrecord hsuits fun s => some (.orNull (s.queryValue id))
    | _ => exact .ret trivial

/-- Doing something with what a name stands for. -/
theorem brings_withHandle {β : Type} {name : String} {kind? : Handle → Option β}
    {f : β → Run (Option Json)} {P : Option Json → State → Prop} (hnone : P none s)
    (h : s.Placid k → ∀ b, (s.handle? name).bind kind? = some b → Brings R k (f b) s P) :
    Brings R k (withHandle name kind? f) s P := by
  refine .look fun hs => ?_
  cases hb : (s.handle? name).bind kind? with
  | none => exact .ret hnone
  | some b => exact h hs b hb

private theorem brings_readQuery (name : String) (view : Option Json → Json) :
    Brings State.Idles k (readQuery name view) s Whatever := by
  refine brings_withHandle trivial fun hs id hid => ?_
  obtain ⟨hd, hname, hquery⟩ := Option.bind_eq_some_iff.1 hid
  have hsuits := suits_of_handle? hs.reached.typed hname
  cases hd <;> cases hquery
  exact (brings_recordRead ⟨_, hsuits, by simp⟩).bind fun _ _ _ _ _ => .look fun _ => .ret trivial

private theorem brings_showNode (name : String) (view : Document (Json → Program) → DomId → Json) :
    Brings State.Idles k (showNode name view) s Whatever :=
  brings_withHandle trivial fun _ _ _ => .look fun _ => .ret trivial

/-- A look changes only what was read and logged. -/
theorem brings_looks (hκ : κ.Glances) {o : Op} (ho : o.looks = true) :
    Brings State.Idles k (performOp κ o) s Whatever := by
  cases o with
  | log v =>
    refine .change (fun _ => ?_) fun _ => .ret trivial
    exact State.idles_aside ⟨rfl, rfl, rfl, rfl, rfl, rfl, rfl, rfl⟩ rfl rfl rfl
  | get name => exact brings_read hκ name
  | peek name => exact brings_untracked (q := fun _ _ => True) (brings_read hκ name)
  | size name =>
    refine .look fun _ => ?_
    split
    · exact .ret trivial
    · exact (brings_read hκ name).bind fun _ _ _ _ _ => .ret trivial
  | state name => exact brings_readQuery name queryState
  | loading name => exact brings_readQuery name fun v => .bool v.isNone
  | inspect name => exact .look fun _ => .look fun _ => .ret trivial
  | debug name => exact .look fun _ => .look fun _ => .ret trivial
  | stats => exact .look fun _ => .ret trivial
  | html node => exact brings_showNode node fun d n => .str (d.inner n)
  | outer node => exact brings_showNode node fun d n => .arr [.str n.display, .str (d.outer n)]
  | outline node => exact brings_showNode node outlineValue
  | listeners node => exact brings_showNode node fun d n => .ofNat (d.listenerCount n)
  | _ => cases ho

/-! ## Programs that look -/

/-- A program that looks ends with what it comes to. -/
theorem brings_exec (hκ : κ.Glances) {p : Program} (hp : p.Quiet) :
    Brings State.Idles k (exec κ p) s fun o _ => p.Says o := by
  induction hp generalizing s with
  | stop v => exact .ret ⟨v, [], rfl, fun _ => rfl⟩
  | @op o next looks _ ih =>
    refine (brings_looks hκ looks).bind fun a s' _ _ _ => (ih a).imp ?_
    rintro _ _ _ ⟨v, answers, rfl, hrecites⟩
    refine ⟨v, a :: answers, rfl, fun more => ?_⟩
    rw [List.cons_append, Program.recite, if_pos looks]
    exact hrecites more
  | @within e body next enclosure inside _ _ ih =>
    have henclose : Brings State.Idles k (enclose κ e body) s fun r _ =>
        r.2 = none ∧ body.Says r.1 := by
      cases e with
      | plain => exact (hκ.exec inside).bind fun _ _ _ _ ho => .ret ⟨rfl, ho⟩
      | batch =>
        have hbody : Brings State.Idles k (batch κ (κ.exec body)) s fun o _ => body.Says o :=
          brings_batch (q := fun o _ => body.Says o) hκ (hκ.exec inside) State.Idles.batch
        exact hbody.bind fun _ _ _ _ ho => .ret ⟨rfl, ho⟩
      | untrack =>
        have hbody : Brings State.Idles k (untracked (κ.exec body)) s fun o _ => body.Says o :=
          brings_untracked (q := fun o _ => body.Says o) (hκ.exec inside)
        exact hbody.bind fun _ _ _ _ ho => .ret ⟨rfl, ho⟩
      | _ => cases enclosure
    refine henclose.bind ?_
    rintro ⟨_, _⟩ s' _ _ ⟨rfl, v, answers, rfl, hinside⟩
    refine (ih v).imp ?_
    rintro _ _ _ ⟨w, answers', rfl, hrest⟩
    refine ⟨w, answers ++ answers', rfl, fun more => ?_⟩
    rw [List.append_assoc, Program.recite, if_pos enclosure, hinside]
    exact hrest more

/-- Running a program that only looks: its value is one that it recites. -/
theorem brings_eval (hκ : κ.Glances) {p : Program} (hp : p.Quiet) :
    Brings State.Idles k (κ.eval p) s fun v _ => ∃ answers, p.Recites answers v := by
  refine (hκ.exec hp).bind ?_
  rintro _ _ _ _ ⟨v, answers, rfl, hrecites⟩
  exact .ret ⟨answers, hrecites⟩

/-- A fetch is started by a look at the value that it will have. -/
theorem brings_startFetch (hκ : κ.Glances) {p : Program} (hp : p.Quiet) (key : String)
    (shape : Query.Shape) (plan : Query.Plan) :
    Brings State.Idles k (startFetch κ key shape plan p) s Whatever := by
  refine .change (fun _ => ?_) fun _ => ?_
  · exact State.idles_aside ⟨rfl, rfl, rfl, rfl, rfl, rfl, rfl, rfl⟩ rfl rfl rfl
  · exact (brings_eval hκ hp).bind fun _ _ _ _ _ => .ret trivial

/-- A query that was just created gets its value. -/
theorem brings_resolveQuery (hκ : κ.Glances) {id : NodeId}
    (hkind : s.kinds[id.index]? = some .source) (hnew : s.graph.find? id = some (.new .source))
    (v : Json) : Brings State.Idles k (resolveQuery κ id v) s Whatever := by
  refine Brings.bind (P := fun _ s' => s' = s)
    (.look fun _ => .ite (fun _ => .raise _) fun _ => .ret rfl) ?_
  rintro _ _ - - rfl
  refine .look fun _ => ?_
  split
  · refine .ite (fun _ => .ret trivial) fun _ => ?_
    show Brings State.Idles k (do
      modify fun s => (s.setCell id (.query (some v))).markChanged id
      settle κ) _ _
    refine .change (fun _ => State.idles_resolve hkind hnew v) fun _ => ?_
    exact (brings_settle hκ).imp fun _ _ _ _ => trivial
  · exact .ret trivial

/-- A fetch is started while its data is left alone. -/
theorem brings_locking {supply : Supply} {x : Run Query.Fetch}
    (h : ∀ u, Brings State.Idles k x u Whatever) :
    Brings State.Idles k (locking supply x) s Whatever := by
  have haside (s : State) (starting : List Supply) : s.Idles { s with starting } :=
    State.idles_aside ⟨rfl, rfl, rfl, rfl, rfl, rfl, rfl, rfl⟩ rfl rfl rfl
  refine .change (fun _ => haside s _) fun _ => ?_
  exact (h _).guarding (fun s' => haside s' _) fun _ _ _ _ => trivial

/-- A query that was just created waits for its fetch. -/
theorem brings_deferFetch {client : ClientId} {key : String} {consumer : Consumer}
    (hkind : s.kinds[consumer.node.index]? = some .source) {start : Run Query.Fetch}
    (h : ∀ u, Brings State.Idles k start u Whatever) :
    Brings State.Idles k (deferFetch client key consumer start) s Whatever := by
  refine Brings.bind (P := fun _ s' => s' = s)
    (.look fun _ => .ite (fun _ => .raise _) fun _ => .ret rfl) ?_
  rintro _ u - - rfl
  refine .look fun _ => ?_
  simp only
  split
  · rename_i pending hjoin
    refine (Brings.step fun _ => State.idles_modifyClient fun c hc n hn => ?_).imp
      fun _ _ _ _ => trivial
    simp only [hc, Option.map_some, Option.getD_some] at hjoin
    refine (mem_joinPending hjoin hn).imp_right ?_
    rintro rfl
    exact hkind
  · refine (brings_locking h).bind fun fetch s' hidles _ _ => ?_
    refine (Brings.step fun _ => State.idles_modifyClient fun c hc n hn => ?_).imp
      fun _ _ _ _ => trivial
    rw [Client.waiting, List.flatMap_append, List.mem_append] at hn
    refine hn.imp_right fun hn => ?_
    obtain rfl : n = consumer.node := by simpa using hn
    exact hidles.path.before.kinds _ _ hkind

/-- A query takes what the server has sent, or waits for its fetch. -/
theorem brings_createQuery (hκ : κ.Glances) {p : Program} (hp : p.Quiet) (hs : s.OnClient)
    (name : Option String) (key : String) (shape : Query.Shape) (plan : Query.Plan) :
    Brings State.Idles k (createQuery κ name key shape plan p) s Whatever := by
  let id : NodeId := ⟨s.kinds.size⟩
  let u := (s.withNode .source (.query none)).hold (.node id)
  have hkind : u.kinds[id.index]? = some .source := by
    show (s.kinds.push Graph.Kind.source)[s.kinds.size]? = _
    rw [Array.getElem?_push, if_pos rfl]
  have hnew : u.graph.find? id = some (.new .source) := by
    simp [u, id, State.withNode, State.hold, Graph.find?, Graph.insert]
  have hstart (s' : State) : Brings State.Idles k (startFetch κ key shape plan p) s' Whatever :=
    brings_startFetch hκ hp key shape plan
  have hname (s' : State) (hidles : u.Idles s') : Brings State.Idles k
      (modify (·.bindName name (.query id key)) : Run Unit) s' Whatever := by
    have hsuits : (Handle.query id key).Suits s'.kinds := hidles.path.before.kinds _ _ hkind
    exact (Brings.step fun _ => State.idles_bindName hsuits name).imp fun _ _ _ _ => trivial
  rw [createQuery_eq]
  refine Brings.bind (P := fun i s' => i = id ∧ s' = s.withNode .source (.query none))
    (.stepGet (fun _ => State.idles_withSource s rfl) fun _ => ⟨rfl, rfl⟩) ?_
  rintro _ _ - - ⟨rfl, rfl⟩
  refine brings_holding (q := fun _ _ => True) (.look fun _ => ?_)
  cases hsupply : u.supply? with
  | none => exact hname u (.refl u)
  | some supply =>
    cases supply with
    | server pass => exact absurd hsupply (hs pass)
    | client client =>
      refine Brings.bind (P := Whatever) (.look fun _ => ?_) fun _ s' hidles _ _ => hname s' hidles
      simp only
      split
      · exact brings_resolveQuery hκ hkind hnew _
      · exact brings_deferFetch hkind hstart
      · exact brings_deferFetch hkind hstart

/-- Finding out whether something that was read has changed. -/
theorem brings_dependenciesChanged (hκ : κ.Glances) (l : List Graph.Observed) :
    Brings State.Idles k (dependenciesChanged κ l) s Whatever := by
  induction l generalizing s with
  | nil => exact .ret trivial
  | cons seen rest ih =>
    have hcompare {s : State} : Brings State.Idles k (do
        if (← get).graph.epoch? seen.node = some seen.epoch then dependenciesChanged κ rest
        else return true) s Whatever := by
      refine .look fun _ => ?_
      split
      · exact ih
      · exact .ret trivial
    refine .look fun hs => ?_
    cases hderived : s.graph.isDerived seen.node with
    | false => exact hcompare
    | true =>
      obtain ⟨n, hn, hkind⟩ : ∃ n, s.graph.find? seen.node = some n ∧ n.kind = .derived := by
        rw [Graph.isDerived] at hderived
        split at hderived
        · exact ⟨_, ‹_›, of_decide_eq_true hderived⟩
        · cases hderived
      have hid := hs.reached.typed.nodes _ n hn
      exact (hκ.refresh (hkind ▸ hid)).bind fun _ _ _ _ _ => hcompare

/-- Running a computed value again. -/
theorem brings_rerun (hκ : κ.Glances) {id : NodeId} (hid : s.kinds[id.index]? = some .derived) :
    Brings State.Idles k (rerun κ id) s Whatever := by
  refine .look fun hs => ?_
  have hcell : Brings State.Idles k (runCell κ id s.cells[id]?) (s.hold (.node id)) Whatever := by
    refine .change (fun _ => State.idles_trust _ id) fun _ => ?_
    cases hc : s.cells[id]? with
    | none => exact .ret trivial
    | some c =>
      have hkind := hs.reached.typed.cells id c hc
      rw [hid, Option.some.injEq] at hkind
      cases c with
      | computed p v =>
        have hread : MayRead s.kinds id := ⟨_, hid, by simp⟩
        have hquiet := hs.hushed.computed hc
        refine Brings.bind (P := Whatever) ?_ fun new s' _ _ _ =>
          (Brings.step fun _ => State.idles_keepValue s' id new).imp fun _ _ _ _ => trivial
        exact brings_tracked (q := fun _ _ => True) hread
          ((brings_eval hκ hquiet).imp fun _ _ _ _ => trivial)
      | _ => cases hkind
  have hrun : Brings State.Idles k
      (if s.graph.contains id then holding id (runCell κ id s.cells[id]?) else pure ()) s
      Whatever := by
    split
    · exact brings_holding (q := fun _ _ => True) hcell
    · exact .ret trivial
  refine .ite (fun _ => ?_) fun _ => hrun
  exact Brings.bind (P := fun _ _ => False) (.raise _) fun _ _ _ _ h => h.elim

/-- Bringing a computed value up to date. -/
theorem brings_refresh (hκ : κ.Glances) {id : NodeId} (hid : s.kinds[id.index]? = some .derived) :
    Brings State.Idles k (refresh κ id) s Whatever := by
  refine .look fun _ => ?_
  cases s.graph.find? id with
  | none => exact .ret trivial
  | some n =>
    simp only
    cases n.mark with
    | clean => exact .ret trivial
    | dirty => exact brings_rerun hκ hid
    | maybeDirty =>
      refine (brings_dependenciesChanged hκ _).bind fun changed s' hb _ _ => ?_
      split
      · exact brings_rerun hκ (hb.path.before.kinds _ _ hid)
      · exact (Brings.step fun _ => State.idles_trust s' id).imp fun _ _ _ _ => trivial

/-- Reading a computed value. -/
theorem brings_readComputed (hκ : κ.Glances) {id : NodeId}
    (hid : s.kinds[id.index]? = some .derived) :
    Brings State.Idles k (readComputed κ id) s Whatever := by
  refine brings_holding (q := fun _ _ => True) ?_
  refine .change (fun _ => State.idles_record (s := s.hold _) ⟨_, hid, by simp⟩) fun _ => ?_
  refine Brings.bind (P := Whatever) (.look fun hs => ?_) fun _ _ _ _ _ => .look fun _ => ?_
  · split
    · exact hκ.refresh hid
    · split
      · rename_i p hcell
        have hquiet := hs.hushed.computed hcell
        have hvalue : Brings State.Idles k (untracked (κ.eval p))
            ((s.hold (.node id)).modifyTracking (·.record id)) Whatever :=
          brings_untracked (q := fun _ _ => True)
            ((brings_eval hκ hquiet).imp fun _ _ _ _ => trivial)
        refine hvalue.bind fun v s' hb _ _ => ?_
        have hid' := hb.path.before.kinds _ _ hid
        exact (Brings.step fun _ => State.idles_compute hquiet hid' v).imp fun _ _ _ _ => trivial
      · exact .ret trivial
  · split
    · exact .ret trivial
    · exact .raise _

/-- At every depth calls that look are answered by looking. -/
theorem glances_kernel (n : Nat) : (kernel n).Glances := by
  induction n with
  | zero =>
    have hnone {c : Call} {s s' : State} {o : Outcome} : kernel 0 c s ≠ .ok o s' := by
      intro h
      cases h
    have hcall {β : Type} {c : Call} {f : Outcome → Run β} {s : State} {k : Nat}
        {P : β → State → Prop} : Brings State.Idles k (kernel 0 c >>= f) s P := by
      intro _ _ _ h
      obtain ⟨o, u, hcall, -⟩ := bind_ok_cases h
      exact (hnone hcall).elim
    refine ⟨fun _ => fun _ _ _ h => (hnone h).elim, fun _ => hcall, fun _ => hcall, fun _ h => ?_⟩
    obtain ⟨o, u, hcall, -⟩ := bind_ok_cases h
    exact (hnone hcall).elim
  | succ n ih =>
    refine ⟨fun hp => brings_exec ih hp, fun hid => ?_, fun hid => ?_, fun {s s'} hs h => ?_⟩
    · exact Brings.bind (P := Whatever) ((brings_refresh ih hid).bind
        fun _ _ _ _ _ => .ret trivial) fun _ _ _ _ _ => .ret trivial
    · exact Brings.bind (P := Whatever) ((brings_readComputed ih hid).bind
        fun _ _ _ _ _ => .ret trivial) fun _ _ _ _ _ => .ret trivial
    · obtain ⟨o, u, hcall, hret⟩ := bind_ok_cases h
      obtain ⟨⟨⟩, v, hdrain, hvalue⟩ := bind_ok_cases (x := drain (kernel n)) hcall
      cases hret
      cases hvalue
      obtain ⟨next, w, htake, hdo⟩ := bind_ok_cases (x := (modifyGet takeDeferred : Run _)) hdrain
      have htaken : takeDeferred s = (none, s) := by rw [takeDeferred, hs]
      have hpair : EStateM.Result.ok (takeDeferred s).1 (takeDeferred s).2 = .ok next w := htake
      rw [htaken] at hpair
      cases hpair
      cases hdo
      rfl

end

end Engine

end Rivulet
