import Rivulet.Proofs.Batching.Freshening
import Rivulet.Proofs.Batching.Yielding

/-!
# Programs that observe run to their end

Reading computed values below a rank ends as long as those of lower ranks can be read. So a program
that observes runs to its end, and what it gives and logs is what it does for the values that it
has read.
-/

namespace Rivulet.Engine

open State

variable {D : Setting} {name : NodeId → String} {b : Nat} {s s' s'' : State}

/-- A node that a name stands for has one. -/
theorem isNamed_of_handle? {x : String} {h : Handle} {id : NodeId} (hx : s.handle? x = some h)
    (hid : h.node? = some id) : s.IsNamed id := by
  rw [handle?, List.lookup_eq_some_iff] at hx
  obtain ⟨l₁, l₂, hl, -⟩ := hx
  refine List.any_eq_true.2 ⟨(x, h), ?_, by simp [hid]⟩
  rw [hl]
  simp

/-- A node that has a name is kept. -/
theorem keepsNode_of_isNamed {id : NodeId} (h : s.IsNamed id) : s.keepsNode id = true := by
  rw [IsNamed] at h
  rw [keepsNode, h]
  rfl

/-- Nothing is swept if something refers to all query data. -/
theorem sweep_of_swept (h : s.Swept) : s.sweep = s := by
  rw [sweep]
  split
  · rfl
  · have hfold (l : List ClientId) : l.foldl dropClient s = s := by
      induction l with
      | nil => rfl
      | cons id l ih =>
        have hdrop : s.dropClient id = s := by
          rw [dropClient]
          split
          · rfl
          · rename_i c hc
            rw [if_pos (h id c hc)]
        rw [List.foldl_cons, hdrop, ih]
    exact hfold _

private theorem State.Swept.unheld {id : NodeId} (h : s.Swept) :
    { s with held := s.held.erase (.node id) }.Swept :=
  h.framed (.of_frame rfl fun _ hc => mem_held_erase hc) fun _ e he => ⟨e, he, rfl⟩

/-- Ending the use of a node that is kept. -/
theorem unhold_of_kept {id : NodeId} (hswept : s.Swept)
    (h : { s with held := s.held.erase (.node id) }.keepsNode id = true) :
    s.unhold (.node id) = { s with held := s.held.erase (.node id) } := by
  have hdrop : { s with held := s.held.erase (.node id) }.dropNode id =
      { s with held := s.held.erase (.node id) } := by rw [dropNode, if_pos h]
  show { s with held := s.held.erase (.node id) }.releaseNode id = _
  rw [releaseNode, hdrop]
  split
  · rfl
  · exact sweep_of_swept hswept.unheld

/-- A use of a node that has a name. -/
theorem Gives.holdingNamed {α : Type} {x : Kernel → Run α} {id : NodeId} {Q : α → State → Prop}
    (h : Gives x (s.hold (.node id)) fun a s' => s'.Swept ∧ s'.IsNamed id ∧
      Q a { s' with held := s'.held.erase (.node id) }) :
    Gives (fun κ => Engine.holding id (x κ)) s Q :=
  .holding (h.imp fun a s' ⟨hswept, hnamed, hq⟩ => by
    rw [unhold_of_kept hswept (keepsNode_of_isNamed hnamed)]
    exact hq)

/-- Something is taken in use. -/
theorem State.Orderly.hold (hs : s.Orderly D) (u : Hold) : (s.hold u).Orderly D :=
  hs.same rfl rfl rfl (fun _ hc => List.mem_cons_of_mem u hc) fun _ => rfl

/-- A batch is started. -/
theorem State.Orderly.enterBatch (hs : s.Orderly D) : (s.modifyQueue Queue.enterBatch).Orderly D :=
  hs.same rfl rfl rfl (fun _ hc => hc) fun _ => rfl

/-- A node that can be relied on: it is there, up to date, and no effect. -/
structure State.Firm (s : State) (id : NodeId) : Prop where
  /-- It is up to date. -/
  sure : s.Sure id
  /-- It is no effect. -/
  silent : ∀ n, s.graph.find? id = some n → n.kind ≠ .effect

/-- All that the innermost section has read can be relied on. -/
def State.Relies (s : State) : Prop := ∀ r ∈ s.tracking.reads, s.Firm r

/-- A firm node stays firm. -/
theorem State.Freshens.firm (h : s.Freshens D b s') {id : NodeId} (hid : s.Firm id) :
    s'.Firm id where
  sure := (h.sure id hid.sure).1
  silent n' hn' := by
    obtain ⟨n, hn, hr⟩ := h.nodes.exists_old hn'
    rw [hr.kind]
    exact hid.silent n hn

/-- What was up to date keeps the same value. -/
theorem State.Freshens.stored (h : s.Freshens D b s') {id : NodeId} (hid : s.Sure id) :
    s'.stored id = s.stored id := by
  rw [State.stored, State.stored, (h.sure id hid).2.2]

/-- What a read answers, as it depends on the values that were read. -/
structure State.Answered (D : Setting) (name : NodeId → String) (b : Nat)
    (reply : (NodeId → Json) → Option Json) (a : Option Json) (s s' : State) : Prop where
  /-- Reading changes no more than that. -/
  freshens : s.Freshens D b s'
  /-- Nothing is logged. -/
  log : s'.log = s.log
  /-- The answer is a value that there may be. -/
  value : ∀ v ∈ a, D.value v
  /-- Marks and epochs still tell what they should. -/
  faithful : s.Faithful D name → s'.Faithful D name
  /-- The answer depends on what was read. -/
  replay : s.Faithful D name → s.tracking.isActive = true → s.Relies → s'.Relies ∧
    ∀ val, (∀ r ∈ s'.tracking.reads, val r = s'.stored r) → reply val = a

/-- What the read of a computed value does. -/
structure State.Obtained (D : Setting) (name : NodeId → String) (id : NodeId) (v : Json)
    (s s' : State) : Prop where
  /-- Reading changes no more than that. -/
  freshens : s.Freshens D (D.rank id + 1) s'
  /-- Nothing is logged. -/
  log : s'.log = s.log
  /-- The read is recorded. -/
  tracking : s'.tracking = s.tracking.record id
  /-- What the computed value keeps is what comes out. -/
  stored : s'.stored id = v
  /-- It is a value that there may be. -/
  value : D.value v
  /-- Marks and epochs still tell what they should, and the computed value is up to date. -/
  faithful : s.Faithful D name → s'.Faithful D name ∧ (s.graph.contains id = true → s'.Sure id)

/-- A computed value can be read. -/
def Readable (D : Setting) (name : NodeId → String) (id : NodeId) : Prop :=
  ∀ s : State, s.Orderly D → s.Quiet → s.Unrun D.rank (D.rank id + 1) → s.IsNamed id →
    (∃ p v, s.cells[id]? = some (.computed p v)) →
      Gives (fun κ => readComputed κ id) s fun v s' => s.Obtained D name id v s'

/-- What does not run below a rank does not run below a lower one. -/
theorem State.Unrun.mono {rank : NodeId → Nat} {c : Nat} (h : s.Unrun rank b) (hc : c ≤ b) :
    s.Unrun rank c :=
  fun id p v hv hrun => Nat.le_trans hc (h id p v hv hrun)

/-- The value of a signal is recorded and given. -/
theorem answered_signal (hs : s.Orderly D) {x : String} {id : NodeId} {v : Json}
    (hlookup : s.lookup x = some id) (hv : s.cells[id]? = some (.signal v))
    (hlive : s.Faithful D name → s.graph.contains id = true) :
    s.Answered D name b (fun val => (s.lookup x).map val)
      (some ((s.modifyTracking (·.record id)).signalValue id))
      (s.modifyTracking (·.record id)) := by
  have hcell : (s.modifyTracking (·.record id)).cells[id]? = some (.signal v) := hv
  have hvalue : (s.modifyTracking (·.record id)).signalValue id = v := by
    rw [signalValue, hcell]
  have hstored : (s.modifyTracking (·.record id)).stored id = v := by rw [stored, hcell]
  have hfreshens : s.Freshens D b (s.modifyTracking (·.record id)) :=
    .sections hs (.record (R := s.Low D.rank b) (fun p w hw => by simp [hv] at hw) s.tracking)
  refine ⟨hfreshens, rfl, ?_, fun hf => hf.same rfl rfl rfl rfl hfreshens.running, ?_⟩
  · intro w hw
    rw [Option.mem_some_iff, hvalue] at hw
    exact hw ▸ hs.signal id v hv
  · intro hf hactive hrelies
    have hfirm : s.Firm id := by
      have hcontains := hlive hf
      rw [Graph.contains_eq, Option.isSome_iff_exists] at hcontains
      obtain ⟨n, hn⟩ := hcontains
      refine ⟨⟨n, hn, fun hk => ?_⟩, fun m hm hk => ?_⟩
      · obtain ⟨p, w, hw⟩ := (hs.derived id n hn).1 hk
        simp [hv] at hw
      · obtain ⟨e, he⟩ := (hs.reacting id m hm).1 hk
        simp [hv] at he
    refine ⟨fun r hr => ?_, fun val hval => ?_⟩
    · rcases (Tracking.Extends.record (R := fun r => r = id) rfl s.tracking).reads.2 r
        hr with hr | rfl
      · exact hfreshens.firm (hrelies r hr)
      · exact hfreshens.firm hfirm
    · rw [hlookup, Option.map_some, hvalue, hval id (Tracking.mem_reads_record hactive id), hstored]

/-- Reading a name. -/
theorem gives_read (hread : ∀ id, D.rank id < b → Readable D name id) (hs : s.Orderly D)
    (hq : s.Quiet) (hb : s.Unrun D.rank b) {x : String} (hx : s.Below D.rank b x) :
    Gives (fun κ => read κ x) s fun a s' =>
      s.Answered D name b (fun val => (s.lookup x).map val) a s' := by
  have hnone (hlookup : s.lookup x = none) :
      s.Answered D name b (fun val => (s.lookup x).map val) none s :=
    ⟨.refl b hs, rfl, fun v hv => absurd hv (by simp), id, fun _ _ hrelies =>
      ⟨hrelies, fun val _ => by rw [hlookup, Option.map_none]⟩⟩
  refine .look ?_
  cases hhandle : s.handle? x with
  | none => exact .ret (hnone (by rw [State.lookup, hhandle]; rfl))
  | some hd =>
    have hstands := hs.stands x hd hhandle
    have hlookup : s.lookup x = hd.value? := by rw [State.lookup, hhandle]; rfl
    cases hd with
    | signal id =>
      obtain ⟨v, hv⟩ := hstands
      exact .change (.look (.ret (answered_signal hs hlookup hv fun hf => hf.present x _ hhandle)))
    | pair id =>
      obtain ⟨v, hv⟩ := hstands
      exact .change (.look (.ret (answered_signal hs hlookup hv fun hf => hf.present x _ hhandle)))
    | computed id =>
      obtain ⟨p, v, hv⟩ := hstands
      have hlt : D.rank id < b := hx id hhandle
      have hgives := hread id hlt s hs hq (hb.mono hlt) (isNamed_of_handle? hhandle rfl) ⟨p, v, hv⟩
      refine .map (.callRead hgives) fun w s' hobtained => ?_
      refine ⟨hobtained.freshens.mono hlt, hobtained.log, ?_,
        fun hf => (hobtained.faithful hf).1, ?_⟩
      · intro u hu
        rw [Option.mem_some_iff] at hu
        exact hu ▸ hobtained.value
      · intro hf hactive hrelies
        have hsure := (hobtained.faithful hf).2 (hf.present x _ hhandle)
        have hfirm : s'.Firm id := by
          refine ⟨hsure, fun n hn hk => ?_⟩
          obtain ⟨e, he⟩ := (hobtained.freshens.orderly.reacting id n hn).1 hk
          rcases hobtained.freshens.cells id with heq | ⟨-, q, w', w'', -, hcell⟩
          · simp [heq, hv] at he
          · simp [hcell] at he
        rw [hobtained.tracking]
        refine ⟨fun r hr => ?_, fun val hval => ?_⟩
        · rw [hobtained.tracking] at hr
          rcases (Tracking.Extends.record (R := fun r => r = id) rfl s.tracking).reads.2 r
            hr with hr | rfl
          · exact hobtained.freshens.firm (hrelies r hr)
          · exact hfirm
        · rw [hlookup]
          have := hval id (Tracking.mem_reads_record hactive id)
          rw [hobtained.stored] at this
          exact congrArg some this
    | query id key =>
      obtain ⟨v, hv⟩ := hstands
      have hfreshens : s.Freshens D b (s.modifyTracking (·.record id)) :=
        .sections hs (.record (R := s.Low D.rank b) (fun p w hw => by simp [hv] at hw) s.tracking)
      refine .change (.look (.ret ⟨hfreshens, rfl, ?_, ?_, ?_⟩))
      · have hcell : (s.modifyTracking (·.record id)).cells[id]? = some (.query v) := hv
        have hvalue : (s.modifyTracking (·.record id)).queryValue id = v := by
          rw [queryValue, hcell]
        intro w hw
        rw [Option.mem_some_iff, hvalue] at hw
        subst hw
        cases v with
        | none => exact D.admits.null
        | some v => exact hs.query id v hv
      · exact fun hf => hf.same rfl rfl rfl rfl hfreshens.running
      · exact fun hf => (hf.present x _ hhandle).elim
    | _ => exact .ret (hnone hlookup)

/-- Reading the size of a value. -/
theorem gives_readSize (hread : ∀ id, D.rank id < b → Readable D name id) (hs : s.Orderly D)
    (hq : s.Quiet) (hb : s.Unrun D.rank b) {x : String} (hx : s.Below D.rank b x) :
    Gives (fun κ => readSize κ x) s fun a s' => s.Answered D name b
      (fun val => (s.lookup x).map fun id => .ofNat (Text.byteLength (val id).print)) a s' := by
  refine .look ?_
  split
  · rename_i id key hhandle
    exact .ret ⟨.refl b hs, rfl, fun v hv => absurd hv (by simp), fun hf => hf, fun hf =>
      (hf.present x _ hhandle).elim⟩
  · refine .map (gives_read hread hs hq hb hx) fun a s' h => ?_
    refine ⟨h.freshens, h.log, ?_, h.faithful, fun hf hactive hrelies => ?_⟩
    · intro v hv
      obtain ⟨w, -, rfl⟩ := Option.map_eq_some_iff.1 hv
      exact D.admits.nat _
    · obtain ⟨hrelies', hreply⟩ := h.replay hf hactive hrelies
      refine ⟨hrelies', fun val hval => ?_⟩
      rw [← hreply val hval, Option.map_map]
      rfl

/-- Reading without a trace. -/
theorem gives_peek (hread : ∀ id, D.rank id < b → Readable D name id) (hs : s.Orderly D)
    (hq : s.Quiet) (hb : s.Unrun D.rank b) {x : String} (hx : s.Below D.rank b x)
    (hfree : ¬D.tracked) (reply : (NodeId → Json) → Option Json) :
    Gives (fun κ => untracked (read κ x)) s fun a s' => s.Answered D name b reply a s' := by
  have hrunning (id : NodeId) :
      (s.tracking.enter .untracked).isRunning id = s.tracking.isRunning id := by
    simp [Tracking.Observer.node?]
  have hs' : (s.modifyTracking (·.enter .untracked)).Orderly D :=
    hs.same rfl rfl rfl (fun _ hc => hc) hrunning
  have hb' : (s.modifyTracking (·.enter .untracked)).Unrun D.rank b := by
    intro id p v hv hrun
    rw [modifyTracking, hrunning] at hrun
    exact hb id p v hv hrun
  refine .untracked ((gives_read hread hs' hq hb' hx).imp fun a s' h => ?_)
  have hfreshens := h.freshens.untracked
  refine ⟨hfreshens, h.log, h.value, fun hf => ?_, fun hf => absurd hf.tracked hfree⟩
  have hf' := h.faithful (hf.same rfl rfl rfl rfl hrunning)
  refine hf'.same rfl rfl rfl rfl fun id => ?_
  rw [hfreshens.running, h.freshens.running, modifyTracking, hrunning]

/-- Reading what is known of a query. -/
theorem gives_readQuery (hs : s.Orderly D) (view : Option Json → Json)
    (hview : ∀ v, (∀ w ∈ v, D.value w) → D.value (view v)) (hfree : ¬D.tracked) (x : String)
    (reply : (NodeId → Json) → Option Json) :
    Gives (fun _ => readQuery x view) s fun a s' => s.Answered D name b reply a s' := by
  refine .look ?_
  split
  · rename_i id hid
    obtain ⟨hd, hhandle, hquery⟩ := Option.bind_eq_some_iff.1 hid
    obtain ⟨key, rfl⟩ : ∃ key, hd = .query id key := by
      cases hd <;> simp_all [Handle.query?]
    obtain ⟨v, hv⟩ := hs.stands x _ hhandle
    have hfreshens : s.Freshens D b (s.modifyTracking (·.record id)) :=
      .sections hs (.record (R := s.Low D.rank b) (fun p w hw => by simp [hv] at hw) s.tracking)
    refine .change (.look (.ret ⟨hfreshens, rfl, ?_, ?_, fun hf => absurd hf.tracked hfree⟩))
    · have hcell : (s.modifyTracking (·.record id)).cells[id]? = some (.query v) := hv
      have hvalue : (s.modifyTracking (·.record id)).queryValue id = v := by rw [queryValue, hcell]
      intro w hw
      rw [Option.mem_some_iff, hvalue] at hw
      refine hw ▸ hview v fun u hu => hs.query id u ?_
      rw [Option.mem_def] at hu
      rw [hv, hu]
    · exact fun hf => hf.same rfl rfl rfl rfl hfreshens.running
  · exact .ret ⟨.refl b hs, rfl, fun v hv => absurd hv (by simp), fun hf => hf,
      fun hf => absurd hf.tracked hfree⟩

end Rivulet.Engine
