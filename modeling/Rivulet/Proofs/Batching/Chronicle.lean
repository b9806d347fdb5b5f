import Rivulet.Proofs.Batching.Reacting

/-!
# Programs that write

A program that writes signals, given which signal each name stands for and what the signals hold:
how it ends, and which writes let others know. It does just that, inside a batch or not, as long as
giving a signal a value keeps all that the rest of the program needs.
-/

namespace Rivulet

namespace Engine

/-- A handle behind which nothing has to be computed or fetched for a read. -/
def Handle.Direct : Handle → Prop
  | computed _ | query _ _ => False
  | _ => True

/-- A name does not stand for a computed value or a query. -/
def State.IsDirect (s : State) (x : String) : Prop := ∀ h, s.handle? x = some h → h.Direct

/-- The node of a signal that was not split in two. -/
def Handle.whole? : Handle → Option NodeId
  | signal id => some id
  | _ => none

/-- What a value looks like from outside when some nodes have been given others, one after the
other. -/
def overlay (val : NodeId → Json) (writes : List (NodeId × Json)) : NodeId → Json :=
  writes.foldl (fun val w j => if j = w.1 then w.2 else val j) val

end Engine

open Engine

/-- A call that writes a signal, or reads what need not be computed, or logs what may be logged. -/
inductive Op.Writes (V logs : Json → Prop) (sees : String → Prop) : Op → Prop where
  /-- A write. -/
  | set (x : String) {v : Json} (allowed : V v) : Writes V logs sees (.set x v)
  /-- A write that may be refused. -/
  | trySet (x : String) {v : Json} (allowed : V v) : Writes V logs sees (.trySet x v)
  /-- A change. -/
  | update (x : String) {v : Json} (allowed : V v) : Writes V logs sees (.update x v)
  /-- A change that may be refused. -/
  | tryUpdate (x : String) {v : Json} (allowed : V v) : Writes V logs sees (.tryUpdate x v)
  /-- A tracked read. -/
  | get {x : String} (h : sees x) : Writes V logs sees (.get x)
  /-- An untracked read. -/
  | peek {x : String} (h : sees x) : Writes V logs sees (.peek x)
  /-- Logging. -/
  | log {v : Json} (allowed : logs v) : Writes V logs sees (.log v)

/-- An enclosure that a program that writes may use. -/
inductive Enclosure.Writes : Enclosure → Prop where
  /-- Nothing but the part. -/
  | plain : Writes .plain
  /-- A batch. -/
  | batch : Writes .batch
  /-- An untracked section. -/
  | untrack : Writes .untrack

/-- A program that writes signals, one after the other, in batches nested to any depth. What it
writes may depend on what the signals hold. -/
abbrev Program.Writes (V logs : Json → Prop) (sees : String → Prop) (p : Program) : Prop :=
  p.Over (Op.Writes V logs sees) Enclosure.Writes (fun _ => True) fun _ => True

section

variable (look : String → Option Handle)

/-- The signal that a call writes, the value, and whether everyone is let know even if the signal
holds that value already. -/
def Op.target? : Op → Option (NodeId × Json × Bool)
  | .set x v | .trySet x v => ((look x).bind Handle.signal?).map (·, v, false)
  | .update x v => ((look x).bind Handle.signal?).map (·, v, true)
  | .tryUpdate x v => ((look x).bind Handle.whole?).map (·, v, true)
  | _ => none

/-- Whether a write lets everyone know. -/
def Op.counts (val : NodeId → Json) (w : NodeId × Json × Bool) : Bool :=
    w.2.2 || !(val w.1 == w.2.1)

/-- The writes of a call that let everyone know. -/
def Op.writes (val : NodeId → Json) (o : Op) : List (NodeId × Json) :=
  ((o.target? look).filter (Op.counts val)).toList.map fun w => (w.1, w.2.1)

/-- What a call that writes or reads answers. -/
def Op.reply (val : NodeId → Json) : Op → Option Json
  | .get x | .peek x => ((look x).bind Handle.signal?).map val
  | .trySet x v => ((Op.trySet x v).target? look).map fun w => changedValue (Op.counts val w)
  | .tryUpdate x v => ((Op.tryUpdate x v).target? look).map fun w => changedValue (Op.counts val w)
  | _ => none

/-- How a program that writes ends, and which of its writes let everyone know. -/
def Program.enact : Program → (NodeId → Json) → Outcome × List (NodeId × Json)
  | .stop o, _ => (o, [])
  | .op o next, val =>
    let rest := (next (o.reply look val)).enact (overlay val (o.writes look val))
    (rest.1, o.writes look val ++ rest.2)
  | .within .plain body next, val | .within .batch body next,
      val | .within .untrack body next, val =>
    let first := body.enact val
    let rest := (next first.1 none).enact (overlay val first.2)
    (rest.1, first.2 ++ rest.2)
  | _, _ => (.value .null, [])

end

/-- A signal that is written has a name. -/
theorem Op.exists_name_of_target? {look : String → Option Handle} {o : Op}
    {w : NodeId × Json × Bool} (h : o.target? look = some w) :
    ∃ x, (look x).bind Handle.signal? = some w.1 := by
  have hwhole {x : String} {id : NodeId} (hx : (look x).bind Handle.whole? = some id) :
      (look x).bind Handle.signal? = some id := by
    obtain ⟨hd, hhandle, hid⟩ := Option.bind_eq_some_iff.1 hx
    rw [hhandle]
    cases hd <;> first | exact hid | cases hid
  cases o with
  | set x v | trySet x v | update x v =>
    obtain ⟨id, hid, rfl⟩ := Option.map_eq_some_iff.1 h
    exact ⟨x, hid⟩
  | tryUpdate x v =>
    obtain ⟨id, hid, rfl⟩ := Option.map_eq_some_iff.1 h
    exact ⟨x, hwhole hid⟩
  | _ => cases h

theorem Engine.overlay_congr {val val' : NodeId → Json} {id : NodeId} (h : val id = val' id)
    (l : List (NodeId × Json)) : overlay val l id = overlay val' l id := by
  induction l generalizing val val' with
  | nil => exact h
  | cons w l ih =>
    refine ih ?_
    show (if id = w.1 then w.2 else val id) = if id = w.1 then w.2 else val' id
    rw [h]

section

variable {look : String → Option Handle} {val val' : NodeId → Json}
  (h : ∀ x id, (look x).bind Handle.signal? = some id → val id = val' id)

include h

private theorem Op.writes_congr (o : Op) : o.writes look val = o.writes look val' := by
  rw [writes, writes]
  cases htarget : o.target? look with
  | none => rfl
  | some w =>
    obtain ⟨x, hx⟩ := exists_name_of_target? htarget
    rw [Option.filter_some, Option.filter_some, counts, counts, h x w.1 hx]

theorem Op.reply_congr (o : Op) : o.reply look val = o.reply look val' := by
  have hchanged (o : Op) : ((o.target? look).map fun w => changedValue (counts val w)) =
      (o.target? look).map fun w => changedValue (counts val' w) := by
    cases htarget : o.target? look with
    | none => rfl
    | some w =>
      obtain ⟨x, hx⟩ := exists_name_of_target? htarget
      rw [Option.map_some, Option.map_some, counts, counts, h x w.1 hx]
  have hread (x : String) : ((look x).bind Handle.signal?).map val =
      ((look x).bind Handle.signal?).map val' := by
    cases hx : (look x).bind Handle.signal? with
    | none => rfl
    | some id => rw [Option.map_some, Option.map_some, h x id hx]
  cases o with
  | get x | peek x => exact hread x
  | trySet x v => exact hchanged (.trySet x v)
  | tryUpdate x v => exact hchanged (.tryUpdate x v)
  | _ => rfl

/-- What a program that writes does depends on what the signals hold that have names. -/
theorem Program.enact_congr (p : Program) : p.enact look val = p.enact look val' := by
  have hover {val val' : NodeId → Json} (l : List (NodeId × Json))
      (h : ∀ x id, (look x).bind Handle.signal? = some id → val id = val' id) (x : String)
      (id : NodeId) (hx : (look x).bind Handle.signal? = some id) :
      overlay val l id = overlay val' l id := overlay_congr (h x id hx) l
  induction p generalizing val val' with
  | op o next ih =>
    rw [enact, enact, Op.writes_congr h o, Op.reply_congr h o, ih _ (hover (o.writes look val') h)]
  | within e body next ihbody ihnext =>
    cases e with
    | plain | batch | untrack =>
      rw [enact, enact, ihbody h, ihnext _ _ (hover (body.enact look val').2 h)]
    | _ => rw [enact, enact] <;> simp
  | _ => rw [enact, enact] <;> simp

end

namespace Engine

open State

variable {D : Setting} {name : NodeId → String} {s s' : State} {id : NodeId}

theorem overlay_append (val : NodeId → Json) (l l' : List (NodeId × Json)) :
    overlay val (l ++ l') = overlay (overlay val l) l' := by
  rw [overlay, List.foldl_append]
  rfl

/-- A name of a signal. -/
theorem State.Orderly.isNamed_signal {x : String} {id : NodeId}
    (hx : (s.handle? x).bind Handle.signal? = some id) (hs : s.Orderly D) :
    s.IsNamed id ∧ ∃ w, s.cells[id]? = some (.signal w) := by
  obtain ⟨h, hhandle, hid⟩ := Option.bind_eq_some_iff.1 hx
  have hstands := hs.stands x h hhandle
  cases h with
  | signal j =>
    obtain rfl : j = id := Option.some.inj hid
    exact ⟨isNamed_of_handle? hhandle rfl, hstands⟩
  | pair j =>
    obtain rfl : j = id := Option.some.inj hid
    exact ⟨isNamed_of_handle? hhandle rfl, hstands⟩
  | _ => cases hid

theorem State.Still.inDerived (h : s.Still) : s.tracking.inDerived = false := by
  rw [Tracking.inDerived]
  split
  · rename_i j reads hfind
    have hrun := h j
    rw [Tracking.isRunning, List.any_eq_false] at hrun
    exact absurd (by simp [Tracking.Observer.node?]) (hrun _ (List.mem_of_find?_eq_some hfind))
  · rfl

/-- Nothing is recorded when no computation runs. -/
theorem State.Still.record (h : s.Still) (id : NodeId) : s.modifyTracking (·.record id) = s := by
  have hrecord : s.tracking.record id = s.tracking := by
    rw [Tracking.record]
    cases hs : s.tracking.sections with
    | nil => rfl
    | cons sec rest =>
      have hnone : sec.observer.node? = none := by
        cases hnode : sec.observer.node? with
        | none => rfl
        | some j =>
          have hrun := h j
          rw [Tracking.isRunning, hs] at hrun
          simp [hnode] at hrun
      simp [hnone]
  rw [modifyTracking, hrecord]

/-- A call that needs a handle of some kind. -/
theorem gives_withHandle {α : Type} {x : String} {kind? : Handle → Option α}
    {body : Kernel → α → Run (Option Json)} {Q : Option Json → State → Prop}
    (hnone : (s.handle? x).bind kind? = none → Q none s)
    (hsome : ∀ a, (s.handle? x).bind kind? = some a → Gives (fun κ => body κ a) s Q) :
    Gives (fun κ => withHandle x kind? (body κ)) s Q := by
  refine .look ?_
  cases h : (s.handle? x).bind kind? with
  | none => exact .ret (hnone h)
  | some a => exact hsome a h

theorem State.Still.ensureWritable (h : s.Still) :
    Gives (fun _ => ensureWritable) s fun _ s' => s' = s := by
  refine .look ?_
  simp only [h.inDerived, Bool.false_eq_true, if_false]
  exact .ret rfl

theorem State.Still.enterUntracked (h : s.Still) :
    (s.modifyTracking (·.enter .untracked)).Still := by
  intro id
  rw [← h id]
  simp [modifyTracking, Tracking.Observer.node?]

/-- A read of what need not be computed gives what the signal holds. -/
theorem gives_readDirect (hs : s.Orderly D) (hstill : s.Still) {x : String}
    (hx : s.IsDirect x) :
    Gives (fun κ => read κ x) s fun a t =>
      a = ((s.handle? x).bind Handle.signal?).map s.stored ∧ t = s := by
  refine .look ?_
  cases hhandle : s.handle? x with
  | none => exact .ret ⟨rfl, rfl⟩
  | some hd =>
    have hdirect := hx hd hhandle
    have hstands := hs.stands x hd hhandle
    have hvalue (id : NodeId) (hid : ∃ v, s.cells[id]? = some (.signal v)) :
        Gives (fun _ => do recordRead id; return some ((← get).signalValue id)) s fun a t =>
          a = some (s.stored id) ∧ t = s := by
      obtain ⟨v, hv⟩ := hid
      refine .change (f := fun s => s.modifyTracking (·.record id))
        (.look (.ret ⟨?_, hstill.record id⟩))
      rw [hstill.record, signalValue, hv, State.stored, hv]
    cases hd with
    | signal id => exact hvalue id hstands
    | pair id => exact hvalue id hstands
    | computed id => exact hdirect.elim
    | query id key => exact hdirect.elim
    | _ => exact .ret ⟨rfl, rfl⟩

/-! ## Chronicles -/

/-- What is kept when signals are written, and what is told of it. If it is kept and told when a
signal is given a value and everyone is let know, and logging, uses of signals, batches and
untracked sections do no harm, then a program that writes keeps it, and tells of its writes. -/
structure Chronicle (D : Setting) (logs : Json → Prop) (keeps : State → Prop)
    (tells : List (NodeId × Json) → State → State → Prop) : Prop where
  /-- Everything is in order. -/
  orderly : ∀ {s}, keeps s → s.Orderly D
  /-- No computation runs. -/
  still : ∀ {s}, keeps s → s.Still
  /-- Nothing was written. -/
  refl : ∀ s, tells [] s s
  /-- One part behind another one. -/
  trans : ∀ {l l' s t u}, tells l s t → tells l' t u → tells (l ++ l') s u
  /-- Names stand for the same. -/
  names : ∀ {l s t}, tells l s t → t.names = s.names
  /-- Signals hold what was written last. -/
  stored : ∀ {l s t}, tells l s t → ∀ (id : NodeId) w, s.cells[id]? = some (.signal w) →
    t.stored id = overlay s.stored l id
  /-- Logging. -/
  logged : ∀ {s}, keeps s → ∀ v, logs v → keeps (s.addLog v) ∧ tells [] s (s.addLog v)
  /-- A signal is given a value and everyone is let know. -/
  replaced : ∀ {s}, keeps s → ∀ {x id v}, (s.handle? x).bind Handle.signal? = some id → D.value v →
    Gives (fun κ => replaceValue κ id (.signal v)) s fun _ t => keeps t ∧ tells [(id, v)] s t
  /-- The use of a signal starts. -/
  used : ∀ {s}, keeps s → ∀ u, keeps (s.hold u)
  /-- The use of a signal ends. -/
  unused : ∀ {l s t id}, keeps s → keeps t → tells l (s.hold (.node id)) t →
    keeps { t with held := t.held.erase (.node id) } ∧
      tells l s { t with held := t.held.erase (.node id) }
  /-- A batch starts. -/
  batched : ∀ {s}, keeps s → keeps (s.modifyQueue Queue.enterBatch)
  /-- A batch ends. -/
  settled : ∀ {l s t}, keeps s → keeps t → tells l (s.modifyQueue Queue.enterBatch) t →
    Gives settle (t.modifyQueue Queue.exitBatch) fun _ u => keeps u ∧ tells l s u
  /-- An untracked section starts. -/
  entered : ∀ {s}, keeps s → keeps (s.modifyTracking (·.enter .untracked))
  /-- An untracked section ends. -/
  left : ∀ {l s t}, keeps s → keeps t → tells l (s.modifyTracking (·.enter .untracked)) t →
    keeps (t.modifyTracking (·.leave.2)) ∧ tells l s (t.modifyTracking (·.leave.2))

namespace Chronicle

variable {keeps : State → Prop} {tells : List (NodeId × Json) → State → State → Prop}
  {logs : Json → Prop} (h : Chronicle D logs keeps tells)

include h

private theorem handle? {l : List (NodeId × Json)} {t : State} (ht : tells l s t) :
    t.handle? = s.handle? := by
  funext x
  exact handle?_congr (h.names ht) x

/-- The use of a signal around a write. -/
theorem gives_holding (hs : keeps s) {x : String} (hx : (s.handle? x).bind Handle.signal? = some id)
    {α : Type} {body : Kernel → Run α} {Q : α → List (NodeId × Json) → Prop}
    (hbody : Gives body (s.hold (.node id)) fun a t => ∃ l, Q a l ∧ keeps t ∧
      tells l (s.hold (.node id)) t) :
    Gives (fun κ => holding id (body κ)) s fun a t => ∃ l, Q a l ∧ keeps t ∧ tells l s t := by
  refine .holdingNamed (hbody.imp ?_)
  rintro a t ⟨l, hq, ht, htells⟩
  obtain ⟨hnamed, -⟩ := (h.orderly hs).isNamed_signal hx
  have hnamed' : t.IsNamed id := by
    rw [IsNamed, h.names htells]
    exact hnamed
  obtain ⟨hkeeps, htells⟩ := h.unused hs ht htells
  exact ⟨(h.orderly ht).swept, hnamed', l, hq, hkeeps, htells⟩

/-- A change of a signal. -/
theorem gives_overwrite (hs : keeps s) {x : String}
    (hx : (s.handle? x).bind Handle.signal? = some id) {v : Json} (hv : D.value v) :
    Gives (fun κ => overwrite κ id v) s fun _ t => keeps t ∧ tells [(id, v)] s t := by
  have hbody := h.replaced (h.used hs (.node id)) hx hv
  refine (h.gives_holding hs hx (Q := fun _ l => l = [(id, v)])
    (hbody.imp fun _ t ht => ⟨_, rfl, ht⟩)).imp ?_
  rintro _ t ⟨_, rfl, ht⟩
  exact ht

/-- A write of a signal. -/
theorem gives_write (hs : keeps s) {x : String}
    (hx : (s.handle? x).bind Handle.signal? = some id) {v : Json} (hv : D.value v) :
    Gives (fun κ => write κ id v) s fun changed t => changed = !(s.stored id == v) ∧ keeps t ∧
      tells (if s.stored id == v then [] else [(id, v)]) s t := by
  obtain ⟨-, w, hcell⟩ := (h.orderly hs).isNamed_signal hx
  have hvalue : (s.hold (.node id)).signalValue id = s.stored id := by
    have hcell' : (s.hold (.node id)).cells[id]? = some (.signal w) := hcell
    rw [signalValue, hcell', State.stored, hcell]
  have hbody : Gives (fun κ => replaceOld κ id v) (s.hold (.node id)) fun changed t => ∃ l,
      (changed = !(s.stored id == v) ∧ l = if s.stored id == v then [] else [(id, v)]) ∧ keeps t ∧
        tells l (s.hold (.node id)) t := by
    refine .look ?_
    rw [hvalue]
    by_cases heq : (s.stored id == v) = true
    · simp only [heq, if_true]
      exact .ret ⟨[], ⟨rfl, rfl⟩, h.used hs _, h.refl _⟩
    · simp only [heq, if_false, Bool.false_eq_true]
      exact (h.replaced (h.used hs (.node id)) hx hv).map fun _ t ht => ⟨_, ⟨rfl, rfl⟩, ht⟩
  refine (h.gives_holding hs hx (Q := fun changed l => changed = !(s.stored id == v) ∧
    l = if s.stored id == v then [] else [(id, v)]) hbody).imp ?_
  rintro changed t ⟨_, ⟨hchanged, rfl⟩, ht⟩
  exact ⟨hchanged, ht⟩

/-- A call of a program that writes. -/
theorem gives_performOp (hs : keeps s) {V : Json → Prop} {sees : String → Prop} {o : Op}
    (ho : o.Writes V logs sees) (hV : ∀ v, V v → D.value v)
    (hsees : ∀ x, sees x → s.IsDirect x) :
    Gives (fun κ => performOp κ o) s fun a t => a = o.reply s.handle? s.stored ∧ keeps t ∧
      tells (o.writes s.handle? s.stored) s t := by
  have hstill := h.still hs
  have hwrites {o : Op} {id : NodeId} {v : Json} {forced : Bool}
      (htarget : o.target? s.handle? = some (id, v, forced)) : o.writes s.handle? s.stored =
        if (forced || !(s.stored id == v)) = true then [(id, v)] else [] := by
    rw [Op.writes, htarget, Option.filter_some, Op.counts]
    by_cases hcounts : (forced || !(s.stored id == v)) = true
    · rw [if_pos hcounts, if_pos hcounts]
      rfl
    · rw [if_neg hcounts, if_neg hcounts]
      rfl
  have hnone {o : Op} (htarget : o.target? s.handle? = none) :
      keeps s ∧ tells (o.writes s.handle? s.stored) s s := by
    rw [Op.writes, htarget]
    exact ⟨hs, h.refl s⟩
  have hwrite {o : Op} {x : String} {id : NodeId} {v : Json}
      (hx : (s.handle? x).bind Handle.signal? = some id) (hv : V v)
      (htarget : o.target? s.handle? = some (id, v, false)) :
      Gives (fun κ => write κ id v) s fun changed t =>
        changed = Op.counts s.stored (id, v, false) ∧ keeps t ∧
          tells (o.writes s.handle? s.stored) s t := by
    refine (h.gives_write hs hx (hV v hv)).imp fun changed t ht => ⟨ht.1, ht.2.1, ?_⟩
    rw [hwrites htarget]
    have htells := ht.2.2
    revert htells
    cases s.stored id == v <;> exact fun ht => ht
  have hoverwrite {o : Op} {x : String} {id : NodeId} {v : Json}
      (hx : (s.handle? x).bind Handle.signal? = some id) (hv : V v)
      (htarget : o.target? s.handle? = some (id, v, true)) :
      Gives (fun κ => overwrite κ id v) s fun _ t => keeps t ∧
        tells (o.writes s.handle? s.stored) s t := by
    rw [hwrites htarget]
    exact h.gives_overwrite hs hx (hV v hv)
  cases ho with
  | @set x v hv =>
    refine gives_withHandle (fun hx => ⟨rfl, hnone (by rw [Op.target?, hx]; rfl)⟩) fun id hx => ?_
    have hbody : Gives (fun κ => do ensureWritable; let _ ← write κ id v) s fun _ t => keeps t ∧
        tells ((Op.set x v).writes s.handle? s.stored) s t :=
      hstill.ensureWritable.bind fun _ s' hs' => by
        subst hs'
        exact (hwrite hx hv (by rw [Op.target?, hx]; rfl)).map fun _ t ht => ht.2
    exact hbody.map fun _ t ht => ⟨rfl, ht⟩
  | @trySet x v hv =>
    refine gives_withHandle (fun hx => ?_) fun id hx => ?_
    · have htarget : (Op.trySet x v).target? s.handle? = none := by rw [Op.target?, hx]; rfl
      rw [Op.reply, htarget]
      exact ⟨rfl, hnone htarget⟩
    · have htarget : (Op.trySet x v).target? s.handle? = some (id, v, false) := by
        rw [Op.target?, hx]
        rfl
      refine .look ?_
      simp only [hstill.inDerived, Bool.false_eq_true, if_false]
      refine (hwrite hx hv htarget).map fun changed t ht => ⟨?_, ht.2⟩
      rw [Op.reply, htarget, ht.1]
      rfl
  | @update x v hv =>
    refine gives_withHandle (fun hx => ⟨rfl, hnone (by rw [Op.target?, hx]; rfl)⟩) fun id hx => ?_
    have hbody : Gives (fun κ => do ensureWritable; overwrite κ id v) s fun _ t => keeps t ∧
        tells ((Op.update x v).writes s.handle? s.stored) s t :=
      hstill.ensureWritable.bind fun _ s' hs' => by
        subst hs'
        exact hoverwrite hx hv (by rw [Op.target?, hx]; rfl)
    exact hbody.map fun _ t ht => ⟨rfl, ht⟩
  | @tryUpdate x v hv =>
    have hkind : (fun | .signal id => some id | _ => none) = Handle.whole? := by
      funext hd
      cases hd <;> rfl
    have hbody (id : NodeId) (hx : (s.handle? x).bind Handle.whole? = some id) :
        Gives (fun κ => ifWritable (do overwrite κ id v; return true)) s fun a t =>
          a = (Op.tryUpdate x v).reply s.handle? s.stored ∧ keeps t ∧
            tells ((Op.tryUpdate x v).writes s.handle? s.stored) s t := by
      have htarget : (Op.tryUpdate x v).target? s.handle? = some (id, v, true) := by
        rw [Op.target?, hx]
        rfl
      obtain ⟨y, hy⟩ := Op.exists_name_of_target? htarget
      refine .look ?_
      simp only [hstill.inDerived, Bool.false_eq_true, if_false]
      have hone : Gives (fun κ => do overwrite κ id v; return true) s fun changed t =>
          changed = true ∧ keeps t ∧ tells ((Op.tryUpdate x v).writes s.handle? s.stored) s t :=
        (hoverwrite hy hv htarget).map fun _ _ ht => ⟨rfl, ht⟩
      refine hone.map fun changed t ht => ⟨?_, ht.2⟩
      rw [Op.reply, htarget, ht.1]
      rfl
    refine gives_withHandle (fun hx => ?_) fun id hx => hbody id (hkind ▸ hx)
    have htarget : (Op.tryUpdate x v).target? s.handle? = none := by
      rw [Op.target?, show (s.handle? x).bind Handle.whole? = none from hkind ▸ hx]
      rfl
    rw [Op.reply, htarget]
    exact ⟨rfl, hnone htarget⟩
  | get hx =>
    refine (gives_readDirect (h.orderly hs) hstill (hsees _ hx)).imp fun a t ht => ⟨ht.1, ?_⟩
    rw [ht.2]
    exact ⟨hs, h.refl s⟩
  | peek hx =>
    refine .untracked ((gives_readDirect (h.orderly hs).enterUntracked hstill.enterUntracked
      (hsees _ hx)).imp ?_)
    rintro a t ⟨ha, rfl⟩
    exact ⟨ha, hs, h.refl s⟩
  | @log v hv => exact ⟨none, s.addLog v, .of_eq fun _ => rfl, rfl, h.logged hs v hv⟩

/-- A program that writes does what it is to do. -/
theorem gives_enact (hs : keeps s) {V : Json → Prop} {sees : String → Prop} {p : Program}
    (hp : p.Writes V logs sees) (hV : ∀ v, V v → D.value v)
    (hsees : ∀ x, sees x → s.IsDirect x) :
    Gives (fun κ => exec κ p) s fun o t => o = (p.enact s.handle? s.stored).1 ∧ keeps t ∧
      tells (p.enact s.handle? s.stored).2 s t := by
  rw [Program.Writes] at hp
  generalize (fun _ => True : Outcome → Prop) = ends at hp
  -- Behind a part the rest does what it is to do for the values that were written.
  have hrest {s t : State} {l : List (NodeId × Json)} (hs : keeps s) (ht : tells l s t)
    (q : Program) :
      q.enact t.handle? t.stored = q.enact s.handle? (overlay s.stored l) := by
    rw [h.handle? ht]
    refine Program.enact_congr (fun x id hx => ?_) q
    obtain ⟨-, w, hcell⟩ := (h.orderly hs).isNamed_signal hx
    exact h.stored ht id w hcell
  induction hp generalizing s with
  | stop _ => exact .ret ⟨rfl, hs, h.refl s⟩
  | @op ends c next allowed rest ih =>
    refine (h.gives_performOp hs allowed hV hsees).bind ?_
    rintro a s₁ ⟨rfl, hs₁, htells⟩
    refine (ih _ (fun _ _ => trivial) hs₁
      (by unfold IsDirect; rw [h.handle? htells]; exact hsees)).imp ?_
    rintro o t ⟨ho, ht, htells'⟩
    rw [hrest hs htells] at ho htells'
    exact ⟨ho, ht, h.trans htells htells'⟩
  | @within ends c body next allowed inside rest ihbody ihnext =>
    have hafter (henact : ∀ val, (Program.within c body next).enact s.handle? val =
          (((next (body.enact s.handle? val).1 none).enact s.handle?
              (overlay val (body.enact s.handle? val).2)).1,
            (body.enact s.handle? val).2 ++
            ((next (body.enact s.handle? val).1 none).enact s.handle?
              (overlay val (body.enact s.handle? val).2)).2))
        (hx : Gives (fun κ => enclose κ c body) s fun r t => r.2 = none ∧
          r.1 = (body.enact s.handle? s.stored).1 ∧ keeps t ∧
            tells (body.enact s.handle? s.stored).2 s t) :
        Gives (fun κ => exec κ (.within c body next)) s fun o t =>
          o = ((Program.within c body next).enact s.handle? s.stored).1 ∧ keeps t ∧
            tells ((Program.within c body next).enact s.handle? s.stored).2 s t := by
      refine hx.bind ?_
      rintro ⟨o₁, a⟩ s₁ ⟨hnone, ho₁, hs₁, htells⟩
      obtain rfl : a = none := hnone
      obtain rfl : o₁ = _ := ho₁
      refine (ihnext _ trivial hs₁ (by unfold IsDirect; rw [h.handle? htells]; exact hsees)).imp ?_
      rintro o t ⟨ho, ht, htells'⟩
      rw [hrest hs htells] at ho htells'
      rw [henact]
      exact ⟨ho, ht, h.trans htells htells'⟩
    cases allowed with
    | plain =>
      exact hafter (fun _ => rfl) (.map (.callExec (ihbody hs hsees)) fun o t ht => ⟨rfl, ht⟩)
    | batch =>
      refine hafter (fun _ => rfl) (.map (.batch ?_) fun o t ht => ⟨rfl, ht⟩)
      refine .callExec ((ihbody (h.batched hs) hsees).imp ?_)
      rintro o t ⟨ho, ht, htells⟩
      exact (h.settled hs ht htells).imp fun _ u hu => ⟨ho, hu⟩
    | untrack =>
      refine hafter (fun _ => rfl) (.map (.untracked (.callExec ((ihbody (h.entered hs)
        hsees).imp ?_))) fun o t ht => ⟨rfl, ht⟩)
      rintro o t ⟨ho, ht, htells⟩
      exact ⟨ho, h.left hs ht htells⟩

end Chronicle

end Engine

end Rivulet
