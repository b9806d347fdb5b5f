import Rivulet.Proofs.Reactive.Ending
import Rivulet.Proofs.Reactive.Ready

/-!
# Reading computed values

A read brings the computed value up to date, which may bring up to date those that it read before,
and may run its program, which reads others. Only those of lower rank are ever reached, so this
ends. What comes out is trusted, and so it is what recursive evaluation gives.
-/

namespace Rivulet

namespace Tracking

/-- A read is recorded in the innermost section. -/
theorem record_cons {t : Tracking} {o : Observer} {reads : List NodeId} {rest : List Section}
    (h : t.sections = ⟨o, reads⟩ :: rest) (ho : o.node?.isSome = true) (id : NodeId) :
    ∃ reads', (t.record id).sections = ⟨o, reads'⟩ :: rest ∧ reads ⊆ reads' ∧ id ∈ reads' ∧
      ∀ r ∈ reads', r ∈ reads ∨ r = id := by
  by_cases hid : id ∈ reads
  · refine ⟨reads, ?_, List.Subset.refl reads, hid, fun r hr => Or.inl hr⟩
    rw [record, h]
    simp [hid, h]
  · refine ⟨reads ++ [id], ?_, List.subset_append_left reads [id], by simp, fun r hr => ?_⟩
    · rw [record, h]
      simp [hid, ho]
    · simpa using hr

/-- Recording a read changes nothing of what runs. -/
@[simp] theorem isRunning_record (t : Tracking) (id j : NodeId) :
    (t.record id).isRunning j = t.isRunning j := by
  rw [record]
  split
  · rfl
  · rename_i sec rest h
    split
    · simp [isRunning, h]
    · rfl

/-- A section lets its observer run. -/
@[simp] theorem isRunning_enter (t : Tracking) (o : Observer) (j : NodeId) :
    (t.enter o).isRunning j = (decide (o.node? = some j) || t.isRunning j) := rfl

end Tracking

namespace Engine

open State

/-- Without waiting effects there is nothing to run. -/
theorem runWaiting_nil (κ : Kernel) {s : State} (h : s.queue.pending = []) (n : Nat) :
    runWaiting κ n s = .ok () s := by
  cases n with
  | zero =>
    have hclear : s.queue.clear = s.queue := by rw [Queue.clear, ← h]
    show EStateM.Result.ok () (s.modifyQueue Queue.clear) = _
    rw [modifyQueue, hclear]
  | succ n =>
    have hpop : s.queue.pop = (none, s.queue) := by rw [Queue.pop, h]
    rw [runWaiting]
    exact run_bind_ok (a := none) (by
      show EStateM.Result.ok s.queue.pop.1 { s with queue := s.queue.pop.2 } = _
      rw [hpop])

/-- Settling changes nothing when nothing waits. -/
theorem ends_settle_quiet {fails : Prop} {s : State} (h : s.Quiet) :
    Ends fails settle s fun _ s' => s' = s := by
  refine .look ?_
  by_cases hflush : s.queue.canFlush = true
  · obtain ⟨hpending, hdeferred⟩ := h hflush
    have hend := endFlush_begun (Queue.flushing_of_canFlush hflush)
    have hdrain : Ends fails (fun κ => κ.drain) s fun _ s' => s' = s := by
      refine .callDrain (.changeGet (f := takeDeferred) ?_)
      rw [takeDeferred, hdeferred]
      exact .ret rfl
    simp only [hflush, if_true]
    refine .look ?_
    simp only [Queue.beginFlush_of_canFlush hflush]
    refine .change ?_
    have hrun (κ : Kernel) : (guarding (·.modifyQueue Queue.endFlush) (runWaiting κ flushLimit) >>=
        fun _ => κ.drain) { s with queue := { s.queue with flushing := true } } = κ.drain s := by
      have hnone := runWaiting_nil κ (s := { s with queue := { s.queue with flushing := true } })
        hpending flushLimit
      rw [run_bind_ok (guarding_ok hnone _), hend]
    exact hdrain.congr hrun
  · simp only [hflush]
    exact .ret rfl

section

variable {rank : String → Nat}

/-- The computed value that a name stands for can be brought up to date: this ends, and then its
node is trusted. -/
def Refreshes (rank : String → Nat) (y : String) : Prop :=
  ∀ (s : State) (id : NodeId), s.Tame → s.Ready rank → s.lookup y = some id →
    s.kinds[id.index]? = some .derived → s.RunsFrom rank (rank y + 1) →
      Ends False (fun κ => refresh κ id) s fun _ s' =>
        Settles rank (rank y + 1) s s' ∧ s'.tracking = s.tracking ∧ s'.Trusted id

/-- The node of a computed value that is there. -/
theorem State.Coherent.find?_derived {s : State} (hs : s.Coherent rank) (hi : s.Intact)
    {id : NodeId} (hkind : s.kinds[id.index]? = some .derived) :
    ∃ n, s.graph.find? id = some n ∧ n.kind = .derived := by
  obtain ⟨n, hn, -⟩ := hi.live id (Or.inr hkind)
  have hknown := hs.node id n hn
  rw [hkind, Option.some.injEq] at hknown
  exact ⟨n, hn, hknown.symm⟩

section

variable {y : String} (h : Refreshes rank y) {s : State} {id : NodeId} (ht : s.Tame)
  (hy : s.lookup y = some id) (hkind : s.kinds[id.index]? = some .derived)

include h ht hy hkind in
private theorem ends_ensureFresh (hs : s.Ready rank) (hb : s.RunsFrom rank (rank y + 1)) :
    Ends False (fun κ => ensureFresh κ id) s fun _ s' =>
      Settles rank (rank y + 1) s s' ∧ s'.tracking = s.tracking ∧ s'.Trusted id := by
  refine .intact ht (fun κ hκ => staysAt_ensureFresh hκ id) fun hi => .look ?_
  obtain ⟨n, hn, -⟩ := hs.sound.find?_derived hi hkind
  have hcontains : s.graph.contains id = true := by rw [Graph.contains_eq, hn]; rfl
  simp only [hcontains, if_true]
  exact .callRefresh (h s id ht hs hy hkind hb)

include ht hy hkind in
/-- What a trusted computed value keeps is what a read gives. -/
theorem ends_keptValue (hs : s.Sound rank) (htrusted : s.Trusted id) :
    Ends False (fun _ => keptValue id) s fun v s' => s' = s ∧ v = s.evaluate id := by
  refine .intact ht (fun κ _ => staysAt_keptValue id) fun hi => .look ?_
  obtain ⟨n, hn, hnkind⟩ := hs.find?_derived hi hkind
  obtain ⟨hmark, hrun⟩ := htrusted n hn hnkind
  obtain ⟨p, v, hcell, -⟩ := hs.settled id n hn hnkind (by simp [hmark]) hrun
  have hvalue := stored_eq_evaluate hs ht hi hy htrusted
  rw [stored, hcell] at hvalue
  simp only [hcell]
  exact .ret ⟨rfl, hvalue⟩

include h ht hy hkind in
/-- A value that is up to date is what its node evaluates to. -/
theorem ends_readFresh (hs : s.Ready rank) (hb : s.RunsFrom rank (rank y + 1)) :
    Ends False (fun κ => readFresh κ id) s fun v s' => v = s'.evaluate id ∧
      Settles rank (rank y + 1) s s' ∧ s'.tracking = s.tracking.record id ∧ s'.Trusted id := by
  have hrecorded : Settles rank (rank y + 1) s (s.modifyTracking (·.record id)) :=
    .tracking hs.sound _ fun j => Tracking.isRunning_record _ _ _
  have ht' := (keeps_tracking s (·.record id) ht).1
  have hfresh := ends_ensureFresh h ht' hy hkind (hrecorded.ready hs) (hrecorded.runsFrom hb)
  refine .change (.bind ht' (fun κ hκ => staysAt_ensureFresh hκ id) hfresh
    (fun _ _ _ _ _ _ => staysAt_keptValue id) ?_)
  rintro _ s' _ hts' _ _ ⟨hsettles, htracking, htrusted⟩
  have hkind' : s'.kinds[id.index]? = some .derived := by rwa [hsettles.kinds]
  have hy' : s'.lookup y = some id := by rwa [hsettles.lookup]
  refine .mono hts' (fun _ _ => staysAt_keptValue id) (ends_keptValue hts' hy' hkind' hsettles.sound
    htrusted) ?_
  rintro v s'' _ _ _ _ ⟨hs'', hv⟩
  subst hs''
  exact ⟨hv, hrecorded.trans hsettles, htracking, htrusted⟩

include h ht hy hkind in
/-- A computed value that is read is what its node evaluates to. -/
theorem ends_readComputed (hs : s.Ready rank) (hb : s.RunsFrom rank (rank y + 1)) :
    Ends False (fun κ => readComputed κ id) s fun v s' => v = s'.evaluate id ∧
      Settles rank (rank y + 1) s s' ∧ s'.tracking = s.tracking.record id ∧ s'.Trusted id := by
  have ht' := (keeps_hold s (.node id) ht).1
  refine .holdingValue ht (Or.inr hkind) (fun _ κ hκ => staysAt_readFresh hκ id)
    (ends_readFresh h ht' hy hkind (hs.hold _) hb) ?_
  rintro v s' _ _ _ _ ⟨hv, hsettles, htracking, htrusted⟩
  have hsettled := hsettles.hold
  refine ⟨?_, hsettled, htracking, htrusted⟩
  have hheld : (s.hold (.node id)).evaluate = s.evaluate := evaluate_congr rfl rfl rfl
  rw [hv, hsettles.evaluate, hsettled.evaluate, hheld]

end

/-- A value that can be relied on: it is below a rank, and its node is trusted. -/
structure State.Reliable (rank : String → Nat) (s : State) (b : Nat) (id : NodeId) : Prop where
  /-- It is below the rank. -/
  under : s.Under rank b id
  /-- Its node is trusted. -/
  trusted : s.Trusted id

private theorem State.Settles.reliable {b c : Nat} {s s' : State} (h : Settles rank b s s')
    {id : NodeId}
    (hid : s.Reliable rank c id) : s'.Reliable rank c id :=
  ⟨h.under.2 hid.under, (h.trusted id hid.trusted).1⟩

/-- A signal is trusted. -/
theorem State.Coherent.trusted_source {s : State} (hs : s.Coherent rank) {id : NodeId}
    (hkind : s.kinds[id.index]? = some .source) : s.Trusted id := by
  intro n hn hderived
  have hknown := hs.node id n hn
  simp [hkind, hderived] at hknown

/-- What a read gives: the value, which is recorded, and whose node is trusted. -/
def State.Answers (rank : String → Nat) (s s' : State) (b : Nat) (x : String) (f : Json → Json)
    (a : Option Json) : Prop :=
  Settles rank b s s' ∧ match s.lookup x with
    | some id => a = some (f (s'.evaluate id)) ∧ s'.tracking = s.tracking.record id ∧ s'.Trusted id
    | none => a = none ∧ s'.tracking = s.tracking

/-- Reading a name. -/
theorem ends_read {b : Nat} (h : ∀ y, rank y < b → Refreshes rank y) {s : State} (ht : s.Tame)
    (hs : s.Ready rank) (hb : s.RunsFrom rank b) {x : String} (hx : rank x < b) :
    Ends False (fun κ => read κ x) s fun a s' => s.Answers rank s' b x (fun v => v) a := by
  -- The two handles of signals are read in the same way.
  have hsignal (id : NodeId) (hkind : s.kinds[id.index]? = some .source)
      (hlookup : s.lookup x = some id) : Ends False (fun _ => do
        recordRead id
        return some ((← get).signalValue id)) s fun a s' =>
          s.Answers rank s' b x (fun v => v) a := by
    have hrecorded : Settles rank b s (s.modifyTracking (·.record id)) :=
      .tracking hs.sound _ fun j => Tracking.isRunning_record _ _ _
    obtain ⟨v, hv⟩ := hs.sound.signal id hkind
    have hvalue : (s.modifyTracking (·.record id)).signalValue id =
        (s.modifyTracking (·.record id)).evaluate id := by
      have hv' : (s.modifyTracking (·.record id)).cells[id]? = some (.signal v) := hv
      have hid := (hs.sound.value x id hlookup).lt_size
      rw [hrecorded.evaluate, evaluate_signal hid hv, signalValue, hv']
    refine .change (.look (.ret ⟨hrecorded, ?_⟩))
    rw [hlookup]
    have hkind' : (s.modifyTracking (·.record id)).kinds[id.index]? = some .source := hkind
    exact ⟨congrArg some hvalue, rfl, hrecorded.sound.trusted_source hkind'⟩
  refine .look ?_
  cases hhandle : s.handle? x with
  | none =>
    refine .ret ⟨.refl b hs.sound, ?_⟩
    rw [State.lookup, hhandle]
    exact ⟨rfl, rfl⟩
  | some hd =>
    have hfits := hs.typed x hd hhandle
    have hlookup : s.lookup x = hd.value? := by rw [State.lookup, hhandle]; rfl
    cases hd with
    | signal id => exact hsignal id hfits hlookup
    | pair id => exact hsignal id hfits hlookup
    | computed id =>
      refine .map (.callRead (ends_readComputed (h x hx) ht hlookup hfits hs (hb.mono hx))
        fun _ _ hq => hq.1) ?_
      rintro v s' ⟨hv, hsettles, htracking, htrusted⟩
      refine ⟨hsettles.mono hx, ?_⟩
      rw [hlookup]
      exact ⟨congrArg some hv, htracking, htrusted⟩
    | query id key => exact hfits.elim
    | _ =>
      refine .ret ⟨.refl b hs.sound, ?_⟩
      rw [hlookup]
      exact ⟨rfl, rfl⟩

/-- The size of what a name stands for is that of the value. -/
theorem ends_readSize {b : Nat} (h : ∀ y, rank y < b → Refreshes rank y) {s : State} (ht : s.Tame)
    (hs : s.Ready rank) (hb : s.RunsFrom rank b) {x : String} (hx : rank x < b) :
    Ends False (fun κ => readSize κ x) s fun a s' =>
      s.Answers rank s' b x (fun v => .ofNat (Text.byteLength v.print)) a := by
  refine .look ?_
  split
  · rename_i id key hhandle
    exact (hs.typed x _ hhandle).elim
  · refine .map (ends_read h ht hs hb hx) ?_
    rintro a s' ⟨hsettles, hanswer⟩
    refine ⟨hsettles, ?_⟩
    cases hlookup : s.lookup x with
    | none =>
      rw [hlookup] at hanswer
      exact ⟨by rw [hanswer.1]; rfl, hanswer.2⟩
    | some id =>
      rw [hlookup] at hanswer
      exact ⟨by rw [hanswer.1]; rfl, hanswer.2⟩

/-- What a run of a program that computes a value does: it reads values that can be relied on, in
the innermost section, and its outcome is the one that the program has for these values. -/
structure State.Observes (rank : String → Nat) (s s' : State) (b : Nat) (p : Program)
    (o : Tracking.Observer) (reads : List NodeId) (rest : List Tracking.Section) (out : Outcome)
    (reads' : List NodeId) : Prop where
  /-- It does no more to the state than reading does. -/
  settles : Settles rank b s s'
  /-- The innermost section knows what was read. -/
  sections : s'.tracking.sections = ⟨o, reads'⟩ :: rest
  /-- It has forgotten nothing. -/
  subset : reads ⊆ reads'
  /-- All that was read can be relied on. -/
  reliable : ∀ r ∈ reads', s'.Reliable rank b r
  /-- The outcome depends on the values that were read. -/
  outcome : ∀ look val, s.Agrees look → (∀ r ∈ reads', val r = s.evaluate r) →
    p.evaluate look val = out

namespace State.Observes

variable {b : Nat} {s s₁ s₂ : State} {p q : Program} {o : Tracking.Observer}
  {reads reads₁ reads₂ : List NodeId} {rest : List Tracking.Section} {out out₁ : Outcome}

/-- A read, and what follows it. -/
theorem read (hsettles : Settles rank b s s₁) {id : NodeId} (hsub : reads ⊆ reads₁)
    (hid : id ∈ reads₁) (h : s₁.Observes rank s₂ b q o reads₁ rest out reads₂)
    (hp : ∀ look val, s.Agrees look → val id = s.evaluate id →
      p.evaluate look val = q.evaluate look val) :
    s.Observes rank s₂ b p o reads rest out reads₂ where
  settles := hsettles.trans h.settles
  sections := h.sections
  subset := List.Subset.trans hsub h.subset
  reliable := h.reliable
  outcome look val hlook hval := by
    rw [hp look val hlook (hval id (h.subset hid))]
    refine h.outcome look val (hlook.of_eq hsettles.lookup.symm) fun r hr => ?_
    rw [hval r hr, hsettles.evaluate]

/-- One program behind another one. -/
theorem within {e : Enclosure} {next : Outcome → Option Json → Program}
    (he : e = .plain ∨ e = .batch) (h : s.Observes rank s₁ b p o reads rest out₁ reads₁)
    (h' : s₁.Observes rank s₂ b (next out₁ none) o reads₁ rest out reads₂) :
    s.Observes rank s₂ b (.within e p next) o reads rest out reads₂ where
  settles := h.settles.trans h'.settles
  sections := h'.sections
  subset := List.Subset.trans h.subset h'.subset
  reliable := h'.reliable
  outcome look val hlook hval := by
    have hfirst : p.evaluate look val = out₁ :=
      h.outcome look val hlook fun r hr => hval r (h'.subset hr)
    have hsecond : (next out₁ none).evaluate look val = out := by
      refine h'.outcome look val (hlook.of_eq h.settles.lookup.symm) fun r hr => ?_
      rw [hval r hr, h.settles.evaluate]
    rcases he with rfl | rfl <;>
    · rw [Program.evaluate, hfirst, hsecond]

/-- A batch around a run. -/
theorem batch (h : (s.modifyQueue Queue.enterBatch).Observes rank s₁ b p o reads rest out reads₁) :
    s.Observes rank (s₁.modifyQueue Queue.exitBatch) b p o reads rest out reads₁ where
  settles := h.settles.batch
  sections := h.sections
  subset := h.subset
  reliable r hr := ⟨(h.reliable r hr).under, (h.reliable r hr).trusted⟩
  outcome look val hlook hval := by
    have hevaluate : (s.modifyQueue Queue.enterBatch).evaluate = s.evaluate :=
      evaluate_congr rfl rfl rfl
    refine h.outcome look val hlook fun r hr => ?_
    rw [hval r hr, hevaluate]

/-- What the program gives for the values of the state. -/
theorem evaluate_eq (h : s.Observes rank s₁ b p o reads rest out reads₁) :
    p.evaluate s.lookup s.evaluate = out :=
  h.outcome _ _ (fun _ _ hx => hx) fun _ _ => rfl

end State.Observes

section

variable {b : Nat} (h : ∀ y, rank y < b → Refreshes rank y)

/-- The sections behind a read that was answered. -/
theorem State.Answers.recorded {s s' : State} {x : String} {f : Json → Json} {a : Option Json}
    (ha : s.Answers rank s' b x f a) {id : NodeId} (hlookup : s.lookup x = some id)
    (hlt : rank x < b) {o : Tracking.Observer} {reads : List NodeId}
    {rest : List Tracking.Section} (hsections : s.tracking.sections = ⟨o, reads⟩ :: rest)
    (ho : o.node?.isSome = true) (hreads : ∀ r ∈ reads, s.Reliable rank b r) :
    a = some (f (s'.evaluate id)) ∧ ∃ reads', s'.tracking.sections = ⟨o, reads'⟩ :: rest ∧
      reads ⊆ reads' ∧ id ∈ reads' ∧ ∀ r ∈ reads', s'.Reliable rank b r := by
  obtain ⟨hsettles, hanswer⟩ := ha
  rw [hlookup] at hanswer
  obtain ⟨ha, htracking, htrusted⟩ := hanswer
  obtain ⟨reads', hrecorded, hsub, hmem, hall⟩ := Tracking.record_cons hsections ho id
  refine ⟨ha, reads', by rw [htracking, hrecorded], hsub, hmem, ?_⟩
  intro r hr
  rcases hall r hr with hr | rfl
  · exact hsettles.reliable (hreads r hr)
  · exact ⟨⟨x, by rw [hsettles.lookup, hlookup], hlt⟩, htrusted⟩

/-- A program that goes on with the answer to a read observes what it goes on with, and that
read. -/
theorem State.Answers.goesOn {s s' : State} {x : String} {f : Json → Json} {a : Option Json}
    (ha : s.Answers rank s' b x f a) {id : NodeId} (hlookup : s.lookup x = some id)
    (hlt : rank x < b) {o : Tracking.Observer} {reads : List NodeId}
    {below : List Tracking.Section} (hsections : s.tracking.sections = ⟨o, reads⟩ :: below)
    (ho : o.node?.isSome = true) (hreads : ∀ r ∈ reads, s.Reliable rank b r) {p : Program}
    {next : Option Json → Program}
    (hp : ∀ look val, look x = some id →
      p.evaluate look val = (next (some (f (val id)))).evaluate look val)
    (hbound : ∀ x ∈ (next (some (f (s.evaluate id)))).reads s.lookup s.evaluate,
      (s.lookup x).isSome = true)
    (hrest : ∀ reads', s'.tracking.sections = ⟨o, reads'⟩ :: below →
      (∀ r ∈ reads', s'.Reliable rank b r) →
      (∀ x ∈ (next a).reads s'.lookup s'.evaluate, (s'.lookup x).isSome = true) →
        Ends False (fun κ => exec κ (next a)) s' fun out s'' =>
          ∃ reads'', s'.Observes rank s'' b (next a) o reads' below out reads'') :
    Ends False (fun κ => exec κ (next a)) s' fun out s'' => ∃ reads'',
      s.Observes rank s'' b p o reads below out reads'' := by
  obtain ⟨rfl, reads', hsections', hsub, hmem, hreads'⟩ :=
    ha.recorded hlookup hlt hsections ho hreads
  have hbound' : ∀ x ∈ (next (some (f (s'.evaluate id)))).reads s'.lookup s'.evaluate,
      (s'.lookup x).isSome = true := by rwa [ha.1.evaluate, ha.1.lookup]
  refine (hrest reads' hsections' hreads' hbound').imp ?_
  rintro out s'' ⟨reads'', hobserves⟩
  refine ⟨reads'', .read ha.1 hsub hmem hobserves fun look val hlook hval => ?_⟩
  rw [hp look val (hlook x id hlookup), hval, ha.1.evaluate]

include h in
/-- A run of a program that computes a value ends, if all names that it reads stand for
something. -/
theorem ends_exec_computes {p : Program} (hp : p.Computes fun x => rank x < b) {s : State}
    (ht : s.Tame) (hs : s.Ready rank) (hb : s.RunsFrom rank b)
    (hbound : ∀ x ∈ p.reads s.lookup s.evaluate, (s.lookup x).isSome = true)
    {o : Tracking.Observer} {reads : List NodeId} {below : List Tracking.Section}
    (hsections : s.tracking.sections = ⟨o, reads⟩ :: below) (ho : o.node?.isSome = true)
    (hreads : ∀ r ∈ reads, s.Reliable rank b r) :
    Ends False (fun κ => exec κ p) s fun out s' => ∃ reads',
      s.Observes rank s' b p o reads below out reads' := by
  induction hp generalizing s reads with
  | @stop out exact =>
    exact .ret ⟨reads, .refl b hs.sound, hsections, List.Subset.refl reads, hreads,
      fun _ _ _ _ => rfl⟩
  | @get x next mem rest ih =>
    obtain ⟨id, hlookup⟩ := Option.isSome_iff_exists.1 (hbound x List.mem_cons_self)
    rw [Program.reads, hlookup, List.forall_mem_cons] at hbound
    refine .bind ht (fun κ hκ => staysAt_read hκ x) (ends_read h ht hs hb mem)
      (fun a s' ha _ κ hκ => staysAt_exec hκ ((rest a ha).acts rank))
      fun a s' ha ht' _ _ hanswer => ?_
    refine hanswer.goesOn hlookup mem hsections ho hreads (fun look val hlook => ?_) hbound.2
      fun reads' hsections' hreads' hbound' => ih a ha ht' (hanswer.1.ready hs)
        (hanswer.1.runsFrom hb) hbound' hsections' hreads'
    rw [Program.evaluate, hlook, Option.map_some]
  | @size x next mem rest ih =>
    obtain ⟨id, hlookup⟩ := Option.isSome_iff_exists.1 (hbound x List.mem_cons_self)
    rw [Program.reads, hlookup, List.forall_mem_cons] at hbound
    refine .bind ht (fun κ hκ => staysAt_readSize hκ x) (ends_readSize h ht hs hb mem)
      (fun a s' ha _ κ hκ => staysAt_exec hκ ((rest a ha).acts rank))
      fun a s' ha ht' _ _ hanswer => ?_
    refine hanswer.goesOn hlookup mem hsections ho hreads (fun look val hlook => ?_) hbound.2
      fun reads' hsections' hreads' hbound' => ih a ha ht' (hanswer.1.ready hs)
        (hanswer.1.runsFrom hb) hbound' hsections' hreads'
    rw [Program.evaluate, hlook, Option.map_some]
  | @within e body next enclosure inside rest ihinside ihrest =>
    have hparts : ∀ x ∈ body.reads s.lookup s.evaluate ++
        (next (body.evaluate s.lookup s.evaluate) none).reads s.lookup s.evaluate,
        (s.lookup x).isSome = true := by
      rcases enclosure with rfl | rfl <;> exact hbound
    rw [List.forall_mem_append] at hparts
    obtain ⟨hbody, hnext⟩ := hparts
    have hstays (s : State) : Stays (·.get.Exact) (fun κ => κ.exec body) s :=
      fun κ hκ => hκ.exec body ⟨rank, inside.acts rank⟩ s
    have hencloses : Ends False (fun κ => enclose κ e body) s fun r s' => r.2 = none ∧
        ∃ reads', s.Observes rank s' b body o reads below r.1 reads' := by
      rcases enclosure with rfl | rfl
      · exact .map (.callExec fun _ => ihinside ht hs hb hbody hsections hreads)
          fun out s' hq => ⟨rfl, hq⟩
      · have hevaluate : (s.modifyQueue Queue.enterBatch).evaluate = s.evaluate :=
          evaluate_congr rfl rfl rfl
        have hinside := ihinside (keeps_queue s Queue.enterBatch ht).1 hs.enterBatch hb
          (by rw [hevaluate]; exact hbody) hsections
          fun r hr => ⟨(hreads r hr).under, (hreads r hr).trusted⟩
        refine .map (.batch ht hstays (.callExec fun _ => hinside) ?_) fun out s' hq => ⟨rfl, hq⟩
        rintro out s' _ _ _ _ ⟨reads', hobserves⟩
        have hbatch := hobserves.batch
        refine (ends_settle_quiet (hbatch.settles.ready hs).quiet).imp ?_
        rintro _ _ rfl
        exact ⟨reads', hbatch⟩
    have he : e ∈ [Enclosure.plain, .batch, .untrack] := by
      rcases enclosure with rfl | rfl <;> simp
    have hrest (r : Outcome × Option Json) (s' : State) (hr : r.1.get.Exact ∧ r.2 = none)
        (_ : s'.Tame) : Stays (·.get.Exact) (fun κ => exec κ (next r.1 r.2)) s' := by
      intro κ hκ
      rw [hr.2]
      exact staysAt_exec hκ ((rest r.1 hr.1).acts rank)
    refine .bind ht (fun κ hκ => staysAt_enclose hκ he (inside.acts rank)) hencloses hrest ?_
    · rintro ⟨out, a⟩ s' ⟨hout, -⟩ ht' _ _ ⟨hnone, reads', hobserves⟩
      obtain rfl : a = none := hnone
      have hsettles := hobserves.settles
      have hbound' : ∀ x ∈ (next out none).reads s'.lookup s'.evaluate,
          (s'.lookup x).isSome = true := by
        rw [hobserves.evaluate_eq] at hnext
        rwa [hsettles.lookup, hsettles.evaluate]
      refine (ihrest out hout ht' (hsettles.ready hs) (hsettles.runsFrom hb) hbound'
        hobserves.sections hobserves.reliable).imp ?_
      rintro out' s'' ⟨reads'', hobserves'⟩
      exact ⟨reads'', .within enclosure hobserves hobserves'⟩

include h in
/-- Whether something has changed is found out; if not, all sources are trusted. -/
theorem ends_dependenciesChanged (l : List Graph.Observed) {s : State} (ht : s.Tame)
    (hs : s.Ready rank) (hb : s.RunsFrom rank b)
    (hl : ∀ seen ∈ l, s.kinds[seen.node.index]? = some .derived → s.Under rank b seen.node) :
    Ends False (fun κ => dependenciesChanged κ l) s fun changed s' =>
      Settles rank b s s' ∧ s'.tracking = s.tracking ∧ (changed = false → ∀ seen ∈ l,
        s'.graph.epoch? seen.node = some seen.epoch ∧ s'.Trusted seen.node) := by
  induction l generalizing s with
  | nil => exact .ret ⟨.refl b hs.sound, rfl, fun _ seen hseen => absurd hseen List.not_mem_nil⟩
  | cons seen rest ih =>
    -- The epoch is compared when the source is trusted.
    have hcheck (s₁ : State) (ht₁ : s₁.Tame) (hsettles : Settles rank b s s₁)
        (htracking : s₁.tracking = s.tracking) (htrusted : s₁.Trusted seen.node) :
        Ends False (fun κ => do
          if (← get).graph.epoch? seen.node = some seen.epoch then dependenciesChanged κ rest
          else return true) s₁ fun changed s' => Settles rank b s s' ∧ s'.tracking = s.tracking ∧
            (changed = false → ∀ other ∈ seen :: rest,
              s'.graph.epoch? other.node = some other.epoch ∧ s'.Trusted other.node) := by
      refine .look ?_
      by_cases hepoch : s₁.graph.epoch? seen.node = some seen.epoch
      · simp only [hepoch, if_true]
        have hl₁ : ∀ other ∈ rest, s₁.kinds[other.node.index]? = some .derived →
            s₁.Under rank b other.node := by
          intro other hother hkind
          rw [hsettles.kinds] at hkind
          exact hsettles.under.2 (hl other (List.mem_cons_of_mem seen hother) hkind)
        refine (ih ht₁ (hsettles.ready hs) (hsettles.runsFrom hb) hl₁).imp ?_
        rintro changed s' ⟨hsettles', htracking', hsame⟩
        refine ⟨hsettles.trans hsettles', htracking'.trans htracking,
          fun hchanged other hother => ?_⟩
        rcases List.mem_cons.1 hother with heq | hother
        · obtain ⟨htrusted', hepoch'⟩ := hsettles'.trusted seen.node htrusted
          rw [heq]
          exact ⟨hepoch'.trans hepoch, htrusted'⟩
        · exact hsame hchanged other hother
      · simp only [hepoch, if_false]
        exact .ret ⟨hsettles, htracking, fun hchanged => by simp at hchanged⟩
    refine .look ?_
    by_cases hderived : s.graph.isDerived seen.node = true
    · simp only [hderived, if_true]
      have hkind : s.kinds[seen.node.index]? = some .derived := by
        rw [Graph.isDerived] at hderived
        split at hderived
        · rename_i n hn
          rw [hs.sound.node _ n hn, of_decide_eq_true hderived]
        · simp at hderived
      have hstays (s₁ : State) : Stays Anything (fun κ => do
          if (← get).graph.epoch? seen.node = some seen.epoch then dependenciesChanged κ rest
          else return true) s₁ := by
        refine fun κ hκ => .look fun _ => ?_
        split
        · exact staysAt_dependenciesChanged hκ rest
        · exact .ret trivial
      obtain ⟨y, hy, hlt⟩ := hl seen List.mem_cons_self hkind
      refine .bind ht (fun κ hκ => hκ.callRefresh seen.node)
        (.callRefresh (h y hlt s _ ht hs hy hkind (hb.mono hlt))) (fun _ s₁ _ _ => hstays s₁) ?_
      rintro _ s₁ _ ht₁ _ _ ⟨hsettles, htracking, htrusted⟩
      exact hcheck s₁ ht₁ (hsettles.mono hlt) htracking htrusted
    · simp only [hderived, Bool.false_eq_true, if_false]
      refine hcheck s ht (.refl b hs.sound) rfl ?_
      intro n hn hkind
      exact absurd (by rw [Graph.isDerived, hn]; exact decide_eq_true hkind) hderived

end

/-! ## Running computed values -/

/-- The state in which the program of a computed value starts. -/
def State.startRun (s : State) (id : NodeId) : State :=
  (s.modifyGraph (·.request id .clean)).modifyTracking (·.enter (.derived id))

/-- Asking for a mark of a node that may change. -/
theorem maps_request (g : Graph) {id : NodeId} (mark : Graph.Mark) {may : NodeId → Prop}
    (hid : may id) : Graph.Maps (fun j => Lasting (may j)) g (g.request id mark) :=
  Graph.maps_modify (fun j => Lasting.refl (may j)) g id
    fun _ _ => ⟨rfl, fun hnot => absurd hid hnot, fun hnot => absurd hid hnot⟩

/-- A computed value that may be out of date is trusted again when nothing that it read has
changed. -/
theorem settles_request {s : State} {y : String} {id : NodeId} {n : Graph.Node} (hs : s.Sound rank)
    (hy : s.lookup y = some id) (hn : s.graph.find? id = some n) (hkind : n.kind = .derived)
    (hmark : n.mark = .maybeDirty) (hrun : s.tracking.isRunning id = false)
    (hsame : ∀ seen ∈ n.dependencies,
      s.graph.epoch? seen.node = some seen.epoch ∧ s.Trusted seen.node) :
    Settles rank (rank y + 1) s (s.modifyGraph (·.request id .clean)) ∧
      (s.modifyGraph (·.request id .clean)).Trusted id := by
  have hclean : n.mark ≠ .clean := by simp [hmark]
  have hunder : s.Under rank (rank y + 1) id := ⟨y, hy, Nat.lt_succ_self _⟩
  refine ⟨⟨rfl, fun _ => rfl, fun _ => Or.inl rfl, maps_request _ _ hunder, ?_, ?_⟩, ?_⟩
  · intro j hj
    exact ⟨(hj.request hn hclean hkind s.tracking fun _ _ => rfl).2, epoch?_request _ _ _ _⟩
  · refine hs.clean_mark hn hclean s.tracking (fun _ _ => rfl) (Or.inr ⟨?_, hrun, hsame⟩) hkind
    simp [hmark]
  · intro m hm _
    rw [modifyGraph, find?_request_self hn, Option.some.injEq] at hm
    subst hm
    exact ⟨rfl, hrun⟩

section

variable {s s₁ : State} {y : String} {id : NodeId} {n : Graph.Node} {p : Program}
  {old : Option Json} {out : Outcome} {reads : List NodeId} (hs : s.Sound rank)
  (hy : s.lookup y = some id) (hkind : s.kinds[id.index]? = some .derived)
  (hrun : s.tracking.isRunning id = false) (hn : s.graph.find? id = some n)
  (hcell : s.cells[id]? = some (.computed p old))
  (h : (s.startRun id).Observes rank s₁ (rank y) p (.derived id) [] s.tracking.sections out reads)
  (ht : s₁.Tame)

include hs hy hn h in
/-- The node at hand is behind its run as it was when the run started. -/
theorem find?_observed :
    ∃ n₁, s₁.graph.find? id = some n₁ ∧ n₁.kind = n.kind ∧ n₁.mark = .clean := by
  have hself : ¬ s.Under rank (rank y) id := hs.not_under_self hy
  have hstarted : (s.startRun id).graph.find? id = some (n.request .clean) :=
    find?_request_self hn .clean
  obtain ⟨n₁, hn₁, hlasting⟩ := h.settles.nodes.exists_new hstarted
  exact ⟨n₁, hn₁, hlasting.kind, hlasting.mark hself⟩

include hs hy hcell h in
/-- The run leaves what the computed value kept. -/
theorem cell_observed : s₁.cells[id]? = some (.computed p old) := by
  have hself : ¬ s.Under rank (rank y) id := hs.not_under_self hy
  rcases h.settles.cells id with hsame | ⟨hunder, -⟩
  · rw [hsame]
    exact hcell
  · exact absurd hunder hself

include hs hy hrun hn hcell h ht in
/-- The end of the run of a computed value. -/
theorem finished_observed :
    s₁.Finished ((s₁.endRun id).keepValue id out.get) id p out.get reads := by
  obtain ⟨n₁, hn₁, -⟩ := find?_observed hs hy hn h
  refine finished_endRun ht hn₁ (cell_observed hs hy hcell h) h.sections hrun ?_ out.get
  rintro r hr rfl
  exact hs.not_under_self hy (h.settles.under.1 (h.reliable r hr).under)

include hs hy hkind hrun hn hcell h ht in
/-- What is kept and read behind the run is sound. -/
theorem sound_observed (hi : s₁.Intact) :
    ((s₁.endRun id).keepValue id out.get).Sound rank := by
  obtain ⟨n₁, hn₁, hkind₁, -⟩ := find?_observed hs hy hn h
  have hnkind : n₁.kind = .derived := by
    have hknown := hs.node id n hn
    rw [hkind, Option.some.injEq] at hknown
    rw [hkind₁, hknown]
  have hrun₁ : s₁.tracking.isRunning id = true := by
    rw [h.settles.running id]
    simp [startRun, modifyTracking, Tracking.Observer.node?]
  have hy₁ : s₁.lookup y = some id := by
    rw [h.settles.lookup]
    exact hy
  refine (finished_observed hs hy hrun hn hcell h ht).sound h.settles.sound ht hi hn₁ hnkind hrun₁
    (cell_observed hs hy hcell h) hy₁ (fun r hr =>
      ⟨(h.reliable r hr).under, (h.reliable r hr).trusted⟩)
    fun look val hlook hval => ?_
  rw [h.outcome look val (hlook.of_eq h.settles.lookup) fun r hr => by
    rw [hval r hr, h.settles.evaluate]]

include h in
/-- The section of the run is closed behind it. -/
theorem tracking_observed : ((s₁.endRun id).keepValue id out.get).tracking = s.tracking := by
  rw [keepValue_rest]
  show s₁.tracking.leave.2 = s.tracking
  rw [Tracking.leave, h.sections]

include h in
/-- All but the graph and what lies behind the nodes is as before. -/
theorem rest_observed : (s₁.endRun id).keepValue id out.get = { s with
    graph := ((s₁.endRun id).keepValue id out.get).graph
    cells := ((s₁.endRun id).keepValue id out.get).cells
    tracking := ((s₁.endRun id).keepValue id out.get).tracking } := by
  have hkept := keepValue_rest (s₁.endRun id) id out.get
  have hsame := congrArg (fun r : State => { r with
    graph := ((s₁.endRun id).keepValue id out.get).graph
    cells := ((s₁.endRun id).keepValue id out.get).cells
    tracking := ((s₁.endRun id).keepValue id out.get).tracking }) h.settles.rest
  refine (hkept.trans ?_).trans hsame
  rw [tracking_observed h, endRun, Tracking.leave, h.sections]

include hs hy hkind hrun hn hcell h ht in
/-- The end of the run of a computed value: it is trusted, and nothing but reading was done. -/
theorem settles_endRun (hmark : n.mark ≠ .clean) (hi : s₁.Intact) :
    Settles rank (rank y + 1) s ((s₁.endRun id).keepValue id out.get) ∧
      ((s₁.endRun id).keepValue id out.get).tracking = s.tracking ∧
      ((s₁.endRun id).keepValue id out.get).Trusted id := by
  have hfinished := finished_observed hs hy hrun hn hcell h ht
  have htracking := tracking_observed h
  have hunder : s.Under rank (rank y + 1) id := ⟨y, hy, Nat.lt_succ_self _⟩
  have hread := h.settles.mono (Nat.le_succ _)
  obtain ⟨n₁, hn₁, -, hmark₁⟩ := find?_observed hs hy hn h
  obtain ⟨n₂, hn₂, hkind₂, hmark₂, -⟩ := hfinished.own n₁ hn₁
  refine ⟨⟨rest_observed h, fun j => by rw [htracking], ?_, ?_, ?_,
    sound_observed hs hy hkind hrun hn hcell h ht hi⟩, htracking, ?_⟩
  · intro j
    by_cases hj : j = id
    · subst hj
      exact Or.inr ⟨hunder, p, old, out.get, hcell, hfinished.cell⟩
    · rw [hfinished.others j hj]
      exact hread.cells j
  · refine (maps_request s.graph .clean hunder).trans (fun _ _ _ _ h1 h2 => h1.trans h2)
      (hread.nodes.trans (fun _ _ _ _ h1 h2 => h1.trans h2) fun j => ?_)
    by_cases hj : j = id
    · subst hj
      rw [hn₁, hn₂]
      exact .some ⟨hkind₂, fun hnot => absurd hunder hnot, fun hnot => absurd hunder hnot⟩
    · exact Graph.rel_imp (hfinished.nodes j hj) fun _ _ _ _ hr =>
        ⟨hr.kind, fun _ => hr.mark, fun _ => hr.dependencies⟩
  · intro j hj
    have hnkind : n.kind = .derived := by
      have hknown := hs.node id n hn
      rw [hkind, Option.some.injEq] at hknown
      exact hknown.symm
    obtain ⟨hne, htrusted⟩ := hj.request hn hmark hnkind (s.tracking.enter (.derived id))
      fun k hk => by simp [Tracking.Observer.node?, hk.symm]
    obtain ⟨htrusted₁, hepoch₁⟩ := h.settles.trusted j htrusted
    refine ⟨hfinished.trusted hne htrusted₁, ?_⟩
    rw [hfinished.epoch? hne, hepoch₁]
    exact epoch?_request _ _ _ _
  · intro m hm _
    rw [hn₂, Option.some.injEq] at hm
    rw [htracking]
    exact ⟨hm ▸ hmark₂.trans hmark₁, hrun⟩

end

section

variable {y : String} (h : ∀ z, rank z < rank y → Refreshes rank z) {s : State} {id : NodeId}
  (ht : s.Tame) (hs : s.Ready rank) (hy : s.lookup y = some id)
  (hkind : s.kinds[id.index]? = some .derived) (hb : s.RunsFrom rank (rank y + 1))
  {n : Graph.Node} (hn : s.graph.find? id = some n)

include hs hy hkind hb hn in
/-- A computed value that is not clean starts to run. -/
theorem ready_startRun (hmark : n.mark ≠ .clean) :
    (s.startRun id).Ready rank ∧ (s.startRun id).RunsFrom rank (rank y) := by
  have hnkind : n.kind = .derived := by
    have hknown := hs.sound.node id n hn
    rw [hkind, Option.some.injEq] at hknown
    exact hknown.symm
  have hsound : (s.startRun id).Sound rank := by
    refine hs.sound.clean_mark hn hmark (s.tracking.enter (.derived id)) ?_ ?_ hnkind
    · intro j hj
      simp [Tracking.Observer.node?, hj.symm]
    · exact Or.inl (by simp [Tracking.Observer.node?])
  have hself : ¬ s.Under rank (rank y) id := hs.sound.not_under_self hy
  refine ⟨hs.same hsound rfl rfl rfl rfl, fun j hj => ?_⟩
  by_cases hjid : j = id
  · subst hjid
    exact Or.inr ⟨hkind, hself⟩
  · refine (hb.mono (Nat.le_succ _)) j ?_
    have hj' : (s.tracking.enter (.derived id)).isRunning j = true := hj
    simpa [Tracking.Observer.node?, Ne.symm hjid] using hj'

include h ht hs hy hkind hb hn in
/-- Running a computed value that is not clean. -/
theorem ends_runCell (hmark : n.mark ≠ .clean) {p : Program} {old : Option Json}
    (hcell : s.cells[id]? = some (.computed p old)) :
    Ends False (fun κ => runCell κ id (some (.computed p old))) s fun _ s' =>
      Settles rank (rank y + 1) s s' ∧ s'.tracking = s.tracking ∧ s'.Trusted id := by
  obtain ⟨p', old', hcell', hp⟩ := hs.sound.computed id hkind
  rw [hcell, Option.some.injEq, Cell.computed.injEq] at hcell'
  obtain ⟨rfl, rfl⟩ := hcell'
  have hrun := hb.isRunning_eq_false hkind ⟨y, hy, Nat.lt_succ_self _⟩
  have ht₁ := (keeps_request s id .clean ht).1
  have htstart : (s.startRun id).Tame := (keeps_tracking _ _ ht₁).1
  obtain ⟨hready, hruns⟩ := ready_startRun hs hy hkind hb hn hmark
  have hsections : (s.startRun id).tracking.sections = ⟨.derived id, []⟩ :: s.tracking.sections :=
    rfl
  have hexec := Ends.callEval fun hbound => ends_exec_computes h (hp y hy) htstart hready hruns
    (hbound rfl) hsections rfl fun r hr => absurd hr List.not_mem_nil
  have hstays (s : State) : Stays Json.Exact (fun κ => κ.eval p) s :=
    fun κ hκ => hκ.callEval ⟨rank, (hp y hy).acts rank⟩
  have htracked : Ends False (fun κ => tracked id (.derived id) (κ.eval p))
      (s.modifyGraph (·.request id .clean)) fun v s' => ∃ s₁ out reads, s' = s₁.endRun id ∧
        v = out.get ∧ s₁.Tame ∧ s₁.Intact ∧ (s.startRun id).Observes rank s₁ (rank y) p
          (.derived id) [] s.tracking.sections out reads := by
    refine .tracked ht₁ hstays hexec ?_
    rintro v s₁ _ ht' _ hi' ⟨out, rfl, reads, hobserves⟩
    exact ⟨s₁, out, reads, rfl, rfl, ht', hi', hobserves⟩
  refine .change (.bind ht₁ (fun κ hκ => staysAt_tracked fun s => hstays s κ hκ) htracked
    (fun v s' hv _ κ _ => .step (keeps_keepValue s' id hv)) ?_)
  rintro v s' _ _ _ _ ⟨s₁, out, reads, rfl, rfl, ht', hi', hobserves⟩
  exact .step (settles_endRun hs.sound hy hkind hrun hn hcell hobserves ht' hmark hi')

include h ht hs hy hkind hb hn in
/-- A computed value that runs again settles what ranks up to it. -/
theorem ends_rerun (hmark : n.mark ≠ .clean) :
    Ends False (fun κ => rerun κ id) s fun _ s' =>
      Settles rank (rank y + 1) s s' ∧ s'.tracking = s.tracking ∧ s'.Trusted id := by
  obtain ⟨p, old, hcell, -⟩ := hs.sound.computed id hkind
  have hcontains : s.graph.contains id = true := by rw [Graph.contains_eq, hn]; rfl
  have hrun := hb.isRunning_eq_false hkind ⟨y, hy, Nat.lt_succ_self _⟩
  have hstays (s : State) : Stays Anything (fun κ => runCell κ id (some (.computed p old))) s :=
    fun κ hκ => staysAt_runCell hκ id fun c hc => by
      rw [Option.mem_some_iff] at hc
      exact hc ▸ ht.cells id _ hcell
  refine .look ?_
  simp only [hrun, hcontains, hcell, Bool.false_eq_true, if_false, if_true]
  refine .holdingValue ht (Or.inr hkind) hstays (ends_runCell h (keeps_hold s _ ht).1 (hs.hold _)
    hy hkind hb hn hmark hcell) ?_
  rintro _ s' _ _ _ _ ⟨hsettles, htracking, htrusted⟩
  exact ⟨hsettles.hold, htracking, htrusted⟩

include h ht hs hy hkind hb hn in
/-- A computed value that may be out of date runs again if something that it read has changed. -/
theorem ends_refresh_maybeDirty (hmark : n.mark = .maybeDirty) (hnkind : n.kind = .derived) :
    Ends False (fun κ => dependenciesChanged κ n.dependencies >>= fun changed =>
      if changed = true then rerun κ id else modify (·.modifyGraph (·.request id .clean))) s
        fun _ s' => Settles rank (rank y + 1) s s' ∧ s'.tracking = s.tracking ∧ s'.Trusted id := by
  have hrun := hb.isRunning_eq_false hkind ⟨y, hy, Nat.lt_succ_self _⟩
  have hsources : ∀ seen ∈ n.dependencies, s.Under rank (rank y) seen.node := by
    intro seen hseen
    obtain ⟨z, hz, hunder⟩ := (hs.sound.linked id n hn hnkind seen hseen).ranked
    obtain rfl := hs.sound.unique y z id hy hz
    exact hunder
  refine .bind ht (fun κ hκ => staysAt_dependenciesChanged hκ _)
    (ends_dependenciesChanged h n.dependencies ht hs (hb.mono (Nat.le_succ _))
      fun seen hseen _ => hsources seen hseen)
    (fun changed _ _ _ κ hκ => staysAt_rerunIf hκ id changed) ?_
  rintro changed s₁ _ ht₁ _ _ ⟨hsettles, htracking, hsame⟩
  -- The node itself has not changed meanwhile.
  have hself : ¬ s.Under rank (rank y) id := hs.sound.not_under_self hy
  obtain ⟨n₁, hn₁, hlasting⟩ := hsettles.nodes.exists_new hn
  have hmark₁ : n₁.mark = .maybeDirty := (hlasting.mark hself).trans hmark
  have hkind₁ : s₁.kinds[id.index]? = some .derived := by rwa [hsettles.kinds]
  have hy₁ : s₁.lookup y = some id := by rwa [hsettles.lookup]
  have hsettles' := hsettles.mono (Nat.le_succ (rank y))
  cases changed with
  | true =>
    simp only [if_true]
    refine (ends_rerun h ht₁ (hsettles.ready hs) hy₁ hkind₁ (hsettles.runsFrom hb) hn₁
      (by simp [hmark₁])).imp ?_
    rintro _ s₂ ⟨hsettles₂, htracking₂, htrusted⟩
    exact ⟨hsettles'.trans hsettles₂, htracking₂.trans htracking, htrusted⟩
  | false =>
    simp only [Bool.false_eq_true, if_false]
    have hdeps : n₁.dependencies = n.dependencies := hlasting.dependencies hself
    obtain ⟨hclean, htrusted⟩ := settles_request hsettles.sound hy₁ hn₁
      (hlasting.kind.trans hnkind) hmark₁ (by rwa [htracking]) (hdeps ▸ hsame rfl)
    exact .step ⟨hsettles'.trans hclean, htracking, htrusted⟩

end

/-- Every computed value can be brought up to date, by induction on the rank of its name. -/
theorem refreshes (rank : String → Nat) (y : String) : Refreshes rank y := by
  have hranked (k : Nat) : ∀ y : String, rank y = k → Refreshes rank y := by
    induction k using Nat.strongRecOn with
    | ind k ih =>
      rintro y rfl s id ht hs hy hkind hb
      have hlower : ∀ z, rank z < rank y → Refreshes rank z := fun z hz => ih _ hz z rfl
      refine .intact ht (fun κ hκ => staysAt_refresh hκ id) fun hi => .look ?_
      obtain ⟨n, hn, hnkind⟩ := hs.sound.find?_derived hi hkind
      simp only [hn]
      cases hmark : n.mark with
      | clean =>
        refine .ret ⟨.refl _ hs.sound, rfl, ?_⟩
        intro m hm _
        rw [hn, Option.some.injEq] at hm
        exact ⟨hm ▸ hmark, hb.isRunning_eq_false hkind ⟨y, hy, Nat.lt_succ_self _⟩⟩
      | dirty => exact ends_rerun hlower ht hs hy hkind hb hn (by simp [hmark])
      | maybeDirty => exact ends_refresh_maybeDirty hlower ht hs hy hkind hb hn hmark hnkind
  exact hranked _ y rfl

end

end Engine

end Rivulet
