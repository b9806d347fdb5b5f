import Rivulet.Proofs.Reactive.Settling

/-!
# Reads are never stale

A program that acts starts where nothing was created yet. With enough depth it ends, and each read
of a computed value in it has given what recursive evaluation gives on the values that the signals
had then, wherever it was made. Computed values may read what is created after them, as long as it
is there when they run.
-/

namespace Rivulet

/-- Nothing is found in an empty graph. -/
theorem Graph.find?_empty (id : NodeId) : ({} : Graph).find? id = none := by
  simp [find?]

/-- The program that gives what a name stands for. -/
def Program.echo (x : String) : Program := .op (.get x) fun v => .stop (.value (v.getD .null))

/-- A computed value that echoes a signal which is created after it, and a read of it. -/
def Program.sample : Program :=
  .install (.computed (some "c")) (fun _ => .echo "a") fun _ =>
    .op (.signal (some "a") (.int 1)) fun _ => .echo "c"

namespace Engine

open State

namespace State

private theorem tame_initial : ({} : State).Tame where
  cells id c hc := by simp at hc
  scopes id sc hsc := by simp at hsc
  deferred t ht := absurd ht List.not_mem_nil
  uncaught := rfl
  clients := by simp

/-- At first no name stands for anything. -/
theorem lookup_initial (x : String) : ({} : State).lookup x = none := rfl

private theorem coherent_initial (rank : String → Nat) : ({} : State).Coherent rank where
  node id n hn := by simp [Graph.find?_empty] at hn
  signal id hid := by simp at hid
  computed id hid := by simp at hid
  effect id e he := by simp at he
  value x id hx := by simp [lookup_initial] at hx
  unique x y id hx := by simp [lookup_initial] at hx

private theorem sound_initial (rank : String → Nat) : ({} : State).Sound rank where
  toCoherent := coherent_initial rank
  linked id n hn := by simp [Graph.find?_empty] at hn
  clean id n hn := by simp [Graph.find?_empty] at hn
  settled id n hn := by simp [Graph.find?_empty] at hn

private theorem calm_initial (rank : String → Nat) : ({} : State).Calm rank where
  sound := sound_initial rank
  typed x h hx := by simp [handle?] at hx
  waiting id hid := absurd hid List.not_mem_nil
  resting id hid := by simp [Tracking.isRunning] at hid
  behind id c hid := by simp at hid

end State

/-- Kernels, one for each depth, that answer a call by going one call deeper, unless a computed
value is about to read a name that stands for nothing. -/
def Deepens (κ : Nat → Kernel) : Prop :=
  ∀ (n : Nat) (c : Call) (s : State), (∀ p, c = .exec p → s.Bound p) →
    κ (n + 1) c s = answer (κ n) c s

/-- The engine goes deeper with its kernel. -/
theorem deepens_kernel : Deepens kernel := fun _ _ _ _ => rfl

private theorem deepens_wary (message : String) : Deepens (wary message) := by
  intro n c s hbound
  cases c with
  | exec p => exact if_pos (hbound p rfl)
  | _ => rfl

/-- What is done while a node is in use, and ends well. -/
theorem holding_ok {α : Type} {x : Run α} {id : NodeId} {s s' : State} {a : α}
    (h : x (s.hold (.node id)) = .ok a s') : holding id x s = .ok a (s'.unhold (.node id)) :=
  guarding_ok h _

/-- To give the value of a readable name is to compute. -/
theorem computes_echo {readable : String → Prop} {x : String} (h : readable x) :
    (Program.echo x).Computes readable := by
  refine .get h fun a ha => .stop ?_
  cases a with
  | none => exact Json.exact_null
  | some v => exact ha v rfl

private theorem acts_echo {rank : String → Nat} (x : String) : (Program.echo x).Acts rank := by
  have hcomputes : (Program.echo x).Computes fun _ => True := computes_echo trivial
  exact hcomputes.acts rank

private theorem bound_echo {s : State} {x : String} {a : NodeId}
    (hx : s.handle? x = some (.signal a)) :
    s.Bound (Program.echo x) := by
  intro _ y hy
  obtain rfl : y = x := List.mem_singleton.1 hy
  rw [State.lookup, hx]
  rfl

private theorem exec_echo (κ : Kernel) {s : State} {x : String} {a : NodeId}
    (hx : s.handle? x = some (.signal a)) : exec κ (Program.echo x) s =
      .ok (.value (s.signalValue a)) (s.modifyTracking (·.record a)) := by
  have hread : Engine.read κ x s = .ok (some (s.signalValue a))
      (s.modifyTracking (·.record a)) := by
    rw [Engine.read, run_get, hx]
    rfl
  exact run_bind_ok hread

/-- An echo of a signal reads the signal and gives its value. -/
theorem tracked_echo {κ : Nat → Kernel} (hκ : Deepens κ) (n : Nat) {s : State} {x : String}
    {a : NodeId} (id : NodeId) (hx : s.handle? x = some (.signal a)) :
    tracked id (.derived id) ((κ (n + 1)).eval (Program.echo x)) s =
      .ok (s.signalValue a) { s with graph := s.graph.setDependencies id [a] } := by
  have hbound : (s.modifyTracking (·.enter (.derived id))).Bound (Program.echo x) := bound_echo hx
  have hecho : (κ (n + 1)).exec (Program.echo x) (s.modifyTracking (·.enter (.derived id))) =
      .ok (.value (s.signalValue a))
        ((s.modifyTracking (·.enter (.derived id))).modifyTracking (·.record a)) :=
    (hκ n _ _ (by rintro _ ⟨⟩; exact hbound)).trans (exec_echo (κ n) hx)
  have heval : (κ (n + 1)).eval (Program.echo x) (s.modifyTracking (·.enter (.derived id))) =
      .ok (s.signalValue a)
        ((s.modifyTracking (·.enter (.derived id))).modifyTracking (·.record a)) :=
    run_bind_ok hecho
  exact run_bind_ok (onInterrupt_ok heval _)

/-- The state behind the first read of a computed value that echoes a signal. -/
def State.echoed (s : State) (c a : NodeId) (x : String) : State :=
  { s with
    graph := ((s.graph.request c .clean).setDependencies c [a]).bump c
    cells := s.cells.insert c (.computed (Program.echo x) (some (s.signalValue a))) }

section

variable {κ : Nat → Kernel} (hκ : Deepens κ) {s : State} {c a : NodeId} {x y : String}
  {m : Graph.Node} (hm : s.graph.find? c = some m) (hmark : m.mark = .dirty)
  (hcell : s.cells[c]? = some (.computed (Program.echo x) none))
  (hx : s.handle? x = some (.signal a)) (hy : s.lookup y = some c)
  (hsections : s.tracking.sections = [])

include hκ hcell hx in
/-- A computed value that echoes a signal keeps the value of the signal. -/
theorem runCell_echo (n : Nat) : runCell (κ (n + 1)) c s.cells[c]? s =
    .ok () (s.echoed c a x) := by
  have hkeep : { s with graph := (s.graph.request c .clean).setDependencies c [a] }.keepValue c
      (s.signalValue a) = s.echoed c a x := by
    rw [keepValue]
    simp only [hcell, isCurrent, Bool.false_eq_true, if_false]
    rfl
  rw [hcell, ← hkeep]
  exact run_bind_ok (tracked_echo hκ n (s := s.modifyGraph (·.request c .clean)) c hx)

include hy in
/-- An echo leaves nothing in use. -/
theorem unhold_echoed :
    ((s.hold (.node c)).echoed c a x).unhold (.node c) = s.echoed c a x := by
  have hheld : { (s.hold (.node c)).echoed c a x with
      held := ((s.hold (.node c)).echoed c a x).held.erase (.node c) } = s.echoed c a x := by
    rw [State.echoed, State.hold, List.erase_cons_head]
    rfl
  have hkeeps : (s.echoed c a x).keepsNode c = true := keepsNode_of_lookup (x := y) hy
  show State.releaseNode _ c = _
  rw [hheld, releaseNode]
  have hself : (s.echoed c a x).cells[c]? =
    some (.computed (Program.echo x) (some (s.signalValue a))) := Std.HashMap.getElem?_insert_self
  rw [hself]
  show (s.echoed c a x).dropNode c = _
  rw [dropNode, if_pos hkeeps]

include hκ hm hcell hx hy hsections in
/-- An echo that runs again keeps the value of the signal. -/
theorem rerun_echo (n : Nat) : rerun (κ (n + 1)) c s = .ok () (s.echoed c a x) := by
  have hcontains : s.graph.contains c = true := by rw [Graph.contains_eq, hm]; rfl
  have hidle : s.tracking.isRunning c = false := by rw [Tracking.isRunning, hsections]; rfl
  have hrun : rerun (κ (n + 1)) c s = (do
      if s.tracking.isRunning c then panicWith cycleMessage
      if s.graph.contains c then holding c (runCell (κ (n + 1)) c s.cells[c]?)) s := rfl
  rw [hrun, hidle, hcontains, ← unhold_echoed hy]
  exact holding_ok (runCell_echo hκ (s := s.hold (.node c)) hcell hx n)

include hκ hm hmark hcell hx hy hsections in
/-- The first read of a computed value that echoes a signal. -/
theorem readComputed_echo (n : Nat) :
    readComputed (κ (n + 2)) c s = .ok (s.signalValue a) (s.echoed c a x) := by
  have hrecord : (s.hold (.node c)).modifyTracking (·.record c) = s.hold (.node c) := by
    rw [modifyTracking, Tracking.record]
    simp only [State.hold, hsections]
  have hrefresh : refresh (κ (n + 1)) c (s.hold (.node c)) =
      .ok () ((s.hold (.node c)).echoed c a x) := by
    have hm' : (s.hold (.node c)).graph.find? c = some m := hm
    rw [refresh, run_get, hm']
    simp only [hmark]
    exact rerun_echo hκ (s := s.hold (.node c)) hm hcell hx hy hsections n
  have hfresh : ensureFresh (κ (n + 2)) c (s.hold (.node c)) =
      .ok () ((s.hold (.node c)).echoed c a x) := by
    have hcontains : (s.hold (.node c)).graph.contains c = true := by
      rw [Graph.contains_eq, State.hold, hm]
      rfl
    have hanswer : κ (n + 2) (.refresh c) (s.hold (.node c)) =
        .ok (.value .null) ((s.hold (.node c)).echoed c a x) :=
      (hκ (n + 1) _ _ (by simp)).trans (run_bind_ok hrefresh)
    rw [ensureFresh, run_get, if_pos hcontains]
    exact run_bind_ok hanswer
  have hkept : keptValue c ((s.hold (.node c)).echoed c a x) =
      .ok (s.signalValue a) ((s.hold (.node c)).echoed c a x) := by
    have hself : ((s.hold (.node c)).echoed c a x).cells[c]? =
      some (.computed (Program.echo x) (some (s.signalValue a))) := Std.HashMap.getElem?_insert_self
    rw [keptValue, run_get, hself]
    rfl
  rw [← unhold_echoed hy]
  refine holding_ok ?_
  show (ensureFresh (κ (n + 2)) c >>= fun _ => keptValue c)
    ((s.hold (.node c)).modifyTracking (·.record c)) = _
  rw [hrecord]
  exact (run_bind_ok hfresh).trans hkept

end

/-- No node is gone behind the read, and none has changed more than once. -/
theorem find?_echoed {s : State} {c a : NodeId} {x : String} {m : Graph.Node}
    (hm : s.graph.find? c = some m) {j : NodeId} {n : Graph.Node} (hn : s.graph.find? j = some n) :
    ∃ n', (s.echoed c a x).graph.find? j = some n' ∧ n'.changes ≤ n.changes + 1 := by
  have hrequest : Graph.Maps (fun _ n n' => n'.changes = n.changes) s.graph
      (s.graph.request c .clean) :=
    Graph.maps_modify (R := fun _ n n' => n'.changes = n.changes) (fun _ _ => rfl) s.graph c
      fun _ _ => rfl
  have hc : (s.graph.request c .clean).find? c = some (m.request .clean) := by
    rw [Graph.request, Graph.find?_modify_self, hm]
    rfl
  obtain ⟨n₁, hn₁, hsame⟩ := hrequest.exists_new hn
  obtain ⟨n₂, hn₂, hrewired⟩ := (Graph.maps_setDependencies hc [a]).exists_new hn₁
  have hbump : Graph.Maps (fun _ n n' => n'.changes ≤ n.changes + 1)
      ((s.graph.request c .clean).setDependencies c [a])
      (((s.graph.request c .clean).setDependencies c [a]).bump c) :=
    Graph.maps_modify (fun _ n => Nat.le_succ n.changes) _ _ fun _ _ => Nat.le_refl _
  obtain ⟨n₃, hn₃, hle⟩ := hbump.exists_new hn₂
  refine ⟨n₃, hn₃, ?_⟩
  have hchanges := hrewired.changes
  rw [apply_ite Graph.Node.changes, ite_self, hsame] at hchanges
  omega

/-- A run ends without some breakdown. -/
theorem exists_ne_panic (r : EStateM.Result Interrupt State Outcome) :
    ∃ message, ∀ s, r ≠ .error (.panic message) s := by
  cases r with
  | ok o s => exact ⟨"", fun s' => by simp⟩
  | error e s =>
    cases e with
    | panic message =>
      refine ⟨message ++ "!", fun s' heq => ?_⟩
      have hlength := congrArg String.length (Interrupt.panic.inj (EStateM.Result.error.inj heq).1)
      simp at hlength
    | _ => exact ⟨"", fun s' => by simp⟩

/-- A run of a program that creates, writes and reads signals, computed values and effects ends. No
computed value reads a name whose rank is not below its own, so none depends on itself, but what it
reads may be created after it. If no signal or computed value was dropped in the run, and no
computed value read a name that stood for nothing, so that breaking down there would make no
difference, then all reads of computed values have given what recursive evaluation gives: no audit
interrupts the run. -/
theorem exec_audited_eq {rank : String → Nat} {p : Program} (hp : p.Acts rank) :
    ∃ depth, ∀ n, depth ≤ n → (finalState (exec (kernel n) p {})).Intact →
      (∀ message, exec (wary message n) p {} = exec (kernel n) p {}) →
        exec (audited n) p {} = exec (kernel n) p {} ∧
          ∀ s, exec (kernel n) p {} ≠ .error .outOfFuel s := by
  have hacts : ActsOut rank (fun _ => True) p := actsOut (settling_all rank) trivial hp
  obtain ⟨r, depth, hr⟩ :=
    hacts {} tame_initial (calm_initial rank) (fun _ => ⟨rfl, rfl⟩) trivial
  refine ⟨depth, fun n hn hi hwary => ?_⟩
  obtain ⟨message, hmessage⟩ := exists_ne_panic (exec (kernel n) p {})
  have hproper : Proper message n (fun κ => exec κ p) {} :=
    ⟨hi, fun s hs => hmessage s ((hwary message).symm.trans hs)⟩
  obtain ⟨hruns, hend⟩ := hr message n hn hproper
  refine ⟨(hruns _ .audited).trans (hruns _ .plain).symm, fun s hs => ?_⟩
  obtain rfl : r = .error .outOfFuel s := (hruns _ .plain).symm.trans hs
  cases hend

/-- The state in which the sample has created its values. -/
def State.sample : State where
  graph := (({} : Graph).insert ⟨0⟩ (.new .derived)).insert ⟨1⟩ (.new .source)
  cells := (({} : Std.HashMap NodeId Cell).insert ⟨0⟩ (.computed (.echo "a") none)).insert ⟨1⟩
    (.signal (.int 1))
  kinds := #[.derived, .source]
  names := [("a", .signal ⟨1⟩), ("c", .computed ⟨0⟩)]

/-- The computed value of the sample has not run. -/
theorem find?_sample_computed : State.sample.graph.find? ⟨0⟩ = some (.new .derived) := by
  rw [State.sample, Graph.find?_insert_of_ne _ (by simp), Graph.find?_insert_self]

/-- The signal of the sample has not changed. -/
theorem find?_sample_signal : State.sample.graph.find? ⟨1⟩ = some (.new .source) :=
  Graph.find?_insert_self _ _ _

/-- The signal of the sample holds one. -/
theorem signalValue_sample : State.sample.signalValue ⟨1⟩ = .int 1 := by
  have hsignal : State.sample.cells[(⟨1⟩ : NodeId)]? = some (.signal (.int 1)) :=
    Std.HashMap.getElem?_insert_self
  rw [State.signalValue, hsignal]

/-- The sample reads its computed value, which reads a signal that was created later. -/
theorem exec_sample {κ : Nat → Kernel} (hκ : Deepens κ) (n : Nat) :
    exec (κ (n + 3)) .sample {} =
      .ok (.value (.int 1)) (State.sample.echoed ⟨0⟩ ⟨1⟩ "a") := by
  have hcell : State.sample.cells[(⟨0⟩ : NodeId)]? = some (.computed (.echo "a") none) := by
    rw [State.sample, Std.HashMap.getElem?_insert, if_neg (by simp),
      Std.HashMap.getElem?_insert_self]
  have hlookup : State.sample.lookup "c" = some ⟨0⟩ := rfl
  have hanswer : κ (n + 3) (.read ⟨0⟩) State.sample =
      .ok (.value (State.sample.signalValue ⟨1⟩)) (State.sample.echoed ⟨0⟩ ⟨1⟩ "a") :=
    (hκ (n + 2) _ _ (by simp)).trans
      (run_bind_ok (readComputed_echo hκ find?_sample_computed rfl hcell rfl hlookup rfl n))
  rw [signalValue_sample] at hanswer
  have hread : (κ (n + 3)).read ⟨0⟩ State.sample =
      .ok (.int 1) (State.sample.echoed ⟨0⟩ ⟨1⟩ "a") := run_bind_ok hanswer
  have hname : Engine.read (κ (n + 3)) "c" State.sample =
      .ok (some (.int 1)) (State.sample.echoed ⟨0⟩ ⟨1⟩ "a") := run_bind_ok hread
  exact run_bind_ok hname

/-- Behind the sample everything is as it was created. -/
theorem intact_sample : (State.sample.echoed ⟨0⟩ ⟨1⟩ "a").Intact := by
  have hboth (id : NodeId) (hid : (State.sample.echoed ⟨0⟩ ⟨1⟩ "a").IsValue id) :
      id = ⟨0⟩ ∨ id = ⟨1⟩ := by
    obtain ⟨i⟩ := id
    have hlt : i < 2 := hid.lt_size
    simp only [NodeId.mk.injEq]
    omega
  constructor
  · intro id hid
    have hnew : ∃ kind, State.sample.graph.find? id = some (.new kind) := by
      rcases hboth id hid with rfl | rfl
      · exact ⟨_, find?_sample_computed⟩
      · exact ⟨_, find?_sample_signal⟩
    obtain ⟨kind, hkind⟩ := hnew
    obtain ⟨n, hn, hle⟩ := find?_echoed (a := ⟨1⟩) (x := "a") find?_sample_computed hkind
    have hsmall : (Graph.Node.new kind).changes + 1 < UInt64.size := by
      show 1 < UInt64.size
      decide
    exact ⟨n, hn, Nat.lt_of_le_of_lt hle hsmall⟩
  · intro id hid
    rcases hboth id hid with rfl | rfl
    · exact ⟨"c", rfl⟩
    · exact ⟨"a", rfl⟩

private theorem acts_sample : Program.sample.Acts fun x => if x = "c" then 1 else 0 :=
  .computed (computes_echo (by simp)) (.signal (Json.exact_ofNat 1) (acts_echo "c"))

/-- A read that is checked in full: the sample is run with an audit and gives the same. -/
theorem exec_audited_sample : ∃ depth, ∀ n, depth ≤ n →
    exec (audited (n + 3)) Program.sample {} =
      .ok (.value (.int 1)) (State.sample.echoed ⟨0⟩ ⟨1⟩ "a") := by
  obtain ⟨depth, h⟩ := exec_audited_eq acts_sample
  refine ⟨depth, fun n hn => ?_⟩
  have hrun := exec_sample deepens_kernel n
  have hi : (finalState (exec (kernel (n + 3)) Program.sample {})).Intact := by
    rw [hrun]
    exact intact_sample
  have hwary (message : String) : exec (wary message (n + 3)) Program.sample {} =
      exec (kernel (n + 3)) Program.sample {} := by
    rw [hrun, exec_sample (deepens_wary message)]
  rw [(h (n + 3) (by omega) hi hwary).1, hrun]

end Engine

end Rivulet
