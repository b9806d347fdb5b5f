import Rivulet.Proofs.Disposal.Orderly
import Rivulet.Proofs.Reactive.Computing
import Rivulet.Proofs.Scopes.Climbing
import Rivulet.Proofs.Watching.Interpreting

/-!
# Where errors go

An error is handed to the nearest handler at once. One that nobody takes gets in line, and what is
in line is done one after the other, first come first served, while no flush is under way: nothing
gets lost, and nothing is done twice. A flush that is not broken off leaves nobody in line. This is
said of all errors that are reported while something runs, as an observer sees them.
-/

namespace Rivulet.Engine

variable {s s' : State}

/-- Scopes stay behind their parents. -/
theorem State.descending_change (h : s.scopes.Descending) (hstep : Change s s') :
    s'.scopes.Descending := by
  have hadopted {s : State} (h : s.scopes.Descending) (id : NodeId) :
      (s.adopted id).scopes.Descending := by
    unfold State.adopted
    split
    · exact h.modify fun _ => rfl
    · exact h
  cases hstep with
  | aside hsame => exact hsame.scopes ▸ h
  | keep id v =>
    unfold State.keepValue
    split
    · split <;> exact h
    · exact h
  | drop id =>
    unfold State.dropNode
    split <;> exact h
  | newComputed p => exact hadopted (s := s.withNode .derived (.computed p none)) h _
  | newEffect reaction supply =>
    exact hadopted (s := (s.withScope s.scopes.current?).withNode .effect _) (h.create _) _
  | newScope parent => exact h.create parent
  | enterScope id => exact h.shrink rfl fun hx => ⟨_, hx, rfl⟩
  | leaveScope id => exact h.shrink rfl fun hx => ⟨_, hx, rfl⟩
  | cleanup c hadded =>
    obtain ⟨id, rfl⟩ := Scopes.addCleanup?_eq hadded
    exact h.modify fun _ => rfl
  | handler id hnew => exact h.modify fun _ => rfl
  | removeScope id => exact h.remove
  | stripScope id => exact h.strip
  | _ => exact h

private theorem State.descending_passage (h : s.scopes.Descending) (hstep : Passage s s') :
    s'.scopes.Descending := by
  cases hstep with
  | schedule id hid =>
    unfold State.scheduled
    split <;> exact h
  | _ => exact h

/-- The law that scopes are younger than their parents. -/
def descent : Law :=
  .of (·.scopes.Descending) (fun _ h hstep => State.descending_change h hstep)
    fun _ h hstep => State.descending_passage h hstep

/-- In a run scopes stand behind their parents. -/
theorem State.Reached.descending (h : s.Reached) : s.scopes.Descending :=
  (h.holds descent fun procedures => ⟨typed_start procedures, Scopes.descending_empty⟩).2

/-- Hands an error to a handler. -/
def hand (κ : Kernel) : Handler → String → Run Unit
  | .program p, error => κ.perform (p (.str error))
  | .boundary b, error => catchError b error

/-- An error that was raised in a scope is handed to the nearest handler. -/
theorem reportError_nearest (hs : s.scopes.Descending) {x : ScopeId} {handler : Handler}
    (h : s.scopes.Nearest handler x) (κ : Kernel) (error : String) :
    reportError κ (some x) error s = hand κ handler error s := by
  have hfind := (Scopes.findHandler_eq_some_iff hs).2 h
  rw [reportError, run_get]
  simp only [Option.bind_some, hfind]
  cases handler <;> rfl

/-- An error that nobody takes gets in line. -/
theorem reportError_nobody (hs : s.scopes.Descending) {scope : Option ScopeId}
    (h : ∀ x ∈ scope, ∀ handler, ¬ s.scopes.Nearest handler x) (κ : Kernel) (error : String) :
    reportError κ scope error s =
      .ok () { s with deferred := s.deferred ++ [.uncaught error] } := by
  have hfind : scope.bind s.scopes.findHandler = none := by
    refine Option.bind_eq_none_iff.2 fun x hx => Option.eq_none_iff_forall_ne_some.2 ?_
    exact fun handler hh => h x hx handler ((Scopes.findHandler_eq_some_iff hs).1 hh)
  rw [reportError, run_get, hfind]
  rfl

/-- What becomes of a line: whoever gets in line because of an error that is reported stands at its
end, and what is done stood at its head. What is seen is told latest first. -/
inductive Advances (line : List Deferred) : List Sight → List Deferred → Prop
  /-- Nothing is seen. -/
  | refl : Advances line [] line
  /-- A program logs a value. -/
  | logs {seen : List Sight} {l : List Deferred} (v : Json) (h : Advances line seen l) :
      Advances line (.logged v :: seen) l
  /-- An error is reported. -/
  | joins {seen : List Sight} {l : List Deferred} (i : Incident) (h : Advances line seen l) :
      Advances line (.reported i :: seen) (l ++ i.joins?.toList)
  /-- The first in line is done. -/
  | leaves {seen : List Sight} {l : List Deferred} (d : Delivery)
      (h : Advances line seen (d.task :: l)) : Advances line (.delivered d :: seen) l

private theorem Advances.trans {line l m : List Deferred} {seen more : List Sight}
    (h : Advances line seen l) (h' : Advances l more m) : Advances line (more ++ seen) m := by
  induction h' with
  | refl => exact h
  | logs v _ ih => exact .logs v ih
  | joins i _ ih => exact .joins i ih
  | leaves d _ ih => exact .leaves d ih

/-- Everyone who was in line or got in line was done or is still in line, once each and in this
order. -/
theorem Advances.once {line l : List Deferred} {seen : List Sight} (h : Advances line seen l) :
    line ++ (incidents seen).filterMap Incident.joins? = (deliveries seen).map (·.task) ++ l := by
  induction h with
  | refl => simp
  | logs v _ ih => exact ih
  | @joins seen l i _ ih =>
    have hincidents : incidents (.reported i :: seen) = incidents seen ++ [i] := by
      simp [incidents, Sight.incident?]
    have hjoins : [i].filterMap Incident.joins? = i.joins?.toList := by
      cases h : i.joins? <;> simp [h]
    rw [hincidents, List.filterMap_append, hjoins, ← List.append_assoc, ih, List.append_assoc]
    rfl
  | @leaves seen l d _ ih =>
    have hdeliveries : deliveries (.delivered d :: seen) = deliveries seen ++ [d] := by
      simp [deliveries, Sight.delivery?]
    rw [hdeliveries, List.map_append, List.append_assoc]
    exact ih

/-- The line was kept between two states, and nothing in it was done while a flush was under way. -/
structure State.InLine (s : State) (seen : List Sight) (s' : State) : Prop where
  /-- First come, first served. -/
  advances : Advances s.deferred seen s'.deferred
  /-- Everyone who was in line or got in line was done or is still in line, once each and in this
  order. -/
  once : s.deferred ++ (incidents seen).filterMap Incident.joins? =
    (deliveries seen).map (·.task) ++ s'.deferred
  /-- Nothing was done while a flush was under way. -/
  idle : ∀ d ∈ deliveries seen, d.queue.flushing = false

namespace State.InLine

variable {s'' : State} {seen more : List Sight}

/-- The line moves as what was put off does. -/
theorem of_advances (h : Advances s.deferred seen s'.deferred)
    (hidle : ∀ d ∈ deliveries seen, d.queue.flushing = false) : s.InLine seen s' :=
  ⟨h, h.once, hidle⟩

/-- A line that stays as it is. -/
theorem same (h : s'.deferred = s.deferred) : s.InLine [] s' :=
  .of_advances (h ▸ .refl) nofun

private theorem trans (h : s.InLine seen s') (h' : s'.InLine more s'') :
    s.InLine (more ++ seen) s'' := by
  refine .of_advances (h.advances.trans h'.advances) fun d hd => ?_
  rw [deliveries_append, List.mem_append] at hd
  exact hd.elim (h.idle d) (h'.idle d)

end State.InLine

/-- Nothing that the engine does brings the line out of order. -/
def lining : Conduct where
  Rel s seen s' := s'.queue.flushing = s.queue.flushing ∧ s.InLine seen s'
  Loose := State.InLine
  Refreshed _ s seen s' := s'.queue.flushing = s.queue.flushing ∧ s.InLine seen s'
  move h := by
    cases h with
    | aside _ _ hflushing hdeferred => exact ⟨hflushing, .same hdeferred⟩
    | notify id => exact ⟨(onward_markChanged _ id).flushing, .same rfl⟩
    | schedule id =>
      refine ⟨(onward_scheduled _ id).flushing, .same ?_⟩
      unfold State.scheduled
      split <;> rfl
    | _ => exact ⟨rfl, .same rfl⟩
  trans h h' := ⟨h'.1.trans h.1, h.2.trans h'.2⟩
  logs _ v := ⟨rfl, .of_advances (.logs v .refl) nofun⟩
  level h := h.1
  delivers hdeferred hflushing := by
    refine ⟨rfl, .of_advances (.leaves _ (hdeferred ▸ .refl)) fun d hd => ?_⟩
    obtain rfl := List.mem_singleton.1 hd
    exact hflushing
  reports _ _ _ := ⟨rfl, .of_advances (.joins _ .refl) nofun⟩
  loose h := h.2
  loose_trans := State.InLine.trans
  loose_queue _ _ := .same rfl
  loose_create _ _ := .same rfl
  close h hloose h' := ⟨h'.trans h.symm, hloose⟩
  rested _ := ⟨rfl, .same rfl⟩
  trusted h := ⟨h.1, h.2.advances, h.2.once, h.2.idle⟩
  before h h' := ⟨h'.1.trans h.1, h.2.trans h'.2⟩
  behind h h' := ⟨h'.1.trans h.1, h.2.trans h'.2⟩
  refreshed h := h
  created h h' := ⟨h'.1.trans h.1, .trans ⟨h.2.advances, h.2.once, h.2.idle⟩ h'.2⟩

private theorem runWaiting_cons (κ : Kernel) {id : NodeId} {rest : List NodeId}
    (h : s.queue.pending = id :: rest) (n : Nat) :
    runWaiting κ (n + 1) s =
      (κ.refresh id >>= fun _ => runWaiting κ n) { s with queue.pending := rest } := by
  have hpop : s.queue.pop = (some id, { s.queue with pending := rest }) := by rw [Queue.pop, h]
  rw [runWaiting]
  exact run_bind_ok (a := some id) (by
    show EStateM.Result.ok s.queue.pop.1 { s with queue := s.queue.pop.2 } = _
    rw [hpop])

/-- A flush serves those that wait, and then does what was put off. -/
theorem flush_eq (κ : Kernel) (h : s.queue.flushing = false) :
    flush κ s = (guarding (·.modifyQueue Queue.endFlush) (runWaiting κ flushLimit) >>=
      fun _ => κ.drain) { s with queue.flushing := true } := by
  rw [flush, run_get]
  simp only [Queue.beginFlush_eq_some.2 ⟨h, rfl⟩]
  exact run_bind_ok rfl

/-- A flush that is not broken off leaves nobody in line. -/
theorem deferred_of_flush {n : Nat} (hs : s.queue.flushing = false)
    (h : flush (kernel n) s = .ok () s') : s'.deferred = [] := by
  rw [flush_eq _ hs] at h
  obtain ⟨-, u, -, hdrain⟩ := bind_ok_cases h
  exact deferred_of_callDrain n hdrain

/-- Reports errors one after the other. -/
def reportAll (κ : Kernel) (errors : List (Option ScopeId × String)) : Run Unit :=
  errors.forM fun e => κ.report e.1 e.2

/-- Errors were reported in this order, and others in between. -/
def Tells (errors : List (Option ScopeId × String)) (seen : List Sight) : Prop :=
  errors.Sublist ((incidents seen).map fun i => (i.scope, i.error))

/-- How errors that are reported in a state are passed on. -/
structure State.PassesErrors (s : State) : Prop where
  /-- An error that was raised in a scope is handed to the nearest handler, and to no other. -/
  nearest : ∀ {handler x}, s.scopes.Nearest handler x → ∀ κ error,
    reportError κ (some x) error s = hand κ handler error s
  /-- An error that nobody takes gets in line. -/
  nobody : ∀ {scope}, (∀ x ∈ scope, ∀ handler, ¬ s.scopes.Nearest handler x) → ∀ κ error,
    reportError κ scope error s = .ok () { s with deferred := s.deferred ++ [.uncaught error] }
  /-- The first in line is handed to the handler of uncaught errors, before the others. -/
  first : ∀ {error rest p}, s.deferred = .uncaught error :: rest → s.uncaught = some p → ∀ κ,
    drain κ s = (κ.perform (p (.str error)) >>= fun _ => κ.drain) { s with deferred := rest }
  /-- Whatever runs, the line is kept, and nothing in it is done while a flush is under way. -/
  line : ∀ n c, (c = .drain → s.queue.flushing = false) →
    Seen s.InLine s.InLine (fun notes => overseen notes n c) s
  /-- So it is when errors are reported one after the other, and all of them are seen. -/
  reports : ∀ n errors, Seen (fun seen s' => s.InLine seen s' ∧ Tells errors seen) s.InLine
    (fun notes => reportAll (overseen notes n) errors) s
  /-- A flush behind them that is not broken off does all that is in line. -/
  flush : ∀ n errors, s.queue.flushing = false →
    Seen (fun seen s' => s.InLine seen s' ∧ Tells errors seen ∧ s'.deferred = []) s.InLine
      (fun notes => do
        reportAll (overseen notes n) errors
        flush (overseen notes n)) s

/-- A report is the first that is seen of its call. -/
theorem seen_report (n : Nat) (scope : Option ScopeId) (error : String) (s : State) :
    Seen (fun seen s' => lining.Rel s seen s' ∧ s.incident scope error ∈ (incidents seen).head?)
      (lining.Loose s) (fun notes => (overseen notes n).report scope error) s := by
  cases n with
  | zero => exact Seen.bind (Q := fun _ _ => False) (.raise (.same rfl)) (fun _ _ _ h => h.elim) id
  | succ n =>
    have hcall (notes : Notes) : (overseen notes (n + 1)).report scope error = (do
        modify (·.noted notes (.report scope error))
        reportError (overseen notes n) scope error) := by
      show ((do
        modify (State.noted notes · (.report scope error))
        reportError (overseen notes n) scope error
        return Outcome.value .null : Run Outcome) >>= fun _ => pure ()) = _
      simp only [bind_assoc, pure_bind, bind_pure_unit]
    simp only [hcall]
    exact seen_reportError (callsConduct_overseen lining n) scope error

/-- Errors that are reported one after the other are seen in their order. -/
theorem seen_reportAll (n : Nat) (errors : List (Option ScopeId × String)) (s : State) :
    Seen (fun seen s' => lining.Rel s seen s' ∧ Tells errors seen) (lining.Loose s)
      (fun notes => reportAll (overseen notes n) errors) s := by
  induction errors generalizing s with
  | nil => exact .ret ⟨lining.refl s, List.nil_sublist _⟩
  | cons e errors ih =>
    refine (seen_report n e.1 e.2 s).bind (fun _ u seen ⟨hrel, hfirst⟩ => ?_) fun h => h
    refine (ih u).mono (fun ⟨hrel', htells⟩ => ⟨lining.trans hrel hrel', ?_⟩)
      (lining.loose_trans (lining.loose hrel))
    obtain ⟨rest, hseen⟩ := List.head?_eq_some_iff.1 hfirst
    rw [Tells, incidents_append, hseen, List.map_append, List.map_cons, List.cons_append]
    exact .cons_cons e (htells.trans (List.sublist_append_right _ _))

/-- Errors are passed on once: at once to the nearest handler, or else in line. -/
theorem passes_errors (hs : s.Reached) : s.PassesErrors where
  nearest h κ error := reportError_nearest hs.descending h κ error
  nobody h κ error := reportError_nobody hs.descending h κ error
  first hdeferred huncaught κ := by
    rw [drain_cons κ hdeferred, carryOut]
    refine run_bind_congr ?_ _
    rw [surfaceUncaught, run_get]
    simp only [huncaught]
  line n c hc := by
    have hκ := callsConduct_overseen lining n
    have hloose {x : Watch Outcome} (h : Conducts lining x s) : Seen s.InLine s.InLine x s :=
      h.mono (fun h => h.2) fun h => h
    cases c with
    | exec p => exact hloose (hκ.exec p s)
    | refresh id => exact (hκ.refresh id s).mono (fun h => h.2) fun h => h
    | read id => exact hloose (hκ.read id s)
    | dispose id => exact hloose (hκ.dispose id s)
    | drain => exact hloose (hκ.drain s (hc rfl))
    | report scope error => exact hloose (hκ.report scope error s)
  reports n errors := (seen_reportAll n errors s).mono (fun h => ⟨h.1.2, h.2⟩) fun h => h
  flush n errors hclosed := by
    refine (seen_reportAll n errors s).bind (fun _ u seen ⟨hrel, htells⟩ => ?_) fun h => h
    have hidle : u.queue.flushing = false := hrel.1.trans hclosed
    cases conducts_flush (callsConduct_overseen lining n) (s := u) with
    | breaks e s' more h hmore => exact .breaks e s' more h (hrel.2.trans hmore)
    | ends a s' more h hmore =>
      refine .ends a s' more h ⟨hrel.2.trans hmore.2, ?_, ?_⟩
      · rw [Tells, incidents_append, List.map_append]
        exact List.Sublist.trans htells (List.sublist_append_left _ _)
      · have hsilent := h .silent u.log
        rw [overseen_silent] at hsilent
        have hdone : (s'.relogged _).deferred = [] := deferred_of_flush (s := u) hidle hsilent
        exact hdone

/-- A scope that takes errors, and one in it that does not. -/
def sheltered (p : Json → Program) : State :=
  ((({} : State).withScope none).modifyScopes (·.setHandler ⟨0⟩ (.program p))).withScope (some ⟨0⟩)

/-- The engine comes to the scope with a handler. -/
theorem reached_sheltered (p : Json → Program) : (sheltered p).Reached :=
  ⟨∅, Leads.path (((Relation.ReflTransGen.single (.newScope none)).tail
    (.handler ⟨0⟩ (.program p))).tail (.newScope (some ⟨0⟩)))⟩

/-- The handler is the nearest one. -/
theorem nearest_sheltered (p : Json → Program) : (sheltered p).scopes.Nearest (.program p) ⟨1⟩ := by
  let t := ((({} : State).withScope none).modifyScopes (·.setHandler ⟨0⟩ (.program p))).scopes
  have hroot : t.find? ⟨0⟩ = some { parent := none, handler := some (.program p) } := by
    refine (Scopes.find?_modify _).trans ?_
    rw [if_pos rfl]
    exact congrArg (Option.map _) (Scopes.find?_create none)
  have hnext : t.next = 1 := rfl
  have hparent : t.parentFor (some ⟨0⟩) = some ⟨0⟩ := by
    rw [Scopes.parentFor, Option.filter_some, Scopes.contains_eq, hroot]
    rfl
  have hfind (x : ScopeId) := Scopes.find?_create (t := t) (x := x) (some ⟨0⟩)
  have houter : (sheltered p).scopes.find? ⟨0⟩ =
      some { parent := none, handler := some (.program p), holdings := { children := [⟨1⟩] } } := by
    refine (hfind ⟨0⟩).trans ?_
    rw [if_neg (by rw [hnext]; decide), if_pos hparent, hroot]
    rfl
  have hinner : (sheltered p).scopes.find? ⟨1⟩ = some { parent := some ⟨0⟩ } := by
    refine (hfind ⟨1⟩).trans ?_
    rw [if_pos (by rw [hnext]), hparent]
  exact .above hinner rfl rfl (.here houter rfl)

/-- What the outer scope does with an error. -/
def taking (error : Json) : Program := .log (.arr [.str "taken", error]) .done

/-- What is done with an error that nobody takes. -/
def surfacing (error : Json) : Program := .log (.arr [.str "left", error]) .done

/-- The two scopes, with a handler of uncaught errors, some of which are in line. -/
def sheltering (line : List String) (log : List Json) : State :=
  { sheltered taking with uncaught := some surfacing, deferred := line.map .uncaught, log }

private theorem reached_sheltering (line : List String) (log : List Json) :
    (sheltering line log).Reached := by
  obtain ⟨procedures, hpath⟩ := reached_sheltered taking
  exact ⟨procedures, hpath.trans (Leads.path (Leads.aside (by constructor <;> rfl)))⟩

section

variable {line : List String} {log : List Json} (h : (sheltering line log).PassesErrors)

include h in
private theorem report_taken (n : Nat) (error : String) :
    (kernel (n + 2)).report (some ⟨1⟩) error (sheltering line log) =
      .ok () (sheltering line (.arr [.str "taken", .str error] :: log)) := by
  have hhanded : reportError (kernel (n + 1)) (some ⟨1⟩) error (sheltering line log) = .ok () _ :=
    h.nearest (nearest_sheltered taking) _ error
  exact run_bind_ok (run_bind_ok hhanded)

include h in
private theorem report_left (n : Nat) (error : String) :
    (kernel (n + 1)).report none error (sheltering line log) =
      .ok () (sheltering (line ++ [error]) log) := by
  have hlined : reportError (kernel n) none error (sheltering line log) = .ok () _ :=
    h.nobody (by simp) _ error
  refine (run_bind_ok (run_bind_ok hlined)).trans (congrArg (EStateM.Result.ok ()) ?_)
  rw [sheltering, sheltering, List.map_append]
  rfl

end

/-- The errors in line are handed to the handler one after the other. -/
theorem drain_sheltering (h : ∀ line log, (sheltering line log).PassesErrors) :
    ∀ (line : List String) (log : List Json) (n : Nat), line.length < n →
      (kernel n).drain (sheltering line log) =
        .ok () (sheltering [] ((line.map fun error =>
          Json.arr [.str "left", .str error]).reverse ++ log))
  | [], log, n + 1, _ => run_bind_ok (run_bind_ok (drain_nil (kernel n) rfl))
  | error :: line, log, n + 2, hn => by
    have hrest := drain_sheltering h line (.arr [.str "left", .str error] :: log) (n + 1)
      (Nat.lt_of_succ_lt_succ hn)
    have hfirst : drain (kernel (n + 1)) (sheltering (error :: line) log) = .ok () _ :=
      ((h _ _).first rfl rfl _).trans ((run_bind_ok rfl).trans hrest)
    refine (run_bind_ok (x := kernel (n + 2) .drain) (run_bind_ok hfirst)).trans ?_
    rw [List.map_cons, List.reverse_cons, List.append_assoc]
    rfl

/-- Errors of the inner scope go to the outer one at once, and the others wait for the flush. -/
theorem passes_errors_sheltered :
    let s := sheltering [] []
    let errors := [(some ⟨1⟩, "w"), (none, "x"), (some ⟨1⟩, "y"), (none, "z")]
    s.Reached ∧ s.PassesErrors ∧ s.queue.flushing = false ∧
      ∃ s', (do reportAll (kernel 3) errors; flush (kernel 3)) s = .ok () s' ∧
        s'.log = [.arr [.str "left", .str "z"], .arr [.str "left", .str "x"],
          .arr [.str "taken", .str "y"], .arr [.str "taken", .str "w"]] ∧
        ∃ seen u, (s.InLine seen u ∧ Tells errors seen ∧ u.deferred = []) ∧
          s' = u.relogged s'.log := by
  intro s errors
  have hpasses (line : List String) (log : List Json) : (sheltering line log).PassesErrors :=
    passes_errors (reached_sheltering line log)
  have hreports : reportAll (kernel 3) errors s = .ok () (sheltering ["x", "z"]
      [.arr [.str "taken", .str "y"], .arr [.str "taken", .str "w"]]) :=
    (run_bind_ok (report_taken (hpasses _ _) 1 "w")).trans <|
      (run_bind_ok (report_left (hpasses _ _) 2 "x")).trans <|
        (run_bind_ok (report_taken (hpasses _ _) 1 "y")).trans <|
          run_bind_ok (report_left (hpasses _ _) 2 "z")
  have hflush (log : List Json) : flush (kernel 3) (sheltering ["x", "z"] log) =
      .ok () (sheltering []
        (.arr [.str "left", .str "z"] :: .arr [.str "left", .str "x"] :: log)) := by
    rw [flush_eq _ rfl]
    refine (run_bind_ok (guarding_ok (runWaiting_nil _ rfl flushLimit) _)).trans ?_
    exact drain_sheltering hpasses ["x", "z"] log 3 (by decide)
  let both (κ : Kernel) : Run Unit := do
    reportAll κ errors
    flush κ
  have hrun : both (kernel 3) s = .ok () _ := (run_bind_ok hreports).trans (hflush _)
  have hseen := ((hpasses [] []).flush 3 errors rfl).of_ok (f := both) hrun
  exact ⟨reached_sheltering _ _, hpasses _ _, rfl, _, hrun, rfl, hseen⟩

/-! ## Flushes that are broken off -/

/-- A flush whose first effect breaks down is broken off there. -/
theorem flush_error {κ : Kernel} {id : NodeId} {rest : List NodeId} {e : Interrupt}
    (hclosed : s.queue.flushing = false) (hpending : s.queue.pending = id :: rest)
    (h : κ.refresh id { s with queue := { s.queue with pending := rest, flushing := true } } =
      .error e s') :
    flush κ s = .error e (s'.modifyQueue Queue.endFlush) := by
  have hrun : runWaiting κ flushLimit { s with queue.flushing := true } = .error e s' := by
    rw [flushLimit, runWaiting_cons κ (s := { s with queue.flushing := true }) hpending]
    exact run_bind_error h _
  rw [flush_eq κ hclosed]
  exact run_bind_error (guarding_error hrun _) _

/-- An effect that breaks down is waiting, and a program takes the errors that nobody takes. -/
def fragile : State :=
  { (({} : State).withReaction (.body (.panic "y") false) none).scheduled ⟨0⟩ with
    uncaught := some fun error => .log error .done }

private theorem reached_fragile : fragile.Reached := by
  have heffect : Leads {} (({} : State).withReaction (.body (.panic "y") false) none) :=
    .one (.newEffect (.body (.panic "y") false) none)
  exact ⟨∅, ((Leads.path heffect).tail (.inr (.schedule ⟨0⟩ rfl))).trans
    (Leads.path (Leads.aside (by constructor <;> rfl)))⟩

/-- The effect that panics is there and waits. -/
theorem fragile_eq : fragile =
    { ({} : State).withReaction (.body (.panic "y") false) none with
      graph := (({} : State).withReaction (.body (.panic "y") false) none).graph.request ⟨0⟩ .dirty
      queue := { pending := [⟨0⟩] }
      uncaught := some fun error => .log error .done } := by
  have hlive : (({} : State).withReaction (.body (.panic "y") false) none).graph.contains ⟨0⟩ =
      true := by
    rw [Graph.contains_eq]
    exact congrArg Option.isSome (Graph.find?_insert_self _ _ _)
  rw [fragile, State.scheduled, if_pos hlive]
  rfl

private theorem find?_fragile : fragile.graph.find? ⟨0⟩ = some (.new .effect) := by
  rw [fragile_eq]
  exact Graph.find?_request_self (Graph.find?_insert_self _ _ _) _

private theorem effect?_fragile :
    fragile.effect? ⟨0⟩ = some { reaction := .body (.panic "y") false, scope := ⟨0⟩ } := by
  rw [fragile_eq]
  exact State.effect?_eq_some.2 Std.HashMap.getElem?_insert_self

private theorem strip_fragile : (fragile.scopes.strip ⟨0⟩).1 = some {} := by
  rw [fragile_eq]
  show (Scopes.strip (Scopes.create {} none).2 _).1 = _
  have hlive : (Scopes.create {} none : ScopeId × Scopes Cleanup Handler).2.live[(⟨0⟩ : ScopeId)]? =
    some { parent := none } := Std.HashMap.getElem?_insert_self
  rw [Scopes.strip, hlive]

/-- There is nothing to end in a scope that owns nothing. -/
theorem resetScope_empty {id : ScopeId} (h : (s.scopes.strip id).1 = some {}) (κ : Kernel) :
    resetScope κ id s = .ok () { s with scopes := (s.scopes.strip id).2 } := by
  rw [resetScope]
  refine Eq.trans (run_bind_ok (a := some {}) ?_) rfl
  show EStateM.Result.ok (s.scopes.strip id).1 { s with scopes := (s.scopes.strip id).2 } = _
  rw [h]

/-- The scope of an effect is left when the effect breaks down. -/
theorem runReaction_panic {e : Effect} {message : String} {fallible : Bool} {n : Nat}
    (h : e.reaction = .body (.panic message) fallible) (id : NodeId) (s : State) :
    runReaction (kernel (n + 1)) id e s = .error (.panic message)
      { s with scopes := (s.scopes.enter e.scope).leave e.scope } := by
  let u : State := (s.modifyScopes (·.enter e.scope)).modifyTracking (·.enter (.effect id))
  have hreact : react (kernel (n + 1)) id e u = .error (.panic message) u := by
    rw [react, h]
    rfl
  have htracked : tracked id (.effect id) (react (kernel (n + 1)) id e)
      (s.modifyScopes (·.enter e.scope)) = .error (.panic message)
        (u.modifyTracking (·.leave.2)) := run_bind_error (onInterrupt_error hreact _) _
  have hscope : withScope e.scope (tracked id (.effect id) (react (kernel (n + 1)) id e)) s =
      .error (.panic message) { s with scopes := (s.scopes.enter e.scope).leave e.scope } :=
    guarding_error htracked _
  exact run_bind_error hscope _

/-- A node that is out of date is computed, unless it is running. -/
theorem refresh_of_dirty {id : NodeId} {n : Graph.Node} (hn : s.graph.find? id = some n)
    (hmark : n.mark = .dirty) (hidle : s.tracking.isRunning id = false) (κ : Kernel) :
    refresh κ id s = holding id (runCell κ id s.cells[id]?) s := by
  have hlive : s.graph.contains id = true := by rw [Graph.contains_eq, hn]; rfl
  rw [refresh, run_get]
  simp only [hn, hmark]
  rw [rerun, run_get]
  simp only [hidle, hlive]
  rfl

/-- The waiting effect breaks down when its turn comes. -/
theorem refresh_fragile (queue : Queue) (deferred : List Deferred) (n : Nat) :
    ∃ s', (kernel (n + 2)).refresh ⟨0⟩ { fragile with queue, deferred } = .error (.panic "y") s' ∧
      s'.deferred = deferred ∧ s'.log = [] := by
  let s : State := { fragile with queue, deferred }
  let u : State := (s.hold (.node ⟨0⟩)).modifyGraph (·.request ⟨0⟩ .clean)
  have heffect : s.effect? ⟨0⟩ = some { reaction := .body (.panic "y") false, scope := ⟨0⟩ } :=
    effect?_fragile
  have hnode : s.graph.find? ⟨0⟩ = some (.new .effect) := find?_fragile
  have hrun : runCell (kernel (n + 1)) ⟨0⟩ s.cells[(⟨0⟩ : NodeId)]? (s.hold (.node ⟨0⟩)) =
      .error (.panic "y") { u with scopes := ((u.scopes.strip ⟨0⟩).2.enter ⟨0⟩).leave ⟨0⟩ } := by
    rw [State.effect?_eq_some.1 heffect]
    show runEffect _ _ u = _
    rw [runEffect, run_get]
    simp only [show u.effect? ⟨0⟩ = _ from heffect]
    exact (run_bind_ok (resetScope_empty (s := u) strip_fragile _)).trans
      (runReaction_panic rfl ⟨0⟩ _)
  have hidle : s.tracking.isRunning ⟨0⟩ = false := by
    show fragile.tracking.isRunning ⟨0⟩ = false
    rw [fragile_eq]
    rfl
  have hholding : holding ⟨0⟩ (runCell (kernel (n + 1)) ⟨0⟩ s.cells[(⟨0⟩ : NodeId)]?) s =
      .error (.panic "y") _ := guarding_error hrun _
  have hrefresh : refresh (kernel (n + 1)) ⟨0⟩ s = .error (.panic "y") _ :=
    (refresh_of_dirty hnode rfl hidle _).trans hholding
  refine ⟨_, run_bind_error (run_bind_error hrefresh _) _, ?_, ?_⟩
  · exact State.LetsGo.deferred (State.letsGo_releaseNode _ _)
  · have hlog : fragile.log = [] := by
      rw [fragile_eq]
      rfl
    exact (State.LetsGo.log (State.letsGo_releaseNode _ _)).trans hlog

/-- An error that gets in line may have to wait longer than until the next flush: the flush may be
broken off before its turn comes. -/
theorem put_off_again : ∃ s s', fragile.Reached ∧ fragile.queue.flushing = false ∧
    (∀ κ, reportError κ none "x" fragile = .ok () s) ∧
      flush (kernel 2) s = .error (.panic "y") s' ∧
      s'.deferred = [.uncaught "x"] ∧ s'.log = [] := by
  obtain ⟨s', hrefresh, hdeferred, hlog⟩ :=
    refresh_fragile { flushing := true } [.uncaught "x"] 0
  have hqueue : fragile.queue = { pending := [⟨0⟩] } := by rw [fragile_eq]
  have hnone : fragile.deferred = [] := by
    rw [fragile_eq]
    rfl
  refine ⟨{ fragile with deferred := [.uncaught "x"] }, s'.modifyQueue Queue.endFlush,
    reached_fragile, by rw [hqueue], fun κ => ?_, ?_, hdeferred, hlog⟩
  · rw [reportError_nobody reached_fragile.descending (by simp), hnone]
    rfl
  · refine flush_error (by rw [hqueue]) (by rw [hqueue]) ?_
    rw [hqueue]
    exact hrefresh

end Rivulet.Engine
