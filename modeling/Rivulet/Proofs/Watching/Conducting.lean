import Rivulet.Proofs.Disposal.Performing

/-!
# Runs, and what is seen of them

An error that is reported is handed on at once or put off, and what is put off is done later, in the
middle of some other run; the state does not say what was reported and what has been done. An
observer is put there to see it: he writes a note into the log whenever an error is reported, and
whenever something that was put off is about to be done. What is reported and done in a run, in
which order, is what every observer sees of it, whatever he notes; and a run goes the same way
whether or not there is an observer, because nothing ever looks into the log.

What holds of a run is a relation between its ends and what is seen in between, which the moves of
the engine respect and which goes on from one to the next. Two things do not fit in. A flush is not
made of moves that respect it, only the flush as a whole does; so in its midst, and where a run is
broken off, there is a looser relation. And of the refresh of a node more can be said than of other
runs.
-/

namespace Rivulet.Engine

/-- Something that was put off and is about to be done, with the queue of that moment. -/
structure Delivery where
  /-- What is about to be done. -/
  task : Deferred
  /-- The effects that wait, and what holds them back. -/
  queue : Queue

/-- An error that is reported, and who is there to take it. -/
structure Incident where
  /-- The scope in which it was raised. -/
  scope : Option ScopeId
  /-- The error. -/
  error : String
  /-- The nearest handler. -/
  taker : Option Handler
  /-- Whether the handler is a boundary that is drawn already. -/
  armed : Bool

/-- What gets in line because of an error: the error itself, if nobody takes it, or the switch of
the boundary that takes it. -/
def Incident.joins? : Incident → Option Deferred
  | ⟨_, error, none, _⟩ => some (.uncaught error)
  | ⟨_, error, some (.boundary b), true⟩ => some (.fallback b error)
  | _ => none

/-- What is noted of what happens. -/
structure Notes where
  /-- What is noted of a delivery. -/
  delivery : Delivery → List Json
  /-- What is noted of an error. -/
  incident : Incident → List Json

/-- The notes of an observer who notes nothing. -/
def Notes.silent : Notes := ⟨fun _ => [], fun _ => []⟩

/-- What is seen of a run. -/
inductive Sight where
  /-- A program logs a value. -/
  | logged (v : Json)
  /-- Something that was put off is about to be done. -/
  | delivered (d : Delivery)
  /-- An error is reported. -/
  | reported (i : Incident)

namespace Sight

/-- What was put off and is about to be done. -/
def delivery? : Sight → Option Delivery
  | delivered d => some d
  | _ => none

/-- The error that is reported. -/
def incident? : Sight → Option Incident
  | reported i => some i
  | _ => none

/-- What stands in the log of it. -/
def lines (notes : Notes) : Sight → List Json
  | logged v => [v]
  | delivered d => notes.delivery d
  | reported i => notes.incident i

end Sight

/-- What was done of what was put off, first things first. What is seen is told latest first. -/
def deliveries (seen : List Sight) : List Delivery := (seen.filterMap Sight.delivery?).reverse

@[simp] theorem deliveries_nil : deliveries [] = [] := rfl

/-- Deliveries are read off one sight after the other. -/
@[simp] theorem deliveries_append {seen more : List Sight} :
    deliveries (more ++ seen) = deliveries seen ++ deliveries more := by
  simp [deliveries]

/-- The errors that were reported, first things first. -/
def incidents (seen : List Sight) : List Incident := (seen.filterMap Sight.incident?).reverse

@[simp] theorem incidents_nil : incidents [] = [] := rfl

/-- Incidents are read off one sight after the other. -/
@[simp] theorem incidents_append {seen more : List Sight} :
    incidents (more ++ seen) = incidents seen ++ incidents more := by
  simp [incidents]

/-- What stands in the log of all that is seen. -/
def spell (notes : Notes) (seen : List Sight) : List Json := seen.flatMap (Sight.lines notes)

/-- Sights are spelled one after the other. -/
@[simp] theorem spell_append {notes : Notes} {seen more : List Sight} :
    spell notes (more ++ seen) = spell notes more ++ spell notes seen :=
  List.flatMap_append

namespace State

/-- The state with another log. -/
def relogged (s : State) (log : List Json) : State := { s with log }

/-- An error that is reported in the state. -/
def incident (s : State) (scope : Option ScopeId) (error : String) : Incident where
  scope := scope
  error := error
  taker := scope.bind s.scopes.findHandler
  armed := match scope.bind s.scopes.findHandler with
    | some (.boundary b) => (s.boundary? b).any (·.armed)
    | _ => false

/-- The state in which an error has got in line, if it does. -/
def lined (s : State) (i : Incident) : State :=
  { s with deferred := s.deferred ++ i.joins?.toList }

/-- An incident that joins no line leaves the state alone. -/
theorem lined_of_none {s : State} {i : Incident} (h : i.joins? = none) : s.lined i = s := by
  rw [lined, h, Option.toList_none, List.append_nil]

/-- The state behind the note of an observer, who looks at a call before it is answered. -/
def noted (notes : Notes) (s : State) : Call → State
  | .drain =>
    s.relogged ((s.deferred.head?.elim [] fun task => notes.delivery ⟨task, s.queue⟩) ++ s.log)
  | .report scope error => s.relogged (notes.incident (s.incident scope error) ++ s.log)
  | _ => s

end State

/-- The kernel that goes no deeper than the given number of calls, with an observer. -/
def overseen (notes : Notes) : Nat → Kernel
  | 0 => fun _ => throw .outOfFuel
  | n + 1 => fun c => do
    modify (·.noted notes c)
    answer (overseen notes n) c

/-- An observer who notes nothing makes no difference. -/
theorem overseen_silent : ∀ n, overseen .silent n = kernel n
  | 0 => rfl
  | n + 1 => by
    funext c s
    have hnothing : (s.deferred.head?.elim [] fun _ => ([] : List Json)) = [] := by
      cases s.deferred <;> rfl
    have hsilent : s.noted .silent c = s := by
      cases c with
      | drain =>
        simp only [State.noted, Notes.silent, hnothing]
        rfl
      | _ => rfl
    show answer (overseen .silent n) c (s.noted .silent c) = _
    rw [overseen_silent n, hsilent]
    rfl

/-- A run that has an observer. -/
abbrev Watch (α : Type) := Notes → Run α

/-- A run with any observer and any log to begin with ends in the same way, and something is seen
of it; what is seen and the state behind the run have a property, and another one if the run is
broken off. -/
inductive Seen {α : Type} (P L : List Sight → State → Prop) (x : Watch α) (s : State) : Prop
  /-- It ends. -/
  | ends (a : α) (s' : State) (seen : List Sight)
      (h : ∀ notes log, x notes (s.relogged log) = .ok a (s'.relogged (spell notes seen ++ log)))
      (hP : P seen s') : Seen P L x s
  /-- It is broken off. -/
  | breaks (e : Interrupt) (s' : State) (seen : List Sight)
      (h : ∀ notes log,
        x notes (s.relogged log) = .error e (s'.relogged (spell notes seen ++ log)))
      (hL : L seen s') : Seen P L x s

namespace Seen

variable {α β : Type} {P P' L L' : List Sight → State → Prop} {x : Watch α} {s : State}

/-- What is seen may be described more weakly. -/
theorem mono (h : Seen P L x s) (hP : ∀ {seen s'}, P seen s' → P' seen s')
    (hL : ∀ {seen s'}, L seen s' → L' seen s') : Seen P' L' x s := by
  cases h with
  | ends a s' seen h hseen => exact .ends a s' seen h (hP hseen)
  | breaks e s' seen h hseen => exact .breaks e s' seen h (hL hseen)

/-- A run that does the same as another one. -/
theorem of_eq {y : Watch α} (h : Seen P L y s)
    (heq : ∀ notes log, x notes (s.relogged log) = y notes (s.relogged log)) : Seen P L x s := by
  cases h with
  | ends a s' seen h hseen => exact .ends a s' seen (fun _ _ => (heq _ _).trans (h _ _)) hseen
  | breaks e s' seen h hseen => exact .breaks e s' seen (fun _ _ => (heq _ _).trans (h _ _)) hseen

/-- A run that only gives a result sees nothing. -/
theorem ret {a : α} (h : P [] s) : Seen P L (fun _ => pure a) s :=
  .ends a s [] (fun _ _ => rfl) h

/-- A run that only fails sees nothing. -/
theorem raise {e : Interrupt} (h : L [] s) : Seen P L (fun _ => (throw e : Run α)) s :=
  .breaks e s [] (fun _ _ => rfl) h

/-- What is done behind a run. -/
theorem bind {Q M : List Sight → State → Prop} {f : Notes → α → Run β} (hx : Seen Q M x s)
    (hf : ∀ a s' seen, Q seen s' →
      Seen (fun more => P (more ++ seen)) (fun more => L (more ++ seen))
        (fun notes => f notes a) s')
    (hL : ∀ {seen s'}, M seen s' → L seen s') :
    Seen P L (fun notes => x notes >>= f notes) s := by
  cases hx with
  | breaks e s' seen h hseen =>
    exact .breaks e s' seen (fun notes log => run_bind_error (h notes log) _) (hL hseen)
  | ends a s' seen h hseen =>
    cases hf a s' seen hseen with
    | ends b s'' more h' hmore =>
      refine .ends b s'' (more ++ seen) (fun notes log => ?_) hmore
      rw [run_bind_ok (h notes log), h', spell_append, List.append_assoc]
    | breaks e s'' more h' hmore =>
      refine .breaks e s'' (more ++ seen) (fun notes log => ?_) hmore
      rw [run_bind_ok (h notes log), h', spell_append, List.append_assoc]

/-- A change of the state that does not concern the log, behind which a run starts. -/
theorem change {f : State → State} {k : Notes → Unit → Run β}
    (h : Seen P L (fun notes => k notes ()) (f s))
    (hf : ∀ log, f (s.relogged log) = (f s).relogged log) :
    Seen P L (fun notes => modify f >>= k notes) s := by
  have hrun (notes : Notes) (log : List Json) :
      (modify f >>= k notes) (s.relogged log) = k notes () ((f s).relogged log) :=
    congrArg (k notes ()) (hf log)
  cases h with
  | ends b s' seen h hseen => exact .ends b s' seen (fun _ _ => (hrun _ _).trans (h _ _)) hseen
  | breaks e s' seen h hseen => exact .breaks e s' seen (fun _ _ => (hrun _ _).trans (h _ _)) hseen

/-- A change of the state with an answer, behind which a run starts. -/
theorem changeGet {f : State → α × State} {k : Notes → α → Run β}
    (h : Seen P L (fun notes => k notes (f s).1) (f s).2)
    (hf : ∀ log, f (s.relogged log) = ((f s).1, (f s).2.relogged log)) :
    Seen P L (fun notes => modifyGet f >>= k notes) s := by
  have hrun (notes : Notes) (log : List Json) :
      (modifyGet f >>= k notes) (s.relogged log) = k notes (f s).1 ((f s).2.relogged log) := by
    rw [run_bind_ok (run_modifyGet f _), hf]
  cases h with
  | ends b s' seen h hseen => exact .ends b s' seen (fun _ _ => (hrun _ _).trans (h _ _)) hseen
  | breaks e s' seen h hseen => exact .breaks e s' seen (fun _ _ => (hrun _ _).trans (h _ _)) hseen

/-- A change of the state that is the same under every log, and gives a result. -/
theorem stepGet {f : State → α × State} (h : P [] (f s).2)
    (hf : ∀ log, f (s.relogged log) = ((f s).1, (f s).2.relogged log)) :
    Seen P L (fun _ => (modifyGet f : Run α)) s :=
  .ends (f s).1 (f s).2 [] (fun _ log => by rw [run_modifyGet, hf]; rfl) h

/-- A change of the state that is the same under every log. -/
theorem step {f : State → State} (h : P [] (f s))
    (hf : ∀ log, f (s.relogged log) = (f s).relogged log) :
    Seen P L (fun _ => (modify f : Run Unit)) s :=
  .stepGet h fun log => congrArg (Prod.mk ()) (hf log)

/-- A look at the state. -/
theorem look {f : Notes → State → Run β} (h : Seen P L (fun notes => f notes s) s)
    (hf : ∀ notes log, f notes (s.relogged log) = f notes s) :
    Seen P L (fun notes => get >>= f notes) s := by
  have hrun (notes : Notes) (log : List Json) :
      (get >>= f notes) (s.relogged log) = f notes s (s.relogged log) :=
    congrFun (hf notes log) _
  cases h with
  | ends b s' seen h hseen => exact .ends b s' seen (fun _ _ => (hrun _ _).trans (h _ _)) hseen
  | breaks e s' seen h hseen => exact .breaks e s' seen (fun _ _ => (hrun _ _).trans (h _ _)) hseen

/-- Something is noted, behind which a run starts. -/
theorem sight {g : Sight} {y : Watch α} {u : State}
    (h : Seen (fun more => P (more ++ [g])) (fun more => L (more ++ [g])) y u)
    (heq : ∀ notes log,
      x notes (s.relogged log) = y notes (u.relogged (g.lines notes ++ log))) :
    Seen P L x s := by
  have hspell (notes : Notes) (more : List Sight) (log : List Json) :
      spell notes more ++ (g.lines notes ++ log) = spell notes (more ++ [g]) ++ log := by
    simp [spell]
  cases h with
  | ends a s' more h hmore =>
    exact .ends a s' _ (fun notes log => by rw [heq, h, hspell]) hmore
  | breaks e s' more h hmore =>
    exact .breaks e s' _ (fun notes log => by rw [heq, h, hspell]) hmore

/-- A run that does one thing or another. -/
theorem ite {c : Prop} [Decidable c] {x y : Watch α} (h : c → Seen P L x s)
    (h' : ¬ c → Seen P L y s) :
    Seen P L (fun notes => if c then x notes else y notes) s := by
  by_cases hc : c
  · simpa only [if_pos hc] using h hc
  · simpa only [if_neg hc] using h' hc

/-- A run behind which something is restored, whether or not it was broken off. -/
theorem guarding {restore : State → State} (h : Seen P L x s)
    (hP : ∀ {seen s'}, P seen s' → P' seen (restore s'))
    (hL : ∀ {seen s'}, L seen s' → L' seen (restore s'))
    (hr : ∀ s log, restore (State.relogged s log) = (restore s).relogged log) :
    Seen P' L' (fun notes => guarding restore (x notes)) s := by
  cases h with
  | ends a s' seen h hseen =>
    refine .ends a (restore s') seen (fun notes log => ?_) (hP hseen)
    rw [guarding_ok (h notes log), hr]
  | breaks e s' seen h hseen =>
    refine .breaks e (restore s') seen (fun notes log => ?_) (hL hseen)
    rw [guarding_error (h notes log), hr]

/-- A run behind which something is restored if it was broken off. -/
theorem onInterrupt {restore : State → State} (h : Seen P L x s)
    (hL : ∀ {seen s'}, L seen s' → L' seen (restore s'))
    (hr : ∀ s log, restore (State.relogged s log) = (restore s).relogged log) :
    Seen P L' (fun notes => onInterrupt restore (x notes)) s := by
  cases h with
  | ends a s' seen h hseen =>
    exact .ends a s' seen (fun notes log => onInterrupt_ok (h notes log) restore) hseen
  | breaks e s' seen h hseen =>
    refine .breaks e (restore s') seen (fun notes log => ?_) (hL hseen)
    rw [onInterrupt_error (h notes log), hr]

/-- What is said of an observed run is true of the same run without an observer. -/
theorem of_ok {f : Kernel → Run α} {n : Nat} (h : Seen P L (fun notes => f (overseen notes n)) s)
    {a : α} {s' : State} (hrun : f (kernel n) s = .ok a s') :
    ∃ seen u, P seen u ∧ s' = u.relogged s'.log := by
  rw [← overseen_silent] at hrun
  cases h with
  | ends b u seen h hseen =>
    obtain ⟨-, rfl⟩ := EStateM.Result.ok.inj ((h .silent s.log).symm.trans hrun)
    exact ⟨seen, u, hseen, rfl⟩
  | breaks e u seen h _ =>
    have hbroken := (h .silent s.log).symm.trans hrun
    cases hbroken

end Seen

/-! ## How runs conduct themselves -/

/-- A move of the engine, as far as the graph, the queue and what is put off are concerned. -/
inductive Move : State → State → Prop
  /-- A change of something else. -/
  | aside {s s' : State} (hgraph : s'.graph = s.graph)
      (hpending : s'.queue.pending = s.queue.pending)
      (hflushing : s'.queue.flushing = s.queue.flushing) (hdeferred : s'.deferred = s.deferred) :
      Move s s'
  /-- A node leaves the graph and the queue. -/
  | detach {s : State} (id : NodeId) : Move s (s.detach id)
  /-- What a node reads is replaced. -/
  | rewire {s : State} (id : NodeId) (sources : List NodeId) :
      Move s (s.modifyGraph (·.setDependencies id sources))
  /-- A node counts as clean. -/
  | trust {s : State} (id : NodeId) : Move s (s.modifyGraph (·.request id .clean))
  /-- The epoch of a node advances. -/
  | bump {s : State} (id : NodeId) : Move s (s.modifyGraph (·.bump id))
  /-- What depends on a node is marked; the effects among it have to wait. -/
  | notify {s : State} (id : NodeId) : Move s (s.markChanged id)
  /-- An effect is marked and has to wait. -/
  | schedule {s : State} (id : NodeId) : Move s (s.scheduled id)
  /-- A node is created that is not an effect. -/
  | create {s : State} (id : NodeId) {kind : Graph.Kind} (h : kind ≠ .effect) :
      Move s (s.modifyGraph (·.insert id (.new kind)))

/-- A way of speaking about runs. -/
structure Conduct where
  /-- What lies between the state before a run, with what is seen of it, and the state behind. -/
  Rel : State → List Sight → State → Prop
  /-- What lies between them in the midst of a flush and where a run is broken off. -/
  Loose : State → List Sight → State → Prop
  /-- What lies between them if a node was refreshed. -/
  Refreshed : NodeId → State → List Sight → State → Prop
  /-- Moves respect it. -/
  move : ∀ {s s'}, Move s s' → Rel s [] s'
  /-- It goes on. -/
  trans : ∀ {s seen s' more s''}, Rel s seen s' → Rel s' more s'' → Rel s (more ++ seen) s''
  /-- What is logged does not matter. -/
  logs : ∀ s v, Rel s [.logged v] s
  /-- No flush begins or ends. -/
  level : ∀ {s seen s'}, Rel s seen s' → s'.queue.flushing = s.queue.flushing
  /-- The first of what was put off is about to be done. -/
  delivers : ∀ {s task rest}, s.deferred = task :: rest → s.queue.flushing = false →
    Rel s [.delivered ⟨task, s.queue⟩] { s with deferred := rest }
  /-- An error is reported, and may get in line. -/
  reports : ∀ s scope error,
    Rel s [.reported (s.incident scope error)] (s.lined (s.incident scope error))
  /-- The looser relation is looser. -/
  loose : ∀ {s seen s'}, Rel s seen s' → Loose s seen s'
  /-- It goes on. -/
  loose_trans : ∀ {s seen s' more s''}, Loose s seen s' → Loose s' more s'' →
    Loose s (more ++ seen) s''
  /-- The queue may change in any way. -/
  loose_queue : ∀ s f, Loose s [] (s.modifyQueue f)
  /-- A new effect may stand unrefreshed. -/
  loose_create : ∀ s id, Loose s [] (s.modifyGraph (·.insert id (.new .effect)))
  /-- A flush as a whole respects it. -/
  close : ∀ {s seen s'}, s.queue.flushing = false → Loose s seen s' →
    s'.queue.flushing = false → Rel s seen s'
  /-- A node that is clean or gone is refreshed. -/
  rested : ∀ {s id}, (∀ n, s.graph.find? id = some n → n.mark = .clean) → Refreshed id s [] s
  /-- A node counts as clean before it is computed. -/
  trusted : ∀ {s id seen s'}, Rel (s.modifyGraph (·.request id .clean)) seen s' →
    Refreshed id s seen s'
  /-- Something may come before. -/
  before : ∀ {s id seen s' more s''}, Rel s seen s' → Refreshed id s' more s'' →
    Refreshed id s (more ++ seen) s''
  /-- Something may come behind. -/
  behind : ∀ {s id seen s' more s''}, Refreshed id s seen s' → Rel s' more s'' →
    Refreshed id s (more ++ seen) s''
  /-- It is nothing else than a run. -/
  refreshed : ∀ {s id seen s'}, Refreshed id s seen s' → Rel s seen s'
  /-- A new effect is refreshed. -/
  created : ∀ {s id seen s' more s''}, Rel (s.modifyGraph (·.insert id (.new .effect))) seen s' →
    Refreshed id s' more s'' → Rel s (more ++ seen) s''

namespace Conduct

variable (C : Conduct) {s s' s'' : State} {seen : List Sight}

/-- What is changed is something else. -/
theorem aside (hgraph : s'.graph = s.graph) (hpending : s'.queue.pending = s.queue.pending)
    (hflushing : s'.queue.flushing = s.queue.flushing) (hdeferred : s'.deferred = s.deferred) :
    C.Rel s [] s' := C.move (.aside hgraph hpending hflushing hdeferred)

/-- To do nothing is within the conduct. -/
theorem refl (s : State) : C.Rel s [] s := C.aside rfl rfl rfl rfl

variable {C}

/-- What is seen later is seen behind a step that shows nothing. -/
theorem after (h : C.Rel s [] s') (h' : C.Rel s' seen s'') : C.Rel s seen s'' := by
  simpa using C.trans h h'

/-- So it is when the run is broken off. -/
theorem loose_after (h : C.Loose s [] s') (h' : C.Loose s' seen s'') : C.Loose s seen s'' := by
  simpa using C.loose_trans h h'

/-- A step that shows nothing follows what is seen. -/
theorem andThen (h : C.Rel s seen s') (h' : C.Rel s' [] s'') : C.Rel s seen s'' := C.trans h h'

/-- So it does when the run was broken off. -/
theorem loose_andThen (h : C.Loose s seen s') (h' : C.Loose s' [] s'') : C.Loose s seen s'' :=
  C.loose_trans h h'

end Conduct

/-- A run conducts itself. -/
def Conducts (C : Conduct) {α : Type} (x : Watch α) (s : State) : Prop :=
  Seen (C.Rel s) (C.Loose s) x s

namespace Conducts

variable {C : Conduct} {α β : Type} {x : Watch α} {s s' : State}

/-- To give a result is within the conduct. -/
theorem ret (a : α) : Conducts C (fun _ => pure a) s := Seen.ret (C.refl s)

/-- To fail is within the conduct. -/
theorem raise (e : Interrupt) : Conducts C (fun _ => (throw e : Run α)) s :=
  Seen.raise (C.loose (C.refl s))

/-- A program logs a value. -/
theorem log (v : Json) : Conducts C (fun _ => (modify (·.addLog v) : Run Unit)) s :=
  .ends () s [.logged v] (fun _ _ => rfl) (C.logs s v)

/-- A change within the conduct that gives a result. -/
theorem stepGet {f : State → α × State} (h : C.Rel s [] (f s).2)
    (hf : ∀ log, f (s.relogged log) = ((f s).1, (f s).2.relogged log)) :
    Conducts C (fun _ => (modifyGet f : Run α)) s := Seen.stepGet h hf

/-- A change within the conduct. -/
theorem step {f : State → State} (h : C.Rel s [] (f s))
    (hf : ∀ log, f (s.relogged log) = (f s).relogged log) :
    Conducts C (fun _ => (modify f : Run Unit)) s := Seen.step h hf

/-- What is done behind a state that is reached. -/
theorem after (h : C.Rel s [] s') (hx : Conducts C x s') :
    Seen (C.Rel s) (C.Loose s) x s' :=
  hx.mono (fun hP => C.after h hP) fun hL => C.loose_after (C.loose h) hL

/-- What is done behind a run, which neither begins nor ends a flush. -/
theorem bindLevel {f : Notes → α → Run β} (hx : Conducts C x s)
    (hf : ∀ a s', s'.queue.flushing = s.queue.flushing → Conducts C (fun notes => f notes a) s') :
    Conducts C (fun notes => x notes >>= f notes) s :=
  Seen.bind hx (fun a s' _ hseen => (hf a s' (C.level hseen)).mono (fun h => C.trans hseen h)
    fun h => C.loose_trans (C.loose hseen) h) id

/-- Two runs within the conduct, one after the other. -/
theorem bind {f : Notes → α → Run β} (hx : Conducts C x s)
    (hf : ∀ a s', Conducts C (fun notes => f notes a) s') :
    Conducts C (fun notes => x notes >>= f notes) s := hx.bindLevel fun a s' _ => hf a s'

/-- A change of the state, behind which a run starts. -/
theorem change {f : State → State} {k : Notes → Unit → Run β} (h : C.Rel s [] (f s))
    (hk : Conducts C (fun notes => k notes ()) (f s))
    (hf : ∀ log, f (s.relogged log) = (f s).relogged log) :
    Conducts C (fun notes => modify f >>= k notes) s := Seen.change (hk.after h) hf

/-- A change of the state with an answer, behind which a run starts. -/
theorem changeGet {f : State → α × State} {k : Notes → α → Run β} (h : C.Rel s [] (f s).2)
    (hk : Conducts C (fun notes => k notes (f s).1) (f s).2)
    (hf : ∀ log, f (s.relogged log) = ((f s).1, (f s).2.relogged log)) :
    Conducts C (fun notes => modifyGet f >>= k notes) s := Seen.changeGet (hk.after h) hf

/-- A look at the state that does not see the log. -/
theorem look {f : Notes → State → Run β} (h : Conducts C (fun notes => f notes s) s)
    (hf : ∀ notes log, f notes (s.relogged log) = f notes s) :
    Conducts C (fun notes => get >>= f notes) s := Seen.look h hf

/-- Whichever of two runs within the conduct. -/
theorem ite {c : Prop} [Decidable c] {x y : Watch α} (h : c → Conducts C x s)
    (h' : ¬ c → Conducts C y s) : Conducts C (fun notes => if c then x notes else y notes) s :=
  Seen.ite h h'

/-- The same within the conduct for all of a list. -/
theorem forM {f : Notes → β → Run Unit} (h : ∀ b s, Conducts C (fun notes => f notes b) s)
    (l : List β) : Conducts C (fun notes => l.forM (f notes)) s := by
  induction l generalizing s with
  | nil => exact .ret ()
  | cons b l ih => exact (h b s).bind fun _ _ => ih

/-- A run behind which something is restored, whether or not it was broken off. -/
theorem guarding {restore : State → State} (h : Conducts C x s)
    (hrel : ∀ u, C.Rel u [] (restore u))
    (hr : ∀ s log, restore (State.relogged s log) = (restore s).relogged log) :
    Conducts C (fun notes => guarding restore (x notes)) s :=
  Seen.guarding h (fun hP => C.andThen hP (hrel _))
    (fun hL => C.loose_andThen hL (C.loose (hrel _))) hr

/-- A run behind which something is restored if it was broken off. -/
theorem onInterrupt {restore : State → State} (h : Conducts C x s)
    (hrel : ∀ u, C.Rel u [] (restore u))
    (hr : ∀ s log, restore (State.relogged s log) = (restore s).relogged log) :
    Conducts C (fun notes => onInterrupt restore (x notes)) s :=
  Seen.onInterrupt h (fun hL => C.loose_andThen hL (C.loose (hrel _))) hr

end Conducts

end Rivulet.Engine
