import Rivulet.Engine.Interpreter

/-!
# Recursive evaluation

What a computed value should be: the outcome of its program on the current values of the signals,
where each computed value that the program reads is evaluated in the same way. Neither marks nor
epochs nor values of earlier runs take part in it.

The programs that the laws of reading speak of are made of signals, computed values and effects.
Names have ranks. The function of a computed value reads names of lower rank than its own and does
nothing else; what they stand for may be created later. The programs around it create, write, batch
and read as they like. All values are equal to themselves only.
-/

namespace Rivulet

/-- A value that is equal to itself only. -/
def Json.Exact (v : Json) : Prop := ∀ w, (v == w) = true → w = v

/-- The null is equal to itself only. -/
theorem Json.exact_null : Json.null.Exact := by
  intro w h
  cases w with
  | null => rfl
  | _ => exact absurd h (by simp [BEq.beq, Json.beq])

/-- A natural number is equal to itself only. -/
theorem Json.exact_ofNat (n : Nat) : (Json.ofNat n).Exact := by
  intro w h
  cases w with
  | int m =>
    simp only [Json.ofNat, BEq.beq, Json.beq, decide_eq_true_eq] at h
    exact congrArg Json.int h.symm
  | _ => exact absurd h (by simp [BEq.beq, Json.ofNat, Json.beq])

/-- A truth value is equal to itself only. -/
theorem Json.exact_bool (b : Bool) : (Json.bool b).Exact := by
  intro w h
  cases w with
  | bool c =>
    have hbc : b = c := by simpa [BEq.beq, Json.beq] using h
    rw [hbc]
  | _ => exact absurd h (by simp [BEq.beq, Json.beq])

/-- A text is equal to itself only. -/
theorem Json.exact_str (s : String) : (Json.str s).Exact := by
  intro w h
  cases w with
  | str t =>
    simp only [BEq.beq, Json.beq, decide_eq_true_eq] at h
    rw [h]
  | _ => exact absurd h (by simp [BEq.beq, Json.beq])

/-- An object with one field is equal to itself only if the value of the field is. -/
theorem Json.exact_field {name : String} {v : Json} (h : v.Exact) :
    (Json.obj [(name, v)]).Exact := by
  intro w hw
  cases w with
  | obj fields =>
    rcases fields with _ | ⟨⟨k, a⟩, rest⟩
    · simp [BEq.beq, Json.beq, Json.beqFields] at hw
    · rcases rest with _ | ⟨b, rest⟩
      · simp only [BEq.beq, Json.beq, Json.beqFields, Bool.and_true, Bool.and_eq_true,
          decide_eq_true_eq] at hw
        rw [hw.1, h a hw.2]
      · simp [BEq.beq, Json.beq, Json.beqFields] at hw
  | _ => exact absurd hw (by simp [BEq.beq, Json.beq])

namespace Program

/-- The outcome of a program that only reads, given what names stand for and what the values
behind the nodes are. -/
def evaluate (look : String → Option NodeId) (val : NodeId → Json) : Program → Outcome
  | .stop o => o
  | .op (.get x) next => (next ((look x).map val)).evaluate look val
  | .op (.size x) next =>
    (next ((look x).map fun id => .ofNat (Text.byteLength (val id).print))).evaluate look val
  | .within .plain body next | .within .batch body next =>
    (next (body.evaluate look val) none).evaluate look val
  | _ => .value .null

/-- The names that a program reads, in order, if it only reads. -/
def reads (look : String → Option NodeId) (val : NodeId → Json) : Program → List String
  | .op (.get x) next => x :: (next ((look x).map val)).reads look val
  | .op (.size x) next =>
    x :: (next ((look x).map fun id => .ofNat (Text.byteLength (val id).print))).reads look val
  | .within .plain body next | .within .batch body next =>
    body.reads look val ++ (next (body.evaluate look val) none).reads look val
  | _ => []

end Program

namespace Engine

/-- The node of a signal or a computed value behind a handle. -/
def Handle.value? : Handle → Option NodeId
  | signal id | pair id | computed id => some id
  | _ => none

namespace State

/-- The signal or computed value that a name stands for. -/
def lookup (s : State) (name : String) : Option NodeId := (s.handle? name).bind Handle.value?

/-- The value of a node, evaluated no deeper than the given bound. -/
def evaluateWithin (s : State) : Nat → NodeId → Json
  | 0, _ => .null
  | n + 1, id =>
    match s.cells[id]? with
    | some (.signal v) => v
    | some (.computed p _) => (p.evaluate s.lookup (s.evaluateWithin n)).get
    | _ => .null

/-- The value of a node, evaluated on the current values of the signals. Computed values that read
each other in a row are no more than there are nodes. -/
def evaluate (s : State) (id : NodeId) : Json := s.evaluateWithin s.kinds.size id

/-- All names that a program reads stand for something, if a computed value runs it. -/
def Bound (s : State) (p : Program) : Prop :=
  s.tracking.inDerived = true → ∀ x ∈ p.reads s.lookup s.evaluate, (s.lookup x).isSome = true

end State

open Classical in
/-- Runs the read of a computed value, and gives up if it breaks down or gives anything else than
recursive evaluation does. -/
noncomputable def auditing (id : NodeId) (body : Run Outcome) : Run Outcome := fun s =>
  match body s with
  | .ok o s' => if o = .value (s'.evaluate id) then .ok o s' else .error .outOfFuel s'
  | .error _ s' => .error .outOfFuel s'

/-- The kernel that gives up at the first read of a computed value that does not give what
recursive evaluation does, and is the usual one otherwise. -/
noncomputable def audited : Nat → Kernel
  | 0 => fun _ => throw .outOfFuel
  | n + 1 => fun
    | .read id => auditing id (answer (audited n) (.read id))
    | c => answer (audited n) c

open Classical in
/-- The kernel that breaks down, with a message, where the function of a computed value is about to
read a name that stands for nothing, and is the usual one otherwise. -/
noncomputable def wary (message : String) : Nat → Kernel
  | 0 => fun _ => throw .outOfFuel
  | n + 1 => fun
    | .exec p => fun s =>
      if s.Bound p then answer (wary message n) (.exec p) s else panicWith message s
    | c => answer (wary message n) c

end Engine

/-- A program that computes a value from what readable names stand for, and does nothing else. -/
inductive Program.Computes (readable : String → Prop) : Program → Prop where
  /-- The end. -/
  | stop {o : Outcome} (exact : o.get.Exact) : Computes readable (.stop o)
  /-- A tracked read. -/
  | get {x : String} {next : Option Json → Program} (mem : readable x)
      (rest : ∀ a : Option Json, (∀ v ∈ a, v.Exact) → Computes readable (next a)) :
      Computes readable (.op (.get x) next)
  /-- A tracked read of the size of a value. -/
  | size {x : String} {next : Option Json → Program} (mem : readable x)
      (rest : ∀ a : Option Json, (∀ v ∈ a, v.Exact) → Computes readable (next a)) :
      Computes readable (.op (.size x) next)
  /-- A part, maybe inside a batch. -/
  | within {e : Enclosure} {body : Program} {next : Outcome → Option Json → Program}
      (enclosure : e = .plain ∨ e = .batch) (inside : Computes readable body)
      (rest : ∀ o : Outcome, o.get.Exact → Computes readable (next o none)) :
      Computes readable (.within e body next)

/-- A call that logs, reads or writes. -/
inductive Op.Plain : Op → Prop where
  /-- Logging. -/
  | log (v : Json) : Plain (.log v)
  /-- A tracked read. -/
  | get (x : String) : Plain (.get x)
  /-- An untracked read. -/
  | peek (x : String) : Plain (.peek x)
  /-- A tracked read of the size of a value. -/
  | size (x : String) : Plain (.size x)
  /-- A write. -/
  | set (x : String) {v : Json} (exact : v.Exact) : Plain (.set x v)
  /-- A write that may be refused. -/
  | trySet (x : String) {v : Json} (exact : v.Exact) : Plain (.trySet x v)
  /-- An update. -/
  | update (x : String) {v : Json} (exact : v.Exact) : Plain (.update x v)
  /-- An update that may be refused. -/
  | tryUpdate (x : String) {v : Json} (exact : v.Exact) : Plain (.tryUpdate x v)

/-- A program that creates, writes and reads signals, computed values and effects, batches and
untracked sections nested to any depth. Names have ranks, and the function of a computed value reads
names of lower rank than its own, whether they stand for something already or not. -/
inductive Program.Acts (rank : String → Nat) : Program → Prop where
  /-- The end. -/
  | stop {o : Outcome} (exact : o.get.Exact) : Acts rank (.stop o)
  /-- A breakdown. -/
  | panic (message : String) : Acts rank (.panic message)
  /-- Logging, reading and writing. -/
  | op {o : Op} {next : Option Json → Program} (plain : o.Plain)
      (rest : ∀ a : Option Json, (∀ v ∈ a, v.Exact) → Acts rank (next a)) :
      Acts rank (.op o next)
  /-- A new signal. -/
  | signal {name : Option String} {v : Json} {next : Option Json → Program} (exact : v.Exact)
      (rest : Acts rank (next none)) : Acts rank (.op (.signal name v) next)
  /-- A new signal in two halves. -/
  | pair {name : Option String} {v : Json} {next : Option Json → Program} (exact : v.Exact)
      (rest : Acts rank (next none)) : Acts rank (.op (.pair name v) next)
  /-- A part, maybe inside a batch or an untracked section. -/
  | within {e : Enclosure} {body : Program} {next : Outcome → Option Json → Program}
      (enclosure : e ∈ [.plain, .batch, .untrack]) (inside : Acts rank body)
      (rest : ∀ o : Outcome, o.get.Exact → Acts rank (next o none)) :
      Acts rank (.within e body next)
  /-- A new computed value. -/
  | computed {name : Option String} {body : Json → Program} {next : Option Json → Program}
      (function : (body .null).Computes fun x => ∀ y ∈ name, rank x < rank y)
      (rest : Acts rank (next none)) : Acts rank (.install (.computed name) body next)
  /-- A new effect. -/
  | effect {name : Option String} {fallible : Bool} {body : Json → Program}
      {next : Option Json → Program} (inside : Acts rank (body .null))
      (rest : Acts rank (next none)) : Acts rank (.install (.effect name fallible) body next)

/-- More names may be readable. -/
theorem Program.Computes.imp {readable readable' : String → Prop} {p : Program}
    (h : p.Computes readable) (himp : ∀ x, readable x → readable' x) : p.Computes readable' := by
  induction h with
  | stop exact => exact .stop exact
  | get mem rest ih => exact .get (himp _ mem) ih
  | size mem rest ih => exact .size (himp _ mem) ih
  | within enclosure inside rest ihinside ihrest => exact .within enclosure ihinside ihrest

/-- A program that computes a value is one of those that act. -/
theorem Program.Computes.acts {readable : String → Prop} {p : Program} (h : p.Computes readable)
    (rank : String → Nat) : p.Acts rank := by
  induction h with
  | stop exact => exact .stop exact
  | get mem rest ih => exact .op (.get _) ih
  | size mem rest ih => exact .op (.size _) ih
  | within enclosure inside rest ihinside ihrest =>
    refine .within ?_ ihinside ihrest
    rcases enclosure with rfl | rfl <;> simp

/-- A program that computes acts. -/
theorem Program.Computes.acts_any {readable : String → Prop} {p : Program}
    (h : p.Computes readable) : ∃ rank, p.Acts rank := ⟨fun _ => 0, h.acts _⟩

namespace Engine.State

/-- Whether a node was created as a signal or as a computed value. -/
def IsValue (s : State) (id : NodeId) : Prop :=
  s.kinds[id.index]? = some .source ∨ s.kinds[id.index]? = some .derived

/-- A state in which all signals and computed values that were ever created are there, have their
names, and have changed less often than an epoch can count. -/
structure Intact (s : State) : Prop where
  /-- They are in the graph, and no epoch has come round. -/
  live : ∀ id, s.IsValue id → ∃ n, s.graph.find? id = some n ∧ n.changes < UInt64.size
  /-- Each of them has a name. -/
  named : ∀ id, s.IsValue id → ∃ x, s.lookup x = some id

end Engine.State

/-! ## Replaying programs

What a program that observes gives and logs, as a function of the values that it reads. An effect
may report what it observes: it logs a mark under a name of its own when it starts, and then what
it has to say under that name. The last report of the effect can be read off the log. -/

namespace Program

/-- The outcome of a program and what it logs, given what names stand for and what the values
behind the nodes are. -/
def replay (look : String → Option NodeId) (val : NodeId → Json) : Program → Outcome × List Json
  | .stop o => (o, [])
  | .op (.get x) next => (next ((look x).map val)).replay look val
  | .op (.size x) next =>
    (next ((look x).map fun id => .ofNat (Text.byteLength (val id).print))).replay look val
  | .op (.log v) next =>
    let rest := (next none).replay look val
    (rest.1, v :: rest.2)
  | .within .plain body next | .within .batch body next =>
    let first := body.replay look val
    let rest := (next first.1 none).replay look val
    (rest.1, first.2 ++ rest.2)
  | _ => (.value .null, [])

end Program

namespace Engine

/-- The mark that starts a report. -/
def opening (name : String) : Json := .arr [.str name]

/-- What a report says. -/
def remark (name : String) (v : Json) : Json := .arr [.str name, v]

/-- What is logged under a name. -/
def Signed (name : String) (v : Json) : Prop := v = opening name ∨ ∃ w, v = remark name w

/-- What was logged under a name since its last mark, in the order of the log, which has the
latest first. -/
def lastReport (name : String) : List Json → List Json
  | [] => []
  | .arr [.str n] :: rest => if n = name then [] else lastReport name rest
  | .arr [.str n, v] :: rest => if n = name then v :: lastReport name rest else lastReport name rest
  | _ :: rest => lastReport name rest

/-- A report that was started is empty. -/
@[simp] theorem lastReport_opening_self (name : String) (log : List Json) :
    lastReport name (opening name :: log) = [] := by
  simp [lastReport, opening]

/-- A remark is the newest of the report. -/
@[simp] theorem lastReport_remark_self (name : String) (v : Json) (log : List Json) :
    lastReport name (remark name v :: log) = v :: lastReport name log := by
  simp [lastReport, remark]

/-- What is logged under another name is passed over. -/
theorem lastReport_cons_of_ne {name other : String} (h : other ≠ name) {v : Json}
    (hv : Signed other v) (log : List Json) : lastReport name (v :: log) = lastReport name log := by
  rcases hv with rfl | ⟨w, rfl⟩ <;> simp [lastReport, opening, remark, h]

/-- Nothing before the mark that a report starts with belongs to it. -/
theorem lastReport_append_opening {name : String} {l : List Json} (hl : ∀ v ∈ l, Signed name v)
    (log : List Json) : lastReport name (l ++ opening name :: log) =
      lastReport name (l ++ [opening name]) := by
  induction l with
  | nil => simp
  | cons v l ih =>
    have hrest := ih fun w hw => hl w (List.mem_cons_of_mem v hw)
    rcases hl v List.mem_cons_self with rfl | ⟨w, rfl⟩
    · simp
    · simp only [List.cons_append, lastReport_remark_self, hrest]

end Engine

end Rivulet
