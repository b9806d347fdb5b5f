import Mathlib.Data.List.Nodup
import Rivulet.Proofs.Reactive.Computing

/-!
# Programs that observe

The functions of computed values, and the programs of effects that write nothing, create nothing
and dispose nothing: they read, effects may log, and they do nothing else. A state is orderly if
computed values and effects do no more than that, and if computed values have ranks that fall
along everything that they read.
-/

namespace Rivulet

/-- A set of values that the answers of the library do not lead out of. -/
structure Json.Admits (A : Json → Prop) : Prop where
  /-- The value of what has none. -/
  null : A .null
  /-- Sizes. -/
  nat : ∀ n : Nat, A (.ofNat n)
  /-- Yes and no. -/
  bool : ∀ b : Bool, A (.bool b)
  /-- Texts. -/
  str : ∀ s : String, A (.str s)
  /-- An object that says something of a value. -/
  field : ∀ (name : String) (v : Json), A v → A (.obj [(name, v)])

/-- All values. -/
theorem Json.admits_true : Json.Admits fun _ => True :=
  ⟨trivial, fun _ => trivial, fun _ => trivial, fun _ => trivial, fun _ _ _ => trivial⟩

/-- The values that are equal to themselves only. -/
theorem Json.admits_exact : Json.Admits Json.Exact :=
  ⟨exact_null, exact_ofNat, exact_bool, exact_str, fun _ _ h => exact_field h⟩

/-- A program of certain calls, with parts in certain enclosures, as long as all answers and all
outcomes of parts are of a certain kind; and how it may end. -/
inductive Program.Over (ops : Op → Prop) (enclosures : Enclosure → Prop) (A : Json → Prop) :
    (Outcome → Prop) → Program → Prop where
  /-- The end. -/
  | stop {ends : Outcome → Prop} {o : Outcome} (h : ends o) : Over ops enclosures A ends (.stop o)
  /-- A call. -/
  | op {ends : Outcome → Prop} {o : Op} {next : Option Json → Program} (allowed : ops o)
      (rest : ∀ a : Option Json, (∀ v ∈ a, A v) → Over ops enclosures A ends (next a)) :
      Over ops enclosures A ends (.op o next)
  /-- A part. -/
  | within {ends : Outcome → Prop} {e : Enclosure} {body : Program}
      {next : Outcome → Option Json → Program} (allowed : enclosures e)
      (inside : Over ops enclosures A (fun o => A o.get) body)
      (rest : ∀ o : Outcome, A o.get → Over ops enclosures A ends (next o none)) :
      Over ops enclosures A ends (.within e body next)

/-- A call that reads a name, or logs what may be logged. If all reads have to be tracked, it reads
no query. -/
inductive Op.Observes (tracked : Prop) (logs : Json → Prop) (sees : String → Prop) : Op → Prop where
  /-- A tracked read. -/
  | get {x : String} (h : sees x) : Observes tracked logs sees (.get x)
  /-- A tracked read of the size of a value. -/
  | size {x : String} (h : sees x) : Observes tracked logs sees (.size x)
  /-- An untracked read. -/
  | peek {x : String} (free : ¬tracked) (h : sees x) : Observes tracked logs sees (.peek x)
  /-- A read of the state of a query. -/
  | state (free : ¬tracked) (x : String) : Observes tracked logs sees (.state x)
  /-- A read of whether a query is loading. -/
  | loading (free : ¬tracked) (x : String) : Observes tracked logs sees (.loading x)
  /-- Logging. -/
  | log {v : Json} (allowed : logs v) : Observes tracked logs sees (.log v)

/-- An enclosure that a program that observes may use. -/
inductive Enclosure.Observes (tracked : Prop) : Enclosure → Prop where
  /-- Nothing but the part. -/
  | plain : Observes tracked .plain
  /-- A batch, in which nothing is written. -/
  | batch : Observes tracked .batch
  /-- An untracked section. -/
  | untrack (free : ¬tracked) : Observes tracked .untrack

/-- A program that reads, logs what may be logged, and does nothing else. -/
abbrev Program.Observes (tracked : Prop) (logs : Json → Prop) (sees : String → Prop)
    (A : Json → Prop) : (Outcome → Prop) → Program → Prop :=
  Program.Over (Op.Observes tracked logs sees) (Enclosure.Observes tracked) A

namespace Engine

/-- What is assumed of the values and programs in a state. -/
structure Setting where
  /-- Which values there are. -/
  value : Json → Prop
  /-- Answers of the library are among them. -/
  admits : Json.Admits value
  /-- Whether all reads have to be tracked. -/
  tracked : Prop
  /-- What an effect may log. -/
  logs : NodeId → Json → Prop
  /-- The ranks of computed values. -/
  rank : NodeId → Nat

/-- The setting in which nothing is assumed of values, reads and logs. -/
def Setting.free (rank : NodeId → Nat) : Setting where
  value _ := True
  admits := Json.admits_true
  tracked := False
  logs _ _ := True
  rank

/-- What a handle of a signal or a computed value has behind it. -/
def Handle.Stands (cells : Std.HashMap NodeId Cell) : Handle → Prop
  | signal id | pair id => ∃ v, cells[id]? = some (.signal v)
  | computed id => ∃ p v, cells[id]? = some (.computed p v)
  | query id _ => ∃ v, cells[id]? = some (.query v)
  | _ => True

namespace State

theorem effect?_eq_some {s : State} {id : NodeId} {e : Effect} :
    s.effect? id = some e ↔ s.cells[id]? = some (.effect e) := by
  rw [effect?]
  split
  · rename_i f hf
    rw [hf, Option.some.injEq, Option.some.injEq, Cell.effect.injEq]
  · rename_i hnone
    exact ⟨fun h => absurd h (by simp), fun h => absurd h (hnone e)⟩

/-- A name does not stand for a computed value from some rank on. -/
def Below (s : State) (rank : NodeId → Nat) (b : Nat) (x : String) : Prop :=
  ∀ id, s.handle? x = some (.computed id) → rank id < b

/-- Some name stands for a node. -/
def IsNamed (s : State) (id : NodeId) : Prop := s.names.any (·.2.node? == some id) = true

/-- A scope is gone, or owns nothing. -/
def IsBare (s : State) (id : ScopeId) : Prop :=
  ∀ sc, s.scopes.live[id]? = some sc → sc.holdings = {}

/-- Something refers to all query data. -/
def Swept (s : State) : Prop := ∀ (id : ClientId) c, s.clients[id]? = some c →
    s.keepsClient id = true

end State

/-- A program that an effect may run. -/
abbrev Setting.Reacts (D : Setting) (id : NodeId) (ends : Outcome → Prop) (p : Program) : Prop :=
  p.Observes D.tracked (D.logs id) (fun _ => True) D.value ends

/-- An effect that writes nothing, creates nothing and disposes nothing. If its failures count as
errors it does not fail. -/
def Reaction.Observes (D : Setting) (s : State) (id : NodeId) : Reaction → Prop
  | body p fallible => D.Reacts id (fun o => fallible = true → ∃ v, o = .value v) p
  | text _ _ p => D.Reacts id (fun _ => True) p
  | attr document node _ p => (s.document document).holds node = true ∧
      D.Reacts id (fun _ => True) p
  | insert _ _ p first => first = none ∧ D.Reacts id (fun _ => True) p
  | region .. => False

/-- A state in which computed values and effects do nothing but observe. -/
structure State.Orderly (D : Setting) (s : State) : Prop where
  /-- The values of signals. -/
  signal : ∀ (id : NodeId) v, s.cells[id]? = some (.signal v) → D.value v
  /-- The values of queries. -/
  query : ∀ (id : NodeId) v, s.cells[id]? = some (.query (some v)) → D.value v
  /-- The function of a computed value reads computed values of lower rank. -/
  computed : ∀ (id : NodeId) p v, s.cells[id]? = some (.computed p v) →
    p.Observes D.tracked (fun _ => False) (s.Below D.rank (D.rank id)) D.value
      (fun o => D.value o.get) ∧
      ∀ w ∈ v, D.value w
  /-- Effects observe, and have created nothing. -/
  effect : ∀ (id : NodeId) e, s.cells[id]? = some (.effect e) →
    e.reaction.Observes D s id ∧ s.IsBare e.scope
  /-- Names stand for something of their kind. -/
  stands : ∀ x h, s.handle? x = some h → h.Stands s.cells
  /-- A node is derived if a computed value is behind it. -/
  derived : ∀ id n, s.graph.find? id = some n →
    (n.kind = .derived ↔ ∃ p v, s.cells[id]? = some (.computed p v))
  /-- A node is that of an effect if an effect is behind it. -/
  reacting : ∀ id n, s.graph.find? id = some n →
    (n.kind = .effect ↔ ∃ e, s.cells[id]? = some (.effect e))
  /-- A computed value that need not run keeps a value. -/
  kept : ∀ id n, s.graph.find? id = some n → n.kind = .derived → n.mark ≠ .dirty →
    s.tracking.isRunning id = false → ∃ p v, s.cells[id]? = some (.computed p (some v))
  /-- Computed values have names. -/
  named : ∀ id n, s.graph.find? id = some n → n.kind = .derived → s.IsNamed id
  /-- Computed values have read computed values of lower rank. -/
  descends : ∀ id n, s.graph.find? id = some n → n.kind = .derived → ∀ seen ∈ n.dependencies,
    ∀ m, s.graph.find? seen.node = some m → m.kind = .derived → D.rank seen.node < D.rank id
  /-- Query data that nothing refers to is gone. -/
  swept : s.Swept

/-- Two signals that hold zero, and an effect that runs a program and has read the first one. -/
def State.watched (p : Program) (log : List Json) : State where
  graph := (({} : Graph).insert ⟨0⟩ ⟨.source, .clean, 0, [], [⟨2⟩]⟩ |>.insert ⟨1⟩
    ⟨.source, .clean, 0, [], []⟩).insert ⟨2⟩ ⟨.effect, .clean, 0, [⟨⟨0⟩, 0⟩], []⟩
  cells := (∅ : Std.HashMap NodeId Cell).insert ⟨0⟩ (.signal (.int 0)) |>.insert ⟨1⟩
    (.signal (.int 0))
    |>.insert ⟨2⟩ (.effect { reaction := .body p false, scope := ⟨0⟩, runs := 1 })
  kinds := #[.source, .source, .effect]
  scopes := { live := (∅ : Std.HashMap _ _).insert ⟨0⟩ { parent := none }, next := 1 }
  names := [("e", .effect ⟨2⟩), ("b", .signal ⟨1⟩), ("a", .signal ⟨0⟩)]
  log := log

section

variable {p : Program} {log : List Json}

theorem find?_watched (id : NodeId) : (State.watched p log).graph.find? id =
    if id = ⟨2⟩ then some ⟨.effect, .clean, 0, [⟨⟨0⟩, 0⟩], []⟩
    else if id = ⟨1⟩ then some ⟨.source, .clean, 0, [], []⟩
    else if id = ⟨0⟩ then some ⟨.source, .clean, 0, [], [⟨2⟩]⟩ else none := by
  by_cases h2 : id = ⟨2⟩
  · subst h2
    exact Graph.find?_insert_self _ _ _
  · rw [if_neg h2, State.watched, Graph.find?_insert_of_ne _ h2]
    by_cases h1 : id = ⟨1⟩
    · subst h1
      exact Graph.find?_insert_self _ _ _
    · rw [if_neg h1, Graph.find?_insert_of_ne _ h1]
      by_cases h0 : id = ⟨0⟩
      · subst h0
        exact Graph.find?_insert_self _ _ _
      · rw [if_neg h0, Graph.find?_insert_of_ne _ h0]
        simp [Graph.find?]

theorem cells_watched (id : NodeId) : (State.watched p log).cells[id]? =
    if id = ⟨2⟩ then some (.effect { reaction := .body p false, scope := ⟨0⟩, runs := 1 })
    else if id = ⟨1⟩ ∨ id = ⟨0⟩ then some (.signal (.int 0)) else none := by
  have hbeq (i j : NodeId) : (i == j) = decide (j = i) := by
    rw [Bool.eq_iff_iff, beq_iff_eq, decide_eq_true_eq, eq_comm]
  rw [State.watched, Std.HashMap.getElem?_insert, Std.HashMap.getElem?_insert,
    Std.HashMap.getElem?_insert, hbeq, hbeq, hbeq]
  by_cases h2 : id = ⟨2⟩
  · simp [h2]
  · by_cases h1 : id = ⟨1⟩
    · simp [h1]
    · by_cases h0 : id = ⟨0⟩
      · simp [h0]
      · simp [h0, h1, h2]

theorem eq_of_isEffect_watched {id : NodeId}
    (h : (State.watched p log).graph.isEffect id = true) : id = ⟨2⟩ := by
  rw [Graph.isEffect, find?_watched] at h
  by_contra hne
  rw [if_neg hne] at h
  by_cases hone : id = ⟨1⟩
  · simp [hone] at h
  · by_cases hzero : id = ⟨0⟩
    · simp [hzero] at h
    · simp [hone, hzero] at h

/-- There is one effect. -/
theorem length_le_of_isEffect_watched {ids : List NodeId} (hnodup : ids.Nodup)
    (hids : ∀ id ∈ ids, (State.watched p log).graph.isEffect id = true) : ids.length ≤ 1 := by
  have hone := List.eq_replicate_of_mem fun id hid => eq_of_isEffect_watched (hids id hid)
  rwa [hone, List.nodup_replicate] at hnodup

theorem handle?_watched (x : String) : (State.watched p log).handle? x =
    if x = "e" then some (.effect ⟨2⟩) else if x = "b" then some (.signal ⟨1⟩)
    else if x = "a" then some (.signal ⟨0⟩) else none := by
  rw [State.handle?, State.watched, List.lookup_cons, List.lookup_cons, List.lookup_cons,
    List.lookup_nil]
  by_cases he : x = "e"
  · simp [he]
  · by_cases hb : x = "b"
    · simp [hb]
    · have he' : (x == "e") = false := by simpa using he
      have hb' : (x == "b") = false := by simpa using hb
      by_cases ha : x = "a"
      · simp [ha]
      · have ha' : (x == "a") = false := by simpa using ha
        simp [he, hb, ha, he', hb', ha']

theorem orderly_watched {D : Setting} (hzero : D.value (.int 0))
    (hp : D.Reacts ⟨2⟩ (fun o => false = true → ∃ v, o = .value v) p) :
    (State.watched p log).Orderly D := by
  have hcomputed (id : NodeId) (q : Program) (v : Option Json) :
      (State.watched p log).cells[id]? ≠ some (.computed q v) := by
    rw [cells_watched]
    split
    · simp
    · split <;> simp
  have hkind (id : NodeId) (n : Graph.Node) (hn : (State.watched p log).graph.find? id = some n) :
      n.kind ≠ .derived := by
    rw [find?_watched] at hn
    split at hn
    · obtain rfl := Option.some.inj hn
      simp
    · split at hn
      · obtain rfl := Option.some.inj hn
        simp
      · split at hn
        · obtain rfl := Option.some.inj hn
          simp
        · cases hn
  constructor
  · intro id v hv
    rw [cells_watched] at hv
    split at hv
    · cases hv
    · split at hv
      · obtain rfl := Cell.signal.inj (Option.some.inj hv)
        exact hzero
      · cases hv
  · intro id v hv
    rw [cells_watched] at hv
    split at hv
    · cases hv
    · split at hv <;> cases hv
  · exact fun id p v h => absurd h (hcomputed id p v)
  · intro id e he
    rw [cells_watched] at he
    split at he
    · rename_i hid
      obtain rfl := Cell.effect.inj (Option.some.inj he)
      refine ⟨hid ▸ hp, fun sc hsc => ?_⟩
      simp only [State.watched, Std.HashMap.getElem?_insert_self, Option.some.injEq] at hsc
      rw [← hsc]
    · split at he <;> cases he
  · intro x h hx
    rw [handle?_watched] at hx
    split at hx
    · obtain rfl := Option.some.inj hx
      trivial
    · split at hx
      · obtain rfl := Option.some.inj hx
        exact ⟨.int 0, by rw [cells_watched]; rfl⟩
      · split at hx
        · obtain rfl := Option.some.inj hx
          exact ⟨.int 0, by rw [cells_watched]; rfl⟩
        · cases hx
  · intro id n hn
    refine ⟨fun hk => absurd hk (hkind id n hn), ?_⟩
    rintro ⟨q, v, hv⟩
    exact absurd hv (hcomputed id q v)
  · intro id n hn
    rw [find?_watched] at hn
    rw [cells_watched]
    split at hn
    · rename_i hid
      obtain rfl := Option.some.inj hn
      simp [hid]
    · rename_i hid
      rw [if_neg hid]
      split at hn
      · obtain rfl := Option.some.inj hn
        split <;> simp
      · split at hn
        · obtain rfl := Option.some.inj hn
          split <;> simp
        · cases hn
  · exact fun id n hn hk => absurd hk (hkind id n hn)
  · exact fun id n hn hk => absurd hk (hkind id n hn)
  · exact fun id n hn hk => absurd hk (hkind id n hn)
  · intro id c hc
    have hnone : (State.watched p log).clients[id]? = none := by simp [State.watched]
    rw [hnone] at hc
    cases hc

end

end Engine

end Rivulet
