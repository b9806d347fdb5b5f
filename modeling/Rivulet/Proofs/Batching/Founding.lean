import Rivulet.Proofs.Batching.Agreeing

/-!
# Founding

From the state in which there is nothing, programs that create signals, computed values and effects
lead to poised states. A computation may read what is created behind it, as long as what it reads is
there when the next effect is created.
-/

namespace Rivulet

/-- A name that stands for no other nodes than some. -/
def Sees (name : NodeId → String) (among : NodeId → Prop) (x : String) : Prop :=
  ∀ j, name j = x → among j

/-- A program that reads certain names only, whatever it is answered. -/
abbrev Program.Reads (sees : String → Prop) (p : Program) : Prop :=
  p.Observes True (fun _ => True) sees (fun _ => True) fun _ => True

/-- What a program reads is not more than what it reads whatever it is answered. -/
theorem Program.Over.of_reads {logs : Json → Prop} {sees : String → Prop} {A : Json → Prop}
    {ends : Outcome → Prop} {p : Program}
    (h : p.Observes True logs (fun _ => True) A ends) (hreads : p.Reads sees) :
    p.Observes True logs sees A ends := by
  induction h with
  | stop h => exact .stop h
  | op allowed _ ih =>
    cases hreads with
    | op hsees hrest =>
      refine .op ?_ fun a ha => ih a ha (hrest a fun _ _ => trivial)
      cases hsees with
      | get h => exact .get h
      | size h => exact .size h
      | peek free => exact absurd trivial free
      | state free => exact absurd trivial free
      | loading free => exact absurd trivial free
      | log => cases allowed with | log h => exact .log h
  | within allowed _ _ ihbody ihnext =>
    cases hreads with
    | within _ hbody hrest =>
      exact .within allowed (ihbody hbody) fun o ho => ihnext o ho (hrest o trivial)

/-- More names may be read. -/
theorem Program.Over.mono_sees {logs : Json → Prop} {sees sees' : String → Prop} {A : Json → Prop}
    {ends : Outcome → Prop} {p : Program} (h : p.Observes True logs sees A ends)
    (hsees : ∀ x, sees x → sees' x) : p.Observes True logs sees' A ends := by
  induction h with
  | stop h => exact .stop h
  | op allowed _ ih =>
    refine .op ?_ ih
    cases allowed with
    | get h => exact .get (hsees _ h)
    | size h => exact .size (hsees _ h)
    | peek free => exact absurd trivial free
    | state free => exact absurd trivial free
    | loading free => exact absurd trivial free
    | log h => exact .log h
  | within allowed _ _ ihbody ihnext => exact .within allowed ihbody ihnext

/-- What a program gives and logs does not depend on names that it does not read. -/
theorem Program.Reads.replay_congr {sees : String → Prop} {look look' : String → Option NodeId}
    {p : Program} (h : p.Reads sees) (hlook : ∀ x, sees x → look' x = look x)
    (val : NodeId → Json) : p.replay look' val = p.replay look val := by
  rw [Reads] at h
  generalize (fun _ => True : Outcome → Prop) = ends at h
  induction h with
  | stop h => rfl
  | op allowed _ ih =>
    have hnext (a : Option Json) := ih a fun _ _ => trivial
    cases allowed with
    | get h => rw [replay, replay, hlook _ h, hnext]
    | size h => rw [replay, replay, hlook _ h, hnext]
    | peek free => exact absurd trivial free
    | state free => exact absurd trivial free
    | loading free => exact absurd trivial free
    | log h => rw [replay, replay, hnext]
  | within allowed _ _ ihbody ihnext =>
    have hnext (o : Outcome) := ihnext o trivial
    cases allowed with
    | plain | batch => simp only [replay, ihbody, hnext]
    | untrack free => exact absurd trivial free

/-- A program that creates signals, computed values and effects, each under the name of its node,
from the node of some number on and behind some number of effects. All reads are tracked, all values
are equal to themselves only, and effects log under their names. -/
inductive Program.Founds (name : NodeId → String) (rank : NodeId → Nat)
    (reads : NodeId → NodeId → Prop) : Nat → Nat → Program → Prop where
  /-- The end. -/
  | stop {n k : Nat} (o : Outcome) : Founds name rank reads n k (.stop o)
  /-- A signal is created. -/
  | signal {n k : Nat} {v : Json} {next : Option Json → Program} (exact : v.Exact)
      (rest : Founds name rank reads (n + 1) k (next none)) :
      Founds name rank reads n k (.op (.signal (some (name ⟨n⟩)) v) next)
  /-- A signal is created and split. -/
  | pair {n k : Nat} {v : Json} {next : Option Json → Program} (exact : v.Exact)
      (rest : Founds name rank reads (n + 1) k (next none)) :
      Founds name rank reads n k (.op (.pair (some (name ⟨n⟩)) v) next)
  /-- A computed value is created, which reads nothing but what is of lower rank. -/
  | computed {n k : Nat} {body : Json → Program} {next : Option Json → Program}
      (observes : (body .null).Observes True (fun _ => False) (fun _ => True) Json.Exact
        fun o => o.get.Exact)
      (closed : (body .null).Reads (Sees name (reads ⟨n⟩)))
      (falls : ∀ j, reads ⟨n⟩ j → rank j < rank ⟨n⟩)
      (rest : Founds name rank reads (n + 1) k (next none)) :
      Founds name rank reads n k (.install (.computed (some (name ⟨n⟩))) body next)
  /-- An effect is created. What it and the computed values in front of it may read is there. -/
  | effect {n k : Nat} {fallible : Bool} {body : Json → Program} {next : Option Json → Program}
      (observes : (body .null).Observes True (Engine.Signed (name ⟨n⟩)) (fun _ => True) Json.Exact
        fun o => fallible = true → ∃ v, o = .value v)
      (closed : (body .null).Reads (Sees name (reads ⟨n⟩)))
      (known : ∀ i ≤ n, ∀ j, reads ⟨i⟩ j → j.index < n) (few : k < Engine.flushLimit)
      (rest : Founds name rank reads (n + 1) (k + 1) (next none)) :
      Founds name rank reads n k (.install (.effect (some (name ⟨n⟩)) fallible) body next)

namespace Graph

variable {α : Type} {g : Graph} {running : NodeId → Bool} {kept kept' : NodeId → α}
  {shows shows' : NodeId → (NodeId → α) → Prop}

/-- A new node is read by nobody, and has read nothing. -/
theorem Faithful.insert (h : g.Faithful running kept shows) {id : NodeId} (hid : g.find? id = none)
    (kind : Kind) (hkept : ∀ j, j ≠ id → kept' j = kept j)
    (hshows : ∀ j n, g.find? j = some n → n.kind ≠ .source → n.mark ≠ .dirty →
      ∀ val, shows j val → shows' j val) :
    (g.insert id (.new kind)).Faithful running kept' shows' := by
  have hself := find?_insert_self g id (.new kind)
  have hother {j : NodeId} (hj : j ≠ id) := find?_insert_of_ne g hj (.new kind)
  -- A node that has read something, or need not run, was there before.
  have hold {j : NodeId} {n : Node} (hn : (g.insert id (.new kind)).find? j = some n)
      (hk : n.kind ≠ .source) (h : n.mark ≠ .dirty ∨ ∃ seen, seen ∈ n.dependencies) :
      j ≠ id ∧ g.find? j = some n := by
    by_cases hj : j = id
    · rw [hj, hself, Option.some.injEq] at hn
      subst hn
      cases kind with
      | source => exact absurd rfl hk
      | derived | effect => simp [Node.new] at h
    · rw [hother hj] at hn
      exact ⟨hj, hn⟩
  have hread {j : NodeId} {n : Node} (hn : g.find? j = some n) (hk : n.kind ≠ .source)
      {seen : Observed} (hseen : seen ∈ n.dependencies) : seen.node ≠ id := by
    obtain ⟨m, hm, -⟩ := h.linked j n hn hk seen hseen
    rintro heq
    rw [heq, hid] at hm
    cases hm
  constructor
  · intro j n hn hk seen hseen
    obtain ⟨-, hn⟩ := hold hn hk (.inr ⟨seen, hseen⟩)
    obtain ⟨m, hm, hrest⟩ := h.linked j n hn hk seen hseen
    exact ⟨m, (hother (hread hn hk hseen)).trans hm, hrest⟩
  · intro j n hn hk hclean hrun seen hseen
    obtain ⟨-, hn⟩ := hold hn hk (.inr ⟨seen, hseen⟩)
    obtain ⟨hepoch, m, hm, hsure⟩ := h.clean j n hn hk hclean hrun seen hseen
    have hfind := hother (hread hn hk hseen)
    exact ⟨by rw [epoch?, hfind, ← epoch?, hepoch], m, hfind.trans hm, hsure⟩
  · intro j n hn hk hdirty hrun
    obtain ⟨-, hn⟩ := hold hn hk (.inl hdirty)
    obtain ⟨val, hval, hsame⟩ := h.settled j n hn hk hdirty hrun
    refine ⟨val, fun val' hval' => hshows j n hn hk hdirty val' (hval val' hval'),
      fun seen hseen hchanges => ?_⟩
    have hne := hread hn hk hseen
    rw [changes?, hother hne] at hchanges
    rw [hkept _ hne]
    exact hsame seen hseen hchanges

end Graph

namespace Engine

open State

variable {name : NodeId → String} {rank : NodeId → Nat} {reads : NodeId → NodeId → Prop} {k : Nat}
  {s t : State} {id : NodeId} {kind : Graph.Kind} {cell : Cell} {named : List (String × Handle)}
  {scopes : Scopes Cleanup Handler}

/-- The program of a computation. -/
def Cell.program? : Cell → Option Program
  | .computed p _ => some p
  | .effect e => some e.reaction.program
  | _ => none

/-- What has a name has that of its node. -/
def State.Titled (name : NodeId → String) (s : State) : Prop :=
  ∀ x h, s.handle? x = some h → ∃ j, name j = x ∧ h.node? = some j ∧ j.index < s.kinds.size

/-- There is nothing but signals, computed values and effects, under the names of their nodes, and
computations that need not run read nothing that is yet to come. -/
structure State.Laid (name : NodeId → String) (rank : NodeId → Nat) (reads : NodeId → NodeId → Prop)
    (s : State) : Prop where
  /-- Computed values and effects do nothing but observe. -/
  orderly : s.Orderly (.exact rank name)
  /-- Marks and epochs tell what they should. -/
  faithful : s.Faithful (.exact rank name) name
  /-- There is no application. -/
  clients : s.clients = ∅
  /-- No scope is current. -/
  stack : s.scopes.stack = []
  /-- Nodes have the numbers that were given. -/
  nodes : ∀ id n, s.graph.find? id = some n → id.index < s.kinds.size
  /-- What has a name has that of its node. -/
  titled : s.Titled name
  /-- What computations read, whatever they are answered. -/
  closed : ∀ (id : NodeId) c p, s.cells[id]? = some c → c.program? = some p →
    p.Reads (Sees name (reads id))
  /-- Computed values read what is of lower rank. -/
  falls : ∀ (id : NodeId) p v, s.cells[id]? = some (.computed p v) → ∀ j, reads id j →
    rank j < rank id
  /-- What a computation that need not run reads is there. -/
  known : ∀ id n, s.graph.find? id = some n → n.kind ≠ .source → n.mark ≠ .dirty →
    ∀ j, reads id j → j.index < s.kinds.size

/-- A new node, with what lies behind it, what names stand for it, and with other scopes. -/
def State.grow (s : State) (kind : Graph.Kind) (cell : Cell) (named : List (String × Handle))
    (scopes : Scopes Cleanup Handler) : State :=
  { s with
    kinds := s.kinds.push kind
    graph := s.graph.insert ⟨s.kinds.size⟩ (.new kind)
    cells := s.cells.insert ⟨s.kinds.size⟩ cell
    names := named ++ s.names
    scopes }

/-- What may lie behind a new node, and which names stand for it. -/
inductive Novel (name : NodeId → String) (rank : NodeId → Nat) (reads : NodeId → NodeId → Prop)
    (id : NodeId) : Graph.Kind → Cell → List (String × Handle) → Prop where
  /-- A signal. -/
  | signal {v : Json} {h : Handle} (exact : v.Exact) (whole : h = .signal id ∨ h = .pair id) :
      Novel name rank reads id .source (.signal v) [(name id, h)]
  /-- A computed value. -/
  | computed {p : Program}
      (observes : p.Observes True (fun _ => False) (fun _ => True) Json.Exact fun o => o.get.Exact)
      (closed : p.Reads (Sees name (reads id))) (falls : ∀ j, reads id j → rank j < rank id) :
      Novel name rank reads id .derived (.computed p none) [(name id, .computed id)]
  /-- An effect. Names stand for it when it has run. -/
  | effect {p : Program} {fallible : Bool} {scope : ScopeId}
      (observes : p.Observes True (Signed (name id)) (fun _ => True) Json.Exact
        fun o => fallible = true → ∃ v, o = .value v)
      (closed : p.Reads (Sees name (reads id))) :
      Novel name rank reads id .effect (.effect { reaction := .body p fallible, scope }) []

/-! ## New nodes -/

/-- A name stands for the new node if it was given to it. -/
theorem handle?_grow (x : String) :
    (s.grow kind cell named scopes).handle? x = (named.lookup x).or (s.handle? x) :=
  List.lookup_append ..

/-- The new node is in the graph. -/
theorem find?_grow_self :
    (s.grow kind cell named scopes).graph.find? ⟨s.kinds.size⟩ = some (.new kind) :=
  Graph.find?_insert_self _ _ _

/-- The other nodes stay as they are. -/
theorem find?_grow_of_ne (h : id ≠ ⟨s.kinds.size⟩) :
    (s.grow kind cell named scopes).graph.find? id = s.graph.find? id :=
  Graph.find?_insert_of_ne _ h _

/-- The new node has something behind it. -/
theorem cells_grow_self :
    (s.grow kind cell named scopes).cells[(⟨s.kinds.size⟩ : NodeId)]? = some cell :=
  Std.HashMap.getElem?_insert_self

/-- Behind the other nodes there is the same. -/
theorem cells_grow_of_ne (h : id ≠ ⟨s.kinds.size⟩) :
    (s.grow kind cell named scopes).cells[id]? = s.cells[id]? := by
  rw [grow, Std.HashMap.getElem?_insert, if_neg (by simpa using h.symm)]

/-- What lies behind a node then is new, or was there. -/
theorem cells_grow {c : Cell} (h : (s.grow kind cell named scopes).cells[id]? = some c) :
    id = ⟨s.kinds.size⟩ ∧ cell = c ∨ id ≠ ⟨s.kinds.size⟩ ∧ s.cells[id]? = some c := by
  by_cases hid : id = ⟨s.kinds.size⟩
  · subst hid
    rw [cells_grow_self, Option.some.injEq] at h
    exact .inl ⟨rfl, h⟩
  · rw [cells_grow_of_ne hid] at h
    exact .inr ⟨hid, h⟩

/-- A node that is there then is new, or was there. -/
theorem find?_grow {n : Graph.Node} (h : (s.grow kind cell named scopes).graph.find? id = some n) :
    id = ⟨s.kinds.size⟩ ∧ .new kind = n ∨ id ≠ ⟨s.kinds.size⟩ ∧ s.graph.find? id = some n := by
  by_cases hid : id = ⟨s.kinds.size⟩
  · subst hid
    rw [find?_grow_self, Option.some.injEq] at h
    exact .inl ⟨rfl, h⟩
  · rw [find?_grow_of_ne hid] at h
    exact .inr ⟨hid, h⟩

/-- What was created is not the next node. -/
theorem ne_of_index_lt (h : id.index < s.kinds.size) : id ≠ ⟨s.kinds.size⟩ := by
  rintro rfl
  exact Nat.lt_irrefl _ h

namespace State.Laid

variable (hs : s.Laid name rank reads)

include hs

/-- The next node is not there yet. -/
theorem find?_next : s.graph.find? ⟨s.kinds.size⟩ = none := by
  by_contra hne
  obtain ⟨n, hn⟩ := Option.ne_none_iff_exists'.1 hne
  exact Nat.lt_irrefl _ (hs.nodes _ n hn)

/-- No other effect is there than before. -/
theorem isEffect_grow {j : NodeId} (h : kind = .effect → j ≠ ⟨s.kinds.size⟩) :
    (s.grow kind cell named scopes).graph.isEffect j = s.graph.isEffect j := by
  rw [Graph.isEffect, Graph.isEffect]
  by_cases hj : j = ⟨s.kinds.size⟩
  · subst hj
    rw [find?_grow_self, hs.find?_next]
    exact decide_eq_false fun hk => h hk rfl
  · rw [find?_grow_of_ne hj]

/-- The name of the next node stands for nothing. -/
theorem handle?_next (hname : name.Injective) : s.handle? (name ⟨s.kinds.size⟩) = none := by
  by_contra hne
  obtain ⟨h, hh⟩ := Option.ne_none_iff_exists'.1 hne
  obtain ⟨j, hj, -, hlt⟩ := hs.titled _ h hh
  exact ne_of_index_lt hlt (hname hj)

end State.Laid

/-- What is of lower rank has a name below that rank. -/
theorem State.Titled.below (hs : s.Titled name) {x : String} {b : Nat}
    (hx : Sees name (fun j => rank j < b) x) : s.Below rank b x := by
  intro j hj
  obtain ⟨i, hi, hnode, -⟩ := hs x _ hj
  obtain rfl : j = i := Option.some.inj hnode
  exact hx j hi

/-- The function of a computed value reads names below its rank. -/
theorem State.Titled.observes (hs : s.Titled name) {logs : Json → Prop} {ends : Outcome → Prop}
    {p : Program} (hp : p.Observes True logs (fun _ => True) Json.Exact ends)
    (hclosed : p.Reads (Sees name (reads id))) (hfalls : ∀ j, reads id j → rank j < rank id) :
    p.Observes True logs (s.Below rank (rank id)) Json.Exact ends :=
  (hp.of_reads hclosed).mono_sees fun _ hx => hs.below fun j hj => hfalls j (hx j hj)

private theorem eq_of_lookup_singleton {a x : String} {b h : Handle}
    (hx : [(a, b)].lookup x = some h) :
    a = x ∧ b = h := by
  rw [List.lookup_cons] at hx
  split at hx
  · rename_i heq
    exact ⟨(eq_of_beq heq).symm, Option.some.inj hx⟩
  · cases hx

/-- What stands for a new node fits what lies behind it. -/
theorem Novel.of_lookup (h : Novel name rank reads id kind cell named) {x : String} {hd : Handle}
    (hx : named.lookup x = some hd) : name id = x ∧ hd.node? = some id ∧
      ((∃ v, cell = .signal v ∧ (hd = .signal id ∨ hd = .pair id)) ∨
        ∃ p, cell = .computed p none ∧ hd = .computed id) := by
  cases h with
  | signal exact whole =>
    obtain ⟨hname, rfl⟩ := eq_of_lookup_singleton hx
    refine ⟨hname, ?_, .inl ⟨_, rfl, whole⟩⟩
    rcases whole with rfl | rfl <;> rfl
  | computed =>
    obtain ⟨hname, rfl⟩ := eq_of_lookup_singleton hx
    exact ⟨hname, rfl, .inr ⟨_, rfl, rfl⟩⟩
  | effect => cases hx

section

variable (hnew : Novel name rank reads ⟨s.kinds.size⟩ kind cell named)

include hnew

/-- Names stay those of their nodes. -/
theorem State.Titled.grow (hs : s.Titled name) : (s.grow kind cell named scopes).Titled name := by
  intro x h hx
  have hsize : (s.grow kind cell named scopes).kinds.size = s.kinds.size + 1 := Array.size_push ..
  rw [handle?_grow, Option.or_eq_some_iff] at hx
  rcases hx with hx | ⟨-, hx⟩
  · obtain ⟨hname, hnode, -⟩ := hnew.of_lookup hx
    exact ⟨_, hname, hnode, hsize ▸ Nat.lt_succ_self _⟩
  · obtain ⟨j, hname, hnode, hlt⟩ := hs x h hx
    exact ⟨j, hname, hnode, hsize ▸ Nat.lt_succ_of_lt hlt⟩

/-- Everything is in order with a new node. -/
theorem State.Laid.orderly_grow (hs : s.Laid name rank reads)
    (hbare : ∀ sc, s.IsBare sc → { s with scopes }.IsBare sc)
    (hown : ∀ e, cell = .effect e → { s with scopes }.IsBare e.scope) :
    (s.grow kind cell named scopes).Orderly (.exact rank name) where
  signal j v hv := by
    rcases cells_grow hv with ⟨rfl, rfl⟩ | ⟨hj, hv⟩
    · cases hnew with
      | signal exact => exact exact
    · exact hs.orderly.signal j v hv
  query j v hv := by
    rcases cells_grow hv with ⟨rfl, rfl⟩ | ⟨hj, hv⟩
    · cases hnew
    · exact hs.orderly.query j v hv
  computed j p v hv := by
    have htitled : (s.grow kind cell named scopes).Titled name := hs.titled.grow hnew
    rcases cells_grow hv with ⟨rfl, rfl⟩ | ⟨hj, hv⟩
    · cases hnew with
      | computed observes closed falls =>
        exact ⟨htitled.observes observes closed falls, fun _ hw => by cases hw⟩
    · obtain ⟨hp, hkept⟩ := hs.orderly.computed j p v hv
      exact ⟨htitled.observes (hp.mono_sees fun _ _ => trivial) (hs.closed j _ p hv rfl)
        (hs.falls j p v hv), hkept⟩
  effect j e he := by
    rcases cells_grow he with ⟨rfl, rfl⟩ | ⟨hj, he⟩
    · cases hnew with
      | effect observes closed => exact ⟨observes, hown _ rfl⟩
    · obtain ⟨hobserves, hscope⟩ := hs.orderly.effect j e he
      refine ⟨?_, hbare _ hscope⟩
      cases hr : e.reaction <;> rw [hr] at hobserves <;> exact hobserves
  stands x h hx := by
    rw [handle?_grow, Option.or_eq_some_iff] at hx
    rcases hx with hx | ⟨-, hx⟩
    · obtain ⟨-, -, ⟨v, rfl, rfl | rfl⟩ | ⟨p, rfl, rfl⟩⟩ := hnew.of_lookup hx
      · exact ⟨v, cells_grow_self⟩
      · exact ⟨v, cells_grow_self⟩
      · exact ⟨p, none, cells_grow_self⟩
    · obtain ⟨j, -, hnode, hlt⟩ := hs.titled x h hx
      have hcell : (s.grow kind cell named scopes).cells[j]? = s.cells[j]? :=
        cells_grow_of_ne (ne_of_index_lt hlt)
      have hstands := hs.orderly.stands x h hx
      cases h <;> first
        | trivial
        | (obtain rfl := Option.some.inj hnode
           simpa only [Handle.Stands, hcell] using hstands)
  derived j n hn := by
    rcases find?_grow hn with ⟨rfl, rfl⟩ | ⟨hj, hn⟩
    · rw [cells_grow_self]
      cases hnew <;> simp [Graph.Node.new]
    · rw [cells_grow_of_ne hj]
      exact hs.orderly.derived j n hn
  reacting j n hn := by
    rcases find?_grow hn with ⟨rfl, rfl⟩ | ⟨hj, hn⟩
    · rw [cells_grow_self]
      cases hnew <;> simp [Graph.Node.new]
    · rw [cells_grow_of_ne hj]
      exact hs.orderly.reacting j n hn
  kept j n hn hk hdirty hrun := by
    rcases find?_grow hn with ⟨rfl, rfl⟩ | ⟨hj, hn⟩
    · obtain rfl : kind = .derived := hk
      exact absurd rfl hdirty
    · rw [cells_grow_of_ne hj]
      exact hs.orderly.kept j n hn hk hdirty hrun
  named j n hn hk := by
    rw [IsNamed, State.grow, List.any_append, Bool.or_eq_true]
    rcases find?_grow hn with ⟨rfl, rfl⟩ | ⟨hj, hn⟩
    · obtain rfl : kind = .derived := hk
      cases hnew
      exact .inl (by simp [Handle.node?])
    · exact .inr (hs.orderly.named j n hn hk)
  descends j n hn hk seen hseen m hm hmk := by
    rcases find?_grow hn with ⟨rfl, rfl⟩ | ⟨hj, hn⟩
    · exact absurd hseen List.not_mem_nil
    · obtain ⟨d, hd, -⟩ := hs.faithful.record.linked j n hn (by simp [hk]) seen hseen
      rw [find?_grow_of_ne (ne_of_index_lt (hs.nodes _ d hd))] at hm
      exact hs.orderly.descends j n hn hk seen hseen m hm hmk
  swept c data hdata := by
    rw [State.grow, hs.clients] at hdata
    simp at hdata

/-- Names that are not yet to come stand for what they stood for. -/
theorem lookup_grow {x : String} {among : NodeId → Prop} (hx : Sees name among x)
    (hthere : ∀ j, among j → j.index < s.kinds.size) :
    (s.grow kind cell named scopes).lookup x = s.lookup x := by
  rw [lookup, lookup, handle?_grow]
  cases hlookup : named.lookup x with
  | none => rfl
  | some h => exact absurd (hthere _ (hx _ (hnew.of_lookup hlookup).1)) (Nat.lt_irrefl _)

/-- Marks and epochs still tell what they should, since a new node is read by nobody. -/
theorem State.Laid.faithful_grow (hname : name.Injective) (hs : s.Laid name rank reads) :
    (s.grow kind cell named scopes).Faithful (.exact rank name) name where
  tracked := hs.faithful.tracked
  exact := hs.faithful.exact
  signed := hs.faithful.signed
  present x h hx := by
    rw [handle?_grow, Option.or_eq_some_iff] at hx
    have hself : (s.grow kind cell named scopes).graph.contains ⟨s.kinds.size⟩ = true := by
      rw [Graph.contains_eq, find?_grow_self]
      rfl
    rcases hx with hx | ⟨-, hx⟩
    · obtain ⟨-, -, ⟨v, -, rfl | rfl⟩ | ⟨p, -, rfl⟩⟩ := hnew.of_lookup hx <;> exact hself
    · obtain ⟨j, -, hnode, hlt⟩ := hs.titled x h hx
      have hpresent := hs.faithful.present x h hx
      have hother : (s.grow kind cell named scopes).graph.contains j = s.graph.contains j := by
        rw [Graph.contains_eq, Graph.contains_eq, find?_grow_of_ne (ne_of_index_lt hlt)]
      cases h <;> first
        | trivial
        | exact hpresent.elim
        | (obtain rfl := Option.some.inj hnode
           exact hother.trans hpresent)
  apart i j e f _ _ h := hname h
  active j e hthere he := by
    rcases cells_grow he with ⟨rfl, rfl⟩ | ⟨hj, he⟩
    · cases hnew
      rfl
    · rw [Graph.contains_eq, find?_grow_of_ne hj, ← Graph.contains_eq] at hthere
      exact hs.faithful.active j e hthere he
  record := by
    refine hs.faithful.record.insert hs.find?_next kind (fun j hj => ?_)
      fun j n hn hk hdirty val h => ?_
    · rw [stored, stored, cells_grow_of_ne hj]
    · -- What need not run reads nothing that is yet to come.
      have hsame {p : Program} (hp : p.Reads (Sees name (reads j))) :
          p.replay (s.grow kind cell named scopes).lookup val = p.replay s.lookup val :=
        hp.replay_congr (fun x hx => lookup_grow hnew hx (hs.known j n hn hk hdirty)) val
      rw [Shows] at h ⊢
      rw [cells_grow_of_ne (ne_of_index_lt (hs.nodes j n hn))]
      cases hc : s.cells[j]? with
      | none => trivial
      | some c =>
        rw [hc] at h
        cases c with
        | computed p v => exact h.trans (by rw [hsame (hs.closed j _ p hc rfl)])
        | effect e =>
          exact fun hreports => (h hreports).trans (by rw [hsame (hs.closed j _ _ hc rfl)])
        | _ => trivial

/-- A node is added to what is laid down. -/
theorem State.Laid.grow (hname : name.Injective) (hs : s.Laid name rank reads)
    (hstack : scopes.stack = []) (hbare : ∀ sc, s.IsBare sc → { s with scopes }.IsBare sc)
    (hown : ∀ e, cell = .effect e → { s with scopes }.IsBare e.scope) :
    (s.grow kind cell named scopes).Laid name rank reads where
  orderly := hs.orderly_grow hnew hbare hown
  faithful := hs.faithful_grow hnew hname
  clients := hs.clients
  stack := hstack
  nodes j n hn := by
    have hsize : (s.grow kind cell named scopes).kinds.size = s.kinds.size + 1 := Array.size_push ..
    rw [hsize]
    by_cases hj : j = ⟨s.kinds.size⟩
    · exact hj ▸ Nat.lt_succ_self _
    · rw [find?_grow_of_ne hj] at hn
      exact Nat.lt_succ_of_lt (hs.nodes j n hn)
  titled := hs.titled.grow hnew
  closed j c p hc hp := by
    rcases cells_grow hc with ⟨rfl, rfl⟩ | ⟨hj, hc⟩
    · cases hnew with
      | signal => cases hp
      | computed _ closed => exact Option.some.inj hp ▸ closed
      | effect _ closed => exact Option.some.inj hp ▸ closed
    · exact hs.closed j c p hc hp
  falls j p v hc := by
    rcases cells_grow hc with ⟨rfl, rfl⟩ | ⟨hj, hc⟩
    · cases hnew with
      | computed _ _ falls => exact falls
    · exact hs.falls j p v hc
  known j n hn hk hdirty i hi := by
    have hsize : (s.grow kind cell named scopes).kinds.size = s.kinds.size + 1 := Array.size_push ..
    rw [hsize]
    rcases find?_grow hn with ⟨rfl, rfl⟩ | ⟨hj, hn⟩
    · -- A new node is that of a signal, or has yet to run.
      cases kind with
      | source => exact absurd rfl hk
      | derived | effect => exact absurd rfl hdirty
    · exact Nat.lt_succ_of_lt (hs.known j n hn hk hdirty i hi)

end

/-- What is in use makes no difference. -/
theorem State.Laid.held (hs : s.Laid name rank reads) {l : List Hold}
    (hl : ∀ c, Hold.client c ∈ s.held → Hold.client c ∈ l) :
    { s with held := l }.Laid name rank reads :=
  { hs with
    orderly := hs.orderly.same rfl rfl rfl hl fun _ => rfl
    faithful := hs.faithful.same rfl rfl rfl rfl fun _ => rfl }

/-- The run of an effect creates no node and leaves no scope current. -/
theorem State.HasRun.stays {D : Setting} {e : Effect} {n : Graph.Node} (h : s.HasRun id e t)
    (hstill : s.Still) (hs : s.Orderly D) (hq : s.Quiet) (hn : s.graph.find? id = some n)
    (hkind : n.kind = .effect) (he : s.cells[id]? = some (.effect e)) :
    t.kinds = s.kinds ∧ t.clients = s.clients ∧ t.scopes.stack = s.scopes.stack := by
  obtain ⟨o, s₁, hreact, ht⟩ := h.rest
  -- A run of the reaction is determined, so it is the one of which everything is known.
  have hunrun := (hstill.unrun D.rank (s.ceiling D.rank)).startReaction he e.scope
  have hreacts := gives_react (fun _ => "") (s := (s.hold (.node id)).startReaction
    id e.scope) hunrun
    (below_ceiling s D.rank) ((hs.hold _).startReaction hn hkind e.scope) hq (hs.effect id e he).1
  obtain ⟨o', s₁', hreact', ⟨⟨_, l, s₀, hran, hdrawn⟩, -⟩⟩ := hreacts
  obtain ⟨-, rfl⟩ := hreact.unique hreact'
  have hrest := hdrawn.rest
  have hfresh := hran.freshens.rest
  rw [ht]
  refine ⟨?_, ?_, ?_⟩
  · show s₁.kinds = s.kinds
    rw [hrest, hfresh]
    rfl
  · show s₁.clients = s.clients
    rw [hrest, hfresh]
    rfl
  · show s₁.scopes.stack.erase e.scope = s.scopes.stack
    have hscopes : s₁.scopes = (s.scopes.strip e.scope).2.enter e.scope := by
      rw [hrest, hfresh]
      rfl
    have hstrip : (s.scopes.strip e.scope).2.stack = s.scopes.stack := by
      rw [Scopes.strip]
      split <;> rfl
    rw [hscopes, Scopes.enter, List.erase_cons_head, hstrip]

/-- What is laid down stays so when an effect runs, if all that may be read is there. -/
theorem State.Laid.attended (hs : s.Laid name rank reads)
    (h : s.Attended (.exact rank name) name id t) (hkinds : t.kinds = s.kinds)
    (hclients : t.clients = s.clients) (hstack : t.scopes.stack = s.scopes.stack)
    (hthere : ∀ i, i.index < s.kinds.size → ∀ j, reads i j → j.index < s.kinds.size) :
    t.Laid name rank reads where
  orderly := h.orderly
  faithful := h.faithful hs.faithful
  clients := hclients.trans hs.clients
  stack := hstack.trans hs.stack
  nodes j n hn := by
    obtain ⟨m, hm, -⟩ := h.nodes.exists_old hn
    exact hkinds ▸ hs.nodes j m hm
  titled x hd hx := by
    rw [handle?_congr h.names] at hx
    exact hkinds ▸ hs.titled x hd hx
  closed j c p hc hp := by
    have hcell := h.cells j
    rw [hc] at hcell
    generalize hold : s.cells[j]? = c₀ at hcell
    cases hcell with
    | same => exact hs.closed j c p hold hp
    | computed q v w => exact hs.closed j _ p hold hp
    | ran e => exact hs.closed j _ p hold hp
  falls j p v hc := by
    have hcell := h.cells j
    rw [hc] at hcell
    generalize hold : s.cells[j]? = c₀ at hcell
    cases hcell with
    | same => exact hs.falls j p v hold
    | computed q v w => exact hs.falls j p _ hold
  known j n hn _ _ i hi := by
    obtain ⟨m, hm, -⟩ := h.nodes.exists_old hn
    exact hkinds ▸ hthere j (hs.nodes j m hm) i hi

/-- A name that stood for nothing is bound. -/
theorem bindName_of_free {x : String} (h : s.handle? x = none) (hd : Handle) :
    s.bindName (some x) hd = { s with names := (x, hd) :: s.names } := by
  have hfilter : s.names.filter (·.1 ≠ x) = s.names :=
    List.filter_eq_self.2 fun entry hentry => decide_eq_true fun heq => by
      have hne := List.lookup_eq_none_iff.1 h entry hentry
      simp [heq] at hne
  rw [bindName, rebind, h, hfilter]

private theorem handle?_cons {x y : String} {hd : Handle} :
    { s with names := (x, hd) :: s.names }.handle? y = if y = x then some hd else s.handle? y := by
  rw [handle?, List.lookup_cons]
  by_cases hy : y = x
  · rw [if_pos hy, hy, beq_self_eq_true]
  · rw [if_neg hy, beq_eq_false_iff_ne.2 hy, handle?]

/-- Its name is given to an effect. Nothing is read by that name. -/
theorem State.Laid.entitle (hs : s.Laid name rank reads) (hfree : s.handle? (name id) = none)
    (hid : id.index < s.kinds.size) :
    { s with names := (name id, .effect id) :: s.names }.Laid name rank reads := by
  have hlookup (x : String) :
      { s with names := (name id, .effect id) :: s.names }.lookup x = s.lookup x := by
    rw [lookup, lookup, handle?_cons]
    split
    · rename_i hx
      rw [hx, hfree]
      rfl
    · rfl
  have hbelow {x : String} {b : Nat} (hx : s.Below rank b x) :
      { s with names := (name id, .effect id) :: s.names }.Below rank b x := by
    intro j hj
    rw [handle?_cons] at hj
    split at hj
    · cases hj
    · exact hx j hj
  have horderly : { s with names := (name id, .effect id) :: s.names }.Orderly
      (.exact rank name) :=
    { hs.orderly with
      computed := by
        intro j p v hc
        obtain ⟨hp, hkept⟩ := hs.orderly.computed j p v hc
        exact ⟨hp.mono_sees fun _ hx => hbelow hx, hkept⟩
      effect := by
        intro j e he
        obtain ⟨hobserves, hbare⟩ := hs.orderly.effect j e he
        refine ⟨?_, hbare⟩
        cases hr : e.reaction <;> rw [hr] at hobserves <;> exact hobserves
      stands := by
        intro x hd hx
        rw [handle?_cons] at hx
        split at hx
        · obtain rfl := Option.some.inj hx
          trivial
        · exact hs.orderly.stands x hd hx
      named := by
        intro j n hn hk
        have hnamed := hs.orderly.named j n hn hk
        rw [IsNamed] at hnamed ⊢
        rw [List.any_cons, hnamed, Bool.or_true]
      swept := by
        intro c data hdata
        rw [show s.clients = ∅ from hs.clients] at hdata
        simp at hdata }
  have hfaithful : { s with names := (name id, .effect id) :: s.names }.Faithful
      (.exact rank name) name :=
    { hs.faithful with
      present := by
        intro x hd hx
        rw [handle?_cons] at hx
        split at hx
        · obtain rfl := Option.some.inj hx
          trivial
        · exact hs.faithful.present x hd hx
      record := by
        refine hs.faithful.record.imp fun j _ val hshows => ?_
        rw [Shows] at hshows ⊢
        rwa [funext hlookup] }
  have htitled : { s with names := (name id, .effect id) :: s.names }.Titled name := by
    intro x hd hx
    rw [handle?_cons] at hx
    split at hx
    · rename_i heq
      obtain rfl := Option.some.inj hx
      exact ⟨id, heq.symm, rfl, hid⟩
    · exact hs.titled x hd hx
  exact { hs with orderly := horderly, faithful := hfaithful, titled := htitled }

/-! ## Whole programs -/

/-- What a program that founds leads to, with no more than some number of effects. -/
structure State.Founded (name : NodeId → String) (rank : NodeId → Nat)
    (reads : NodeId → NodeId → Prop) (k : Nat) (s : State) : Prop extends
    s.Laid name rank reads where
  /-- No computation runs. -/
  still : s.Still
  /-- Nothing is put off. -/
  deferred : s.deferred = []
  /-- Nothing waits, and neither a batch nor a flush is open. -/
  queue : s.queue = {}
  /-- Effects are up to date. -/
  settled : ∀ id n, s.graph.find? id = some n → n.kind = .effect → n.mark = .clean
  /-- There are no more effects than that. -/
  count : ∀ ids : List NodeId, ids.Nodup → (∀ id ∈ ids, s.graph.isEffect id = true) →
    ids.length ≤ k
  /-- A flush can serve them all. -/
  few : k ≤ flushLimit

namespace State.Founded

/-- What was founded is poised. -/
theorem poised (hs : s.Founded name rank reads k) : s.Poised (.exact rank name) name where
  orderly := hs.orderly
  faithful := hs.faithful
  still := hs.still
  deferred := hs.deferred
  flushing := by rw [hs.queue]
  nodup := by
    rw [hs.queue]
    exact List.nodup_nil
  effects id hid := by
    rw [hs.queue] at hid
    exact absurd hid List.not_mem_nil
  waiting id n hn hk hmark := absurd (hs.settled id n hn hk) hmark
  few ids hnodup hids := Nat.le_trans (hs.count ids hnodup hids) hs.few
  settled _ := by rw [hs.queue]

/-- Where there is nothing, everything is in order. -/
theorem empty (procedures : Std.HashMap String Procedure) (hname : name.Injective) :
    ({ procedures } : State).Founded name rank reads 0 := by
  have hcell (id : NodeId) : ({ procedures } : State).cells[id]? = none :=
    Std.HashMap.getElem?_empty
  have hnode (id : NodeId) : ({ procedures } : State).graph.find? id = none :=
    Std.HashMap.getElem?_empty
  have hhandle (x : String) : ({ procedures } : State).handle? x = none := rfl
  have horderly : ({ procedures } : State).Orderly (.exact rank name) := by
    constructor <;> simp_all [Swept]
  have hrecord : ({ procedures } : State).graph.Faithful ({ procedures } : State).tracking.isRunning
      ({ procedures } : State).stored (({ procedures } : State).Shows name) := by
    constructor <;> intros <;> simp_all
  have hfaithful : ({ procedures } : State).Faithful (.exact rank name) name :=
    ⟨trivial, fun _ hv => hv, fun _ _ hv => hv, fun x h hx => absurd hx (by simp [hhandle]),
      fun _ _ _ _ _ _ h => hname h, fun id e _ he => absurd he (by simp), hrecord⟩
  have hlaid : ({ procedures } : State).Laid name rank reads :=
    { orderly := horderly, faithful := hfaithful, clients := rfl, stack := rfl
      nodes := fun id n hn => absurd hn (by simp [hnode])
      titled := fun x h hx => absurd hx (by simp [hhandle])
      closed := fun id c p hc => absurd hc (by simp)
      falls := fun id p v hc => absurd hc (by simp)
      known := fun id n hn => absurd hn (by simp [hnode]) }
  refine ⟨hlaid, fun _ => rfl, rfl, rfl, fun id n hn => absurd hn (by simp [hnode]),
    ?_, Nat.zero_le _⟩
  intro ids _ hids
  cases ids with
  | nil => exact Nat.le_refl 0
  | cons id ids =>
    have heffect := hids id List.mem_cons_self
    rw [Graph.isEffect, hnode] at heffect
    cases heffect

/-- A signal or a computed value is created. -/
theorem value (hname : name.Injective) (hs : s.Founded name rank reads k)
    (hnew : Novel name rank reads ⟨s.kinds.size⟩ kind cell named) (hkind : kind ≠ .effect) :
    (s.grow kind cell named s.scopes).Founded name rank reads k where
  toLaid := hs.toLaid.grow hnew hname hs.stack (fun _ h => h) fun e he => by
    subst he
    cases hnew
    exact absurd rfl hkind
  still := hs.still
  deferred := hs.deferred
  queue := hs.queue
  settled j n hn hk := by
    rcases find?_grow hn with ⟨rfl, rfl⟩ | ⟨hj, hn⟩
    · exact absurd hk hkind
    · exact hs.settled j n hn hk
  count ids hnodup hids := hs.count ids hnodup fun id hid =>
    (hs.isEffect_grow fun h => absurd h hkind).symm.trans (hids id hid)
  few := hs.few

end State.Founded

/-- A node is added, and the state grows by it. -/
theorem gives_addNode (s : State) (kind : Graph.Kind) (cell : Cell) :
    Gives (fun _ => addNode kind cell) s fun id t =>
      id = ⟨s.kinds.size⟩ ∧ t = s.grow kind cell [] s.scopes :=
  ⟨_, _, .of_eq fun _ => rfl, rfl, rfl⟩

/-- Nothing is adopted where no scope is current. -/
theorem gives_adoptByCurrent (h : s.scopes.stack = []) (id : NodeId) :
    Gives (fun _ => adoptByCurrent id) s fun _ t => t = s := by
  have hcurrent : s.scopes.current? = none := by rw [Scopes.current?, h, List.head?_nil]
  refine .step ?_
  rw [hcurrent]

section

variable (hname : name.Injective) (hs : s.Founded name rank reads k)

include hname hs

private theorem gives_createSignal {v : Json} (handle : NodeId → Handle) (hv : v.Exact)
    (hwhole : ∀ id, handle id = .signal id ∨ handle id = .pair id) :
    Gives (fun _ => createSignal (some (name ⟨s.kinds.size⟩)) handle v) s fun _ t =>
      t.Founded name rank reads k ∧ t.kinds.size = s.kinds.size + 1 := by
  refine (gives_addNode s .source (.signal v)).bind ?_
  rintro _ _ ⟨rfl, rfl⟩
  refine .step ?_
  rw [bindName_of_free (s := s.grow .source (.signal v) [] s.scopes) (hs.handle?_next hname)]
  exact ⟨hs.value hname (.signal hv (hwhole _)) (by simp), Array.size_push ..⟩

/-- A computed value is created under its name. -/
theorem gives_createComputed {p : Program}
    (hnew : Novel name rank reads ⟨s.kinds.size⟩ .derived (.computed p none)
      [(name ⟨s.kinds.size⟩, .computed ⟨s.kinds.size⟩)]) :
    Gives (fun _ => createComputed (some (name ⟨s.kinds.size⟩)) p) s fun _ t =>
      t.Founded name rank reads k ∧ t.kinds.size = s.kinds.size + 1 := by
  refine (gives_addNode s .derived (.computed p none)).bind ?_
  rintro _ _ ⟨rfl, rfl⟩
  refine (gives_adoptByCurrent (s := s.grow .derived (.computed p none) [] s.scopes)
    hs.stack _).bind ?_
  rintro _ _ rfl
  refine .step ?_
  rw [bindName_of_free (s := s.grow .derived (.computed p none) [] s.scopes)
    (hs.handle?_next hname)]
  exact ⟨hs.value hname hnew (by simp), Array.size_push ..⟩

end

private theorem gives_createScope (s : State) :
    Gives (fun _ => createScope none) s fun id t =>
      id = ⟨s.scopes.next⟩ ∧ t = { s with scopes := (s.scopes.create none).2 } :=
  ⟨_, _, .of_eq fun _ => rfl, rfl, rfl⟩

/-- A new scope owns nothing, and the others own what they did. -/
theorem isBare_create {sc : ScopeId} (h : sc = ⟨s.scopes.next⟩ ∨ s.IsBare sc) :
    { s with scopes := (s.scopes.create none).2 }.IsBare sc := by
  intro entry hentry
  have hlive : (s.scopes.create none).2.live = s.scopes.live.insert ⟨s.scopes.next⟩
      { parent := none } :=
    rfl
  rw [hlive, Std.HashMap.getElem?_insert] at hentry
  split at hentry
  · rw [← Option.some.inj hentry]
  · rename_i hne
    rcases h with rfl | h
    · exact absurd (beq_self_eq_true _) hne
    · exact h entry hentry

/-- The effect that a program makes, with the next scope as its own. -/
def State.nextEffect (s : State) (p : Program) (fallible : Bool) : Effect :=
  { reaction := .body p fallible, scope := ⟨s.scopes.next⟩ }

/-- The state in which a new effect is about to run for the first time. -/
def State.begun (s : State) (p : Program) (fallible : Bool) : State :=
  (s.grow .effect (.effect (s.nextEffect p fallible)) [] (s.scopes.create none).2).hold
    (.node ⟨s.kinds.size⟩)

section

variable {p : Program} {fallible : Bool}

private theorem find?_begun : (s.begun p fallible).graph.find? ⟨s.kinds.size⟩ =
    some (.new .effect) :=
  Graph.find?_insert_self _ _ _

private theorem find?_begun_of_ne (h : id ≠ ⟨s.kinds.size⟩) :
    (s.begun p fallible).graph.find? id = s.graph.find? id :=
  Graph.find?_insert_of_ne _ h _

private theorem cells_begun : (s.begun p fallible).cells[(⟨s.kinds.size⟩ : NodeId)]? =
    some (.effect (s.nextEffect p fallible)) :=
  Std.HashMap.getElem?_insert_self

private theorem size_begun : (s.begun p fallible).kinds.size = s.kinds.size + 1 :=
    Array.size_push ..

private theorem State.Laid.begun (hname : name.Injective) (hs : s.Laid name rank reads)
    (hnew : Novel name rank reads ⟨s.kinds.size⟩ .effect (.effect (s.nextEffect p fallible)) []) :
    (s.begun p fallible).Laid name rank reads := by
  have hstack : (s.scopes.create none).2.stack = [] := hs.stack
  have hgrown := hs.grow hnew hname hstack (fun _ h => isBare_create (.inr h)) fun e he => by
    obtain rfl := Cell.effect.inj he
    exact isBare_create (.inl rfl)
  exact hgrown.held fun _ hc => List.mem_cons_of_mem _ hc

/-- Nothing waits when an effect is about to run for the first time. -/
theorem State.Founded.quiet_begun (hs : s.Founded name rank reads k) : (s.begun p fallible).Quiet :=
  fun _ => ⟨congrArg Queue.pending hs.queue, hs.deferred⟩

/-- What is founded behind the first run of an effect. -/
theorem State.Founded.ran (hs : s.Founded name rank reads k) (hfew : k < flushLimit)
    (hlaid : t.Laid name rank reads)
    (h : (s.begun p fallible).Attended (.exact rank name) name ⟨s.kinds.size⟩ t) :
    t.Founded name rank reads (k + 1) where
  toLaid := hlaid
  still j := by
    rw [h.tracking]
    exact hs.still j
  deferred := h.deferred.trans hs.deferred
  queue := h.queue.trans hs.queue
  settled j n hn hk := by
    by_cases hj : j = ⟨s.kinds.size⟩
    · exact h.clean n (hj ▸ hn)
    · obtain ⟨m, hm, hsteady⟩ := h.nodes.exists_old hn
      have hkind : m.kind = .effect := hsteady.kind.symm.trans hk
      rw [hsteady.mark ⟨by simp [hkind], hj⟩]
      exact hs.settled j m ((find?_begun_of_ne hj).symm.trans hm) hkind
  count ids hnodup hids := by
    -- All of them but the new one were there.
    have hold : ∀ j ∈ ids.erase ⟨s.kinds.size⟩, s.graph.isEffect j = true := by
      intro j hj
      obtain ⟨hne, hmem⟩ := hnodup.mem_erase_iff.1 hj
      rw [Graph.isEffect, ← find?_begun_of_ne hne, ← Graph.isEffect, ← hids j hmem]
      exact (h.nodes.isEffect_eq fun _ _ hr => hr.kind).symm
    have hcount := hs.count _ (hnodup.erase _) hold
    have hlength : ids.length ≤ (ids.erase ⟨s.kinds.size⟩).length + 1 := by
      rw [List.length_erase]
      split <;> omega
    omega
  few := hfew

/-- An effect gets its name, and its creation is over. -/
theorem State.Founded.entitle (ht : t.Founded name rank reads k)
    (hfree : t.handle? (name id) = none)
    (hid : id.index < t.kinds.size) :
    ((t.bindName (some (name id)) (.effect id)).unhold (.node id)).Founded name rank reads k ∧
      ((t.bindName (some (name id)) (.effect id)).unhold (.node id)).kinds = t.kinds := by
  have hlaid := ht.toLaid.entitle hfree hid
  rw [bindName_of_free hfree, unhold_of_kept hlaid.orderly.swept]
  · exact ⟨⟨hlaid.held fun _ hc => mem_held_erase hc, ht.still, ht.deferred, ht.queue, ht.settled,
      ht.count, ht.few⟩, rfl⟩
  · have hself : ((Handle.effect id).node? == some id) = true := beq_self_eq_true _
    rw [keepsNode, List.any_cons, hself]
    rfl

/-- An effect is created, and runs once. -/
theorem gives_createEffect (hname : name.Injective) (hs : s.Founded name rank reads k)
    (hnew : Novel name rank reads ⟨s.kinds.size⟩ .effect (.effect (s.nextEffect p fallible)) [])
    (hknown : ∀ i ≤ s.kinds.size, ∀ j, reads ⟨i⟩ j → j.index < s.kinds.size)
    (hfew : k < flushLimit) :
    Gives (fun κ => createEffect κ (.body p fallible) none (some (name ⟨s.kinds.size⟩))) s
        fun _ t =>
      t.Founded name rank reads (k + 1) ∧ t.kinds.size = s.kinds.size + 1 := by
  have hcurrent : s.scopes.current? = none := by rw [Scopes.current?, hs.stack, List.head?_nil]
  have hbegun := hs.toLaid.begun hname hnew
  have hquiet : (s.begun p fallible).Quiet := hs.quiet_begun
  have hrefresh := gives_refreshEffect name (s := s.begun p fallible) hs.still hbegun.orderly hquiet
    fun n hn => by
    rw [find?_begun, Option.some.injEq] at hn
    rw [← hn]
    rfl
  refine .look ?_
  rw [hcurrent]
  refine (gives_createScope s).bind ?_
  rintro _ _ ⟨rfl, rfl⟩
  refine (gives_addNode _ .effect (.effect (s.nextEffect p fallible))).bind ?_
  rintro _ _ ⟨rfl, rfl⟩
  refine (gives_adoptByCurrent (s := s.grow .effect _ [] (s.scopes.create none).2)
    hs.stack _).bind ?_
  rintro _ _ rfl
  -- The effect runs with nothing else waiting, and only then has a name.
  refine .holding ((Gives.callRefresh hrefresh).bind ?_)
  rintro _ t ⟨hrun, hran⟩
  obtain ⟨hkinds, hclients, hstack⟩ :=
    (hran _ ⟨cells_begun, rfl, _, find?_begun, rfl⟩).stays hs.still
    hbegun.orderly hquiet find?_begun rfl cells_begun
  have hsize : t.kinds.size = s.kinds.size + 1 := by rw [hkinds, size_begun]
  have hlaid := hbegun.attended hrun hkinds hclients hstack fun i hi j hj => by
    rw [size_begun] at hi ⊢
    exact Nat.lt_succ_of_lt (hknown i.index (Nat.le_of_lt_succ hi) j hj)
  have hquiet' : t.Quiet := by
    rw [Quiet, hrun.queue, hrun.deferred]
    exact hquiet
  have hfree : t.handle? (name ⟨s.kinds.size⟩) = none := by
    rw [handle?_congr hrun.names]
    exact hs.handle?_next hname
  refine (gives_settle_quiet hquiet').bind ?_
  rintro _ _ rfl
  obtain ⟨hfounded, hsame⟩ := (hs.ran hfew hlaid hrun).entitle hfree
    (hsize ▸ Nat.lt_succ_self _)
  exact .step ⟨hfounded, hsame ▸ hsize⟩

end

/-- A call that answers nothing, and what comes behind it. -/
theorem Gives.noAnswer {β : Type} {x : Kernel → Run Unit} {y : Kernel → Option Json → Run β}
    {Q : State → Prop} {R : β → State → Prop} (h : Gives x s fun _ t => Q t)
    (h' : ∀ t, Q t → Gives (fun κ => y κ none) t R) :
    Gives (fun κ => Engine.noAnswer (x κ) >>= y κ) s R := by
  have hnone : Gives (fun κ => Engine.noAnswer (x κ)) s fun a t => a = none ∧ Q t :=
    h.map fun _ _ hq => ⟨rfl, hq⟩
  refine hnone.bind ?_
  rintro _ t ⟨rfl, hq⟩
  exact h' t hq

/-- A program that founds leads from what was founded to what was founded. -/
theorem gives_founds (hname : name.Injective) {n : Nat} {p : Program}
    (hp : p.Founds name rank reads n k) (hs : s.Founded name rank reads k) (hn : s.kinds.size = n) :
    Gives (fun κ => exec κ p) s fun _ t => ∃ k', t.Founded name rank reads k' := by
  induction hp generalizing s with
  | stop o => exact .ret ⟨_, hs⟩
  | signal exact _ ih =>
    subst hn
    have hcreate := gives_createSignal hname hs .signal exact fun _ => .inl rfl
    exact hcreate.noAnswer fun t ⟨ht, hsize⟩ => ih ht hsize
  | pair exact _ ih =>
    subst hn
    have hcreate := gives_createSignal hname hs .pair exact fun _ => .inr rfl
    exact hcreate.noAnswer fun t ⟨ht, hsize⟩ => ih ht hsize
  | computed observes closed falls _ ih =>
    subst hn
    have hcreate := gives_createComputed hname hs (.computed observes closed falls)
    exact hcreate.noAnswer fun t ⟨ht, hsize⟩ => ih ht hsize
  | effect observes closed known few _ ih =>
    subst hn
    have hcreate := gives_createEffect hname hs (.effect observes closed) known few
    exact hcreate.noAnswer fun t ⟨ht, hsize⟩ => ih ht hsize

/-- A program that founds leads from where there is nothing to a poised state, in which no batch is
open. -/
theorem gives_poised (hname : name.Injective) {p : Program} (hp : p.Founds name rank reads 0 0)
    (procedures : Std.HashMap String Procedure) :
    Gives (fun κ => exec κ p) { procedures } fun _ t =>
      t.Poised (.exact rank name) name ∧ t.queue.batches = 0 :=
  (gives_founds hname hp (.empty procedures hname) rfl).imp fun _ _ ⟨_, ht⟩ =>
    ⟨ht.poised, by rw [ht.queue]⟩

end Engine

end Rivulet
