import Rivulet.Proofs.Scopes.Subtree

/-!
# What is to be done when a scope ends

The agenda of a scope says what its end consists of, in order. It is read off the forest before
anything happens: a scope is taken away, then its children are dealt with one after the other, in
the order of their creation, then its cleanups run, then its computations leave the graph, and all
that inside a batch.
-/

namespace Rivulet.Scopes

variable {Cleanup Handler : Type}

/-- A piece of the work of ending scopes. -/
inductive Task (Cleanup : Type) where
  /-- A batch is opened and a scope taken away. -/
  | start (id : ScopeId)
  /-- A cleanup runs. -/
  | cleanup (c : Cleanup)
  /-- A computation leaves the graph. -/
  | retire (id : NodeId)
  /-- What nothing refers to any more is dropped, and the batch closed. -/
  | finish

/-- What is left to do for a scope when its children have been dealt with. -/
def Holdings.duties (h : Holdings Cleanup) : List (Task Cleanup) :=
  h.cleanups.map .cleanup ++ (h.computations.map .retire ++ [.finish])

/-- What is to be done when a scope ends, in order. -/
def agenda (t : Scopes Cleanup Handler) : ScopeId → List (Task Cleanup) :=
  t.walk fun id s below => .start id :: (below ++ s.holdings.duties)

variable {t : Scopes Cleanup Handler} {id : ScopeId} {s : Scope Cleanup Handler}

/-- There is nothing to do for a scope that is gone. -/
theorem agenda_gone (hid : t.find? id = none) : t.agenda id = [] := walk_gone hid

/-- A scope starts to end, its children end, and then its own duties are done. -/
theorem Forest.agenda_eq (h : t.Forest) (hs : t.find? id = some s) :
    t.agenda id = .start id :: (s.holdings.children.flatMap t.agenda ++ s.holdings.duties) :=
  h.walk_eq hs

/-- The cleanups of a scope, in the order of their registration. -/
def cleanupsOf (t : Scopes Cleanup Handler) (id : ScopeId) : List Cleanup :=
  ((t.find? id).map (·.holdings.cleanups)).getD []

/-- The computations of a scope, in the order of their creation. -/
def computationsOf (t : Scopes Cleanup Handler) (id : ScopeId) : List NodeId :=
  ((t.find? id).map (·.holdings.computations)).getD []

/-- The cleanup that a piece of work runs. -/
def Task.cleanup? : Task Cleanup → Option Cleanup
  | cleanup c => some c
  | _ => none

/-- The computation that a piece of work takes out of the graph. -/
def Task.retired? : Task Cleanup → Option NodeId
  | retire id => some id
  | _ => none

/-- The cleanups run as the scopes end, each of them once. -/
theorem Forest.cleanups_agenda (h : t.Forest) (id : ScopeId) :
    (t.agenda id).filterMap Task.cleanup? = (t.postorder id).flatMap t.cleanupsOf := by
  induction id using h.induct with
  | gone id hid => simp [agenda_gone hid, postorder_gone hid]
  | node id s hs ih =>
    have hduties : s.holdings.duties.filterMap Task.cleanup? = t.cleanupsOf id := by
      simp [Holdings.duties, cleanupsOf, hs, Task.cleanup?, List.filterMap_map, Function.comp_def]
    have hbelow : (s.holdings.children.flatMap t.agenda).filterMap Task.cleanup? =
        (s.holdings.children.flatMap t.postorder).flatMap t.cleanupsOf := by
      rw [List.filterMap_flatMap, List.flatMap_assoc]
      exact List.flatMap_congr ih
    rw [h.agenda_eq hs, h.postorder_eq hs, List.filterMap_cons_none rfl, List.filterMap_append,
      hduties, hbelow, List.flatMap_append, List.flatMap_singleton]

/-- The computations leave the graph as the scopes end, each of them once. -/
theorem Forest.retires_agenda (h : t.Forest) (id : ScopeId) :
    (t.agenda id).filterMap Task.retired? = (t.postorder id).flatMap t.computationsOf := by
  induction id using h.induct with
  | gone id hid => simp [agenda_gone hid, postorder_gone hid]
  | node id s hs ih =>
    have hduties : s.holdings.duties.filterMap Task.retired? = t.computationsOf id := by
      simp [Holdings.duties, computationsOf, hs, Task.retired?, List.filterMap_map,
        Function.comp_def]
    have hbelow : (s.holdings.children.flatMap t.agenda).filterMap Task.retired? =
        (s.holdings.children.flatMap t.postorder).flatMap t.computationsOf := by
      rw [List.filterMap_flatMap, List.flatMap_assoc]
      exact List.flatMap_congr ih
    rw [h.agenda_eq hs, h.postorder_eq hs, List.filterMap_cons_none rfl, List.filterMap_append,
      hduties, hbelow, List.flatMap_append, List.flatMap_singleton]

/-- How many batches are open behind a piece of work. -/
def Task.level : Task Cleanup → Nat → Nat
  | start _, k => k + 1
  | finish, k => k - 1
  | _, k => k

/-- How many batches are open behind some work. -/
def levelAfter (l : List (Task Cleanup)) (k : Nat) : Nat := l.foldl (fun k task => task.level k) k

/-- Work that closes the batches it opens, and no other ones. -/
def Nested (l : List (Task Cleanup)) : Prop :=
  ∀ k, levelAfter l k = k ∧ ∀ done rest, l = done ++ rest → k ≤ levelAfter done k

/-- The level behind two lists of tasks. -/
theorem levelAfter_append (l l' : List (Task Cleanup)) (k : Nat) :
    levelAfter (l ++ l') k = levelAfter l' (levelAfter l k) := List.foldl_append

/-- Where nothing is to do, nothing is left open. -/
theorem nested_nil : Nested ([] : List (Task Cleanup)) := by
  refine fun k => ⟨rfl, fun done rest h => ?_⟩
  obtain ⟨rfl, -⟩ := List.append_eq_nil_iff.1 h.symm
  exact Nat.le_refl k

/-- Two nested lists one after the other. -/
theorem Nested.append {l l' : List (Task Cleanup)} (h : Nested l) (h' : Nested l') :
    Nested (l ++ l') := by
  refine fun k => ⟨by rw [levelAfter_append, (h k).1, (h' k).1], fun done rest heq => ?_⟩
  rcases List.append_eq_append_iff.1 heq with ⟨more, rfl, hrest⟩ | ⟨more, hdone, -⟩
  · rw [levelAfter_append, (h k).1]
    exact (h' k).2 more rest hrest
  · exact (h k).2 done more hdone

/-- Nested lists one after the other. -/
theorem Nested.flatMap {β : Type} {f : β → List (Task Cleanup)} {l : List β}
    (h : ∀ b ∈ l, Nested (f b)) : Nested (l.flatMap f) := by
  induction l with
  | nil => exact nested_nil
  | cons b l ih =>
    exact (h b List.mem_cons_self).append (ih fun c hc => h c (List.mem_cons_of_mem b hc))

/-- Work that opens and closes nothing. -/
theorem nested_of_level {l : List (Task Cleanup)} (h : ∀ task ∈ l, ∀ k, task.level k = k) :
    Nested l := by
  have hlevel (l : List (Task Cleanup)) (h : ∀ task ∈ l, ∀ k, task.level k = k) (k : Nat) :
      levelAfter l k = k := by
    induction l with
    | nil => rfl
    | cons task l ih =>
      rw [levelAfter, List.foldl_cons, h task List.mem_cons_self]
      exact ih fun task' h' => h task' (List.mem_cons_of_mem task h')
  refine fun k => ⟨hlevel l h k, fun done rest heq => ?_⟩
  exact Nat.le_of_eq (hlevel done
    (fun task htask => h task (heq ▸ List.mem_append_left rest htask)) k).symm

/-- Inside a batch around such work at least that batch is open. -/
theorem Nested.lt_inside {l done rest : List (Task Cleanup)} (h : Nested l) {id : ScopeId}
    (heq : .start id :: (l ++ [.finish]) = done ++ rest) (hdone : done ≠ []) (hrest : rest ≠ [])
    (k : Nat) : k < levelAfter done k := by
  obtain ⟨task, done, rfl⟩ := List.exists_cons_of_ne_nil hdone
  rw [List.cons_append, List.cons.injEq] at heq
  obtain ⟨rfl, heq⟩ := heq
  rcases List.append_eq_append_iff.1 heq with ⟨more, rfl, hmore⟩ | ⟨more, rfl, -⟩
  · obtain rfl : more = [] := by
      cases more with
      | nil => rfl
      | cons task more =>
        rw [List.cons_append, List.cons.injEq] at hmore
        exact absurd (List.append_eq_nil_iff.1 hmore.2.symm).2 hrest
    rw [List.append_nil]
    exact Nat.lt_of_lt_of_eq (Nat.lt_succ_self k) (h (k + 1)).1.symm
  · exact (h (k + 1)).2 done more rfl

/-- A nested list in the batch of a scope. -/
theorem Nested.enclosed {l : List (Task Cleanup)} (h : Nested l) (id : ScopeId) :
    Nested (.start id :: (l ++ [.finish])) := by
  intro k
  have hend : levelAfter (.start id :: (l ++ [.finish])) k = k := by
    show levelAfter (l ++ [.finish]) (k + 1) = k
    rw [levelAfter_append, (h (k + 1)).1]
    rfl
  refine ⟨hend, fun done rest heq => ?_⟩
  by_cases hdone : done = []
  · subst hdone
    exact Nat.le_refl k
  · by_cases hrest : rest = []
    · rw [hrest, List.append_nil] at heq
      exact Nat.le_of_eq (heq ▸ hend.symm)
    · exact Nat.le_of_lt (h.lt_inside heq hdone hrest k)

/-- The duties are the cleanups, the computations, and the end of the batch. -/
theorem Holdings.duties_eq (h : Holdings Cleanup) :
    h.duties = (h.cleanups.map .cleanup ++ h.computations.map .retire) ++ [.finish] := by
  rw [duties, List.append_assoc]

/-- Cleanups and computations leave no batch open. -/
theorem Holdings.nested_duties (h : Holdings Cleanup) :
    Nested (h.cleanups.map .cleanup ++ h.computations.map .retire) := by
  refine nested_of_level fun task htask k => ?_
  rcases List.mem_append.1 htask with htask | htask
  all_goals
    obtain ⟨_, -, rfl⟩ := List.mem_map.1 htask
    rfl

/-- A scope that ends closes the batches it opens. -/
theorem Forest.nested_agenda (h : t.Forest) (id : ScopeId) : Nested (t.agenda id) := by
  induction id using h.induct with
  | gone id hid => exact agenda_gone hid ▸ nested_nil
  | node id s hs ih =>
    rw [h.agenda_eq hs, Holdings.duties_eq, ← List.append_assoc]
    exact ((Nested.flatMap ih).append s.holdings.nested_duties).enclosed id

/-- In the middle of its end the batch of a scope is open. -/
theorem Forest.lt_inside_agenda (h : t.Forest) {done rest : List (Task Cleanup)}
    (heq : t.agenda id = done ++ rest) (hdone : done ≠ []) (hrest : rest ≠ []) (k : Nat) :
    k < levelAfter done k := by
  cases hs : t.find? id with
  | none =>
    rw [agenda_gone hs] at heq
    exact absurd (List.append_eq_nil_iff.1 heq.symm).1 hdone
  | some s =>
    rw [h.agenda_eq hs, Holdings.duties_eq, ← List.append_assoc] at heq
    exact ((Nested.flatMap fun c _ => h.nested_agenda c).append s.holdings.nested_duties).lt_inside
      heq hdone hrest k

end Rivulet.Scopes
