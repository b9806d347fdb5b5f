import Mathlib.Data.List.Basic
import Rivulet.Tracking

/-!
# Sections inside sections

Sections are opened, nodes are read, and the innermost section is closed again, with what was read
in it or without. As long as nothing is closed that was not opened before, the step that closes a
section finds just what was read in it while no other section was open on top of it, and the stack
below is what it was when the section was opened.
-/

namespace Rivulet.Tracking

/-- A list that holds what another one holds, each element once, in the order in which they came
first. -/
structure FirstOf (ids reads : List NodeId) : Prop where
  /-- Each element stands there once. -/
  nodup : ids.Nodup
  /-- The elements are those of the other list. -/
  mem : ∀ id, id ∈ ids ↔ id ∈ reads
  /-- What came first for the first time stands first. -/
  order : ids.Pairwise fun a b => reads.idxOf a < reads.idxOf b

private theorem FirstOf.nil : FirstOf [] [] := ⟨.nil, fun _ => Iff.rfl, .nil⟩

/-- A read is put at the end, unless it is not the first one of its node. -/
theorem FirstOf.concat {ids reads : List NodeId} (h : FirstOf ids reads) (id : NodeId) :
    FirstOf (if id ∈ ids then ids else ids ++ [id]) (reads ++ [id]) := by
  have hkept (a : NodeId) (ha : a ∈ ids) : (reads ++ [id]).idxOf a = reads.idxOf a :=
    List.idxOf_append_of_mem ((h.mem a).1 ha)
  have horder : ids.Pairwise fun a b => (reads ++ [id]).idxOf a < (reads ++ [id]).idxOf b :=
    h.order.imp_of_mem fun ha hb hlt => by rwa [hkept _ ha, hkept _ hb]
  split
  · rename_i hid
    refine ⟨h.nodup, fun a => ?_, horder⟩
    rw [List.mem_append, List.mem_singleton, ← h.mem a]
    exact ⟨Or.inl, fun ha => ha.elim (fun ha => ha) fun ha => ha ▸ hid⟩
  · rename_i hid
    refine ⟨?_, fun a => ?_, ?_⟩
    · refine List.nodup_append.2 ⟨h.nodup, List.pairwise_singleton _ _, fun a ha b hb => ?_⟩
      rintro rfl
      exact hid (List.mem_singleton.1 hb ▸ ha)
    · rw [List.mem_append, List.mem_append, h.mem a]
    · refine List.pairwise_append.2 ⟨horder, List.pairwise_singleton _ _, fun a ha b hb => ?_⟩
      obtain rfl := List.mem_singleton.1 hb
      have hnew : b ∉ reads := fun hmem => hid ((h.mem b).2 hmem)
      rw [hkept a ha, List.idxOf_append_of_notMem hnew]
      exact Nat.lt_add_right _ (List.idxOf_lt_length_of_mem ((h.mem a).1 ha))

/-- What an observer is given of the reads made in its section. -/
def Observer.collects (o : Observer) (reads : List NodeId) : List NodeId :=
  if o.node?.isSome then reads else []

/-- Whether a computed value is being evaluated while a section is the innermost one. -/
def Observer.guards (outside : Bool) : Observer → Bool
  | derived _ => true
  | effect _ => false
  | untracked => outside

/-- How a section is closed. -/
inductive Ending where
  /-- What was read in it is handed on. -/
  | finish
  /-- What was read in it is forgotten. -/
  | drop
  deriving DecidableEq, Repr

/-- A step taken on the stack. -/
inductive Step where
  /-- A section is opened. -/
  | enter (observer : Observer)
  /-- A node is read. -/
  | record (id : NodeId)
  /-- The innermost section is closed. -/
  | leave (ending : Ending)
  deriving DecidableEq, Repr

namespace Step

/-- The stack after a step. -/
def apply (t : Tracking) : Step → Tracking
  | enter observer => t.enter observer
  | record id => t.record id
  | leave _ => t.leave.2

/-- The reads that a step hands on. -/
def handed? (t : Tracking) : Step → Option (List NodeId)
  | leave .finish => some t.leave.1
  | _ => none

/-- How many sections are open after a step, unless it closes one that was not opened. -/
def depth? : Nat → Step → Option Nat
  | n, enter _ => some (n + 1)
  | n, record _ => some n
  | 0, leave _ => none
  | n + 1, leave _ => some n

end Step

/-- The stack after several steps. -/
def after (t : Tracking) (steps : List Step) : Tracking := steps.foldl Step.apply t

/-- How many sections are open after several steps, unless one of them closes a section that was
not opened. -/
def depthAfter? (n : Nat) (steps : List Step) : Option Nat := steps.foldlM Step.depth? n

/-- Steps that close only what they opened. -/
def WellNested (steps : List Step) : Prop := (depthAfter? 0 steps).isSome

/-- Steps that close what they opened and nothing else. -/
def Balanced (steps : List Step) : Prop := depthAfter? 0 steps = some 0

instance (steps : List Step) : Decidable (WellNested steps) :=
  inferInstanceAs (Decidable ((depthAfter? 0 steps).isSome = true))

/-- What steps read while none of the sections above the given number is open. -/
def ownReads : Nat → List Step → List NodeId
  | _, [] => []
  | n, .enter _ :: steps => ownReads (n + 1) steps
  | 0, .record id :: steps => id :: ownReads 0 steps
  | n + 1, .record _ :: steps => ownReads (n + 1) steps
  | n, .leave _ :: steps => ownReads (n - 1) steps

private theorem after_append (t : Tracking) (steps more : List Step) :
    t.after (steps ++ more) = (t.after steps).after more := List.foldl_append

theorem depthAfter?_append (n : Nat) (steps more : List Step) :
    depthAfter? n (steps ++ more) = (depthAfter? n steps).bind (depthAfter? · more) :=
  List.foldlM_append

/-- What was open before stays open below. -/
theorem depthAfter?_add {n m : Nat} {steps : List Step} (h : depthAfter? n steps = some m)
    (k : Nat) : depthAfter? (n + k) steps = some (m + k) := by
  induction steps generalizing n with
  | nil =>
    obtain rfl : n = m := Option.some.inj h
    rfl
  | cons step steps ih =>
    obtain ⟨n', hstep, hrest⟩ := Option.bind_eq_some_iff.1 (List.foldlM_cons.symm.trans h)
    have hshift : step.depth? (n + k) = some (n' + k) := by
      cases step with
      | enter o =>
        obtain rfl := Option.some.inj hstep
        simp only [Step.depth?, Option.some.injEq]
        omega
      | record id =>
        obtain rfl := Option.some.inj hstep
        simp only [Step.depth?]
      | leave ending =>
        cases n with
        | zero => cases hstep
        | succ n =>
          obtain rfl := Option.some.inj hstep
          rw [Nat.add_right_comm]
          rfl
    exact List.foldlM_cons.trans (Option.bind_eq_some_iff.2 ⟨n' + k, hshift, ih hrest⟩)

/-- A read changes only what the innermost section has read. -/
theorem record_section (s : Section) (below : List Section) (id : NodeId) :
    ∃ reads, (⟨s :: below⟩ : Tracking).record id = ⟨⟨s.observer, reads⟩ :: below⟩ := by
  by_cases h : s.observer.node?.isSome ∧ id ∉ s.reads
  · exact ⟨s.reads ++ [id], if_pos h⟩
  · exact ⟨s.reads, if_neg h⟩

/-- What an observer is given goes on with the reads made in its section. -/
theorem record_collects {o : Observer} {ids reads : List NodeId}
    (h : FirstOf ids (o.collects reads)) (below : List Section) (id : NodeId) :
    ∃ ids', (⟨⟨o, ids⟩ :: below⟩ : Tracking).record id = ⟨⟨o, ids'⟩ :: below⟩ ∧
      FirstOf ids' (o.collects (reads ++ [id])) := by
  unfold Observer.collects at h ⊢
  by_cases ho : o.node?.isSome
  · rw [if_pos ho] at h ⊢
    refine ⟨_, ?_, h.concat id⟩
    by_cases hid : id ∈ ids
    · simp [record, hid]
    · simp [record, hid, ho]
  · rw [if_neg ho] at h ⊢
    exact ⟨ids, by simp [record, ho], h⟩

/-- Whatever is opened on top of a section and closed again, the section is given what is read while
it is the innermost one, and nothing below it changes. -/
theorem after_above {n m : Nat} {steps : List Step} (h : depthAfter? n steps = some m)
    {above : List Section} (habove : above.length = n) (below : List Section) {o : Observer}
    {ids reads : List NodeId} (hids : FirstOf ids (o.collects reads)) :
    ∃ above' ids', (⟨above ++ ⟨o, ids⟩ :: below⟩ : Tracking).after steps =
        ⟨above' ++ ⟨o, ids'⟩ :: below⟩ ∧
      above'.length = m ∧ FirstOf ids' (o.collects (reads ++ ownReads n steps)) := by
  induction steps generalizing n above ids reads with
  | nil =>
    obtain rfl : n = m := Option.some.inj h
    exact ⟨above, ids, rfl, habove, by rwa [ownReads, List.append_nil]⟩
  | cons step steps ih =>
    obtain ⟨n', hstep, hrest⟩ := Option.bind_eq_some_iff.1 (List.foldlM_cons.symm.trans h)
    cases step with
    | enter o' =>
      obtain rfl := Option.some.inj hstep
      have hmore : ({ observer := o' } :: above).length = n + 1 := by rw [List.length_cons, habove]
      exact ih hrest hmore hids
    | record id =>
      obtain rfl := Option.some.inj hstep
      cases above with
      | nil =>
        obtain rfl : n = 0 := habove.symm
        obtain ⟨ids', hrecord, hids'⟩ := record_collects hids below id
        obtain ⟨above', ids'', hafter, hlen, hfirst⟩ := ih hrest (rfl : [].length = 0) hids'
        refine ⟨above', ids'', ?_, hlen, ?_⟩
        · rw [← hafter]
          exact congrArg (after · steps) hrecord
        · rwa [List.append_assoc, List.singleton_append] at hfirst
      | cons s above =>
        obtain ⟨k, rfl⟩ : ∃ k, n = k + 1 := ⟨above.length, habove.symm⟩
        obtain ⟨inner, hrecord⟩ := record_section s (above ++ ⟨o, ids⟩ :: below) id
        have hsame : (⟨s.observer, inner⟩ :: above).length = k + 1 := habove
        obtain ⟨above', ids', hafter, hlen, hfirst⟩ := ih hrest hsame hids
        refine ⟨above', ids', ?_, hlen, hfirst⟩
        rw [← hafter]
        exact congrArg (after · steps) hrecord
    | leave ending =>
      cases above with
      | nil =>
        obtain rfl : n = 0 := habove.symm
        cases hstep
      | cons s above =>
        obtain ⟨k, rfl⟩ : ∃ k, n = k + 1 := ⟨above.length, habove.symm⟩
        obtain rfl := Option.some.inj hstep
        exact ih hrest (Nat.succ.inj habove) hids

/-- While a section is the innermost one, it stands on what the stack was before, with the first
reads of those that were made while it was the innermost one. -/
theorem after_enter (t : Tracking) (o : Observer) {body : List Step} (h : Balanced body) :
    ∃ ids, t.after (.enter o :: body) = ⟨⟨o, ids⟩ :: t.sections⟩ ∧
      FirstOf ids (o.collects (ownReads 0 body)) := by
  have hstart : FirstOf [] (o.collects []) := by
    rw [Observer.collects, ite_self]
    exact .nil
  obtain ⟨above, ids, hafter, hlen, hfirst⟩ :=
    after_above h (rfl : [].length = 0) t.sections hstart
  obtain rfl := List.length_eq_zero_iff.1 hlen
  exact ⟨ids, hafter, hfirst⟩

/-- While a section is open, the innermost one was opened by a step behind which everything that was
opened was closed. -/
theorem exists_enter {front : List Step} {n : Nat} (h : depthAfter? 0 front = some (n + 1)) :
    ∃ outer o body, front = outer ++ .enter o :: body ∧ Balanced body ∧
      depthAfter? 0 outer = some n := by
  induction hlen : front.length using Nat.strongRecOn generalizing front n with
  | ind len ih =>
    rcases front.eq_nil_or_concat with rfl | ⟨rest, step, rfl⟩
    · cases h
    rw [List.concat_eq_append] at h hlen ⊢
    rw [depthAfter?_append] at h
    obtain ⟨k, hrest, hlast⟩ := Option.bind_eq_some_iff.1 h
    have hshort : rest.length < len := by
      rw [← hlen, List.length_append]
      exact Nat.lt_succ_self _
    cases step with
    | enter o =>
      obtain rfl : k = n := Nat.succ.inj (Option.some.inj hlast)
      exact ⟨rest, o, [], rfl, rfl, hrest⟩
    | record id =>
      obtain rfl : k = n + 1 := Option.some.inj hlast
      obtain ⟨outer, o, body, rfl, hbody, houter⟩ := ih _ hshort hrest rfl
      refine ⟨outer, o, body ++ [.record id], by simp, ?_, houter⟩
      rw [Balanced, depthAfter?_append, hbody]
      rfl
    | leave ending =>
      -- The section closed last stands inside the one that is looked for.
      cases k with
      | zero => cases hlast
      | succ k =>
        obtain rfl : k = n + 1 := Option.some.inj hlast
        obtain ⟨middle, o', inside, rfl, hinside, hmiddle⟩ := ih _ hshort hrest rfl
        have hshorter : middle.length < len := by
          rw [List.length_append] at hshort
          omega
        obtain ⟨outer, o, body, rfl, hbody, houter⟩ := ih _ hshorter hmiddle rfl
        refine ⟨outer, o, body ++ .enter o' :: (inside ++ [.leave ending]), by simp, ?_, houter⟩
        have hclosed : depthAfter? 1 (inside ++ [.leave ending]) = some 0 := by
          rw [depthAfter?_append, depthAfter?_add hinside 1]
          rfl
        rw [Balanced, depthAfter?_append, hbody]
        exact hclosed

/-- What is found by a step that closes a section, and what it leaves behind. The steps in front of
it are those before the section was opened, the one that opened it, and those taken inside. -/
structure Closing (t : Tracking) (front : List Step) (ending : Ending) (outer : List Step)
    (o : Observer) (body : List Step) (ids : List NodeId) : Prop where
  /-- The section was opened by one of the steps in front. -/
  opened : front = outer ++ .enter o :: body
  /-- All that was opened inside was closed inside. -/
  balanced : Balanced body
  /-- The section was given what was read while it was the innermost one. -/
  collected : FirstOf ids (o.collects (ownReads 0 body))
  /-- An untracked section is given nothing. -/
  untracked : o = .untracked → ids = []
  /-- What the section was given is handed on when it is finished, and not when it is dropped. -/
  handed : (Step.leave ending).handed? (t.after front) = if ending = .finish then some ids else none
  /-- In front of the step, reads are recorded for the observer of the section. -/
  observed : (t.after front).observer? = o.node?
  /-- In front of the step, writes are as forbidden as the section says; an untracked one says
  nothing. -/
  guarded : (t.after front).inDerived = o.guards (t.after outer).inDerived
  /-- The stack is what it was in front of the section. -/
  sections : (t.after (front ++ [.leave ending])).sections = (t.after outer).sections
  /-- So is the node that reads are recorded for. -/
  observer : (t.after (front ++ [.leave ending])).observer? = (t.after outer).observer?
  /-- So are the running nodes. -/
  running : ∀ id, (t.after (front ++ [.leave ending])).isRunning id = (t.after outer).isRunning id
  /-- So is whether a computed value is being evaluated. -/
  derived : (t.after (front ++ [.leave ending])).inDerived = (t.after outer).inDerived

private theorem inDerived_cons (o : Observer) (ids : List NodeId) (below : List Section) :
    (⟨⟨o, ids⟩ :: below⟩ : Tracking).inDerived = o.guards (⟨below⟩ : Tracking).inDerived := by
  cases o <;> rfl

/-- Among any steps that close only what they opened, on any stack, each step that closes a section
closes the one that was opened last and not closed since. It finds the nodes that were read while no
other section was open on top of this one, each once, in the order of first reading; and after it
the stack, with all that is read off it, is what it was in front of the section. -/
theorem closes_exactly {steps front back : List Step} {ending : Ending} (h : WellNested steps)
    (hsplit : steps = front ++ .leave ending :: back) (t : Tracking) :
    ∃ outer o body ids, t.Closing front ending outer o body ids := by
  obtain ⟨n, hfront⟩ : ∃ n, depthAfter? 0 front = some (n + 1) := by
    rw [WellNested, hsplit, depthAfter?_append] at h
    cases hdepth : depthAfter? 0 front with
    | none => simp [hdepth] at h
    | some k =>
      cases k with
      | zero =>
        rw [hdepth] at h
        cases h
      | succ n => exact ⟨n, rfl⟩
  obtain ⟨outer, o, body, rfl, hbody, -⟩ := exists_enter hfront
  obtain ⟨ids, hinside, hfirst⟩ := after_enter (t.after outer) o hbody
  rw [← after_append] at hinside
  have hclosed : t.after (outer ++ .enter o :: body ++ [.leave ending]) = t.after outer := by
    rw [after_append, hinside]
    rfl
  refine ⟨outer, o, body, ids, rfl, hbody, hfirst, fun ho => ?_, ?_, ?_, ?_, ?_, ?_,
    fun id => ?_, ?_⟩
  · subst ho
    exact List.eq_nil_iff_forall_not_mem.2 fun id hid => List.not_mem_nil ((hfirst.mem id).1 hid)
  · rw [hinside]
    cases ending <;> rfl
  · rw [hinside]
    rfl
  · rw [hinside, inDerived_cons]
  · rw [hclosed]
  · rw [hclosed]
  · rw [hclosed]
  · rw [hclosed]

/-- A computed value reads a node twice, and in between an effect runs that breaks down, and a
section without an observer reads. -/
def layered : List Step :=
  [.enter (.derived ⟨0⟩), .record ⟨1⟩, .enter (.effect ⟨2⟩), .record ⟨3⟩, .leave .drop,
    .enter .untracked, .record ⟨4⟩, .leave .finish, .record ⟨5⟩, .record ⟨1⟩]

theorem closes_exactly_layered :
    let t : Tracking := ⟨[⟨.effect ⟨6⟩, [⟨3⟩]⟩]⟩
    WellNested (layered ++ [.leave .finish]) ∧
      (∃ outer o body ids, t.Closing layered .finish outer o body ids) ∧
      (Step.leave .finish).handed? (t.after layered) = some [⟨1⟩, ⟨5⟩] ∧
      t.after (layered ++ [.leave .finish]) = t :=
  ⟨by decide, closes_exactly (by decide : WellNested (layered ++ [.leave .finish])) rfl _,
    by decide, by decide⟩

end Rivulet.Tracking
