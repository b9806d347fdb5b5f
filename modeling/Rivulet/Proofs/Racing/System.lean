import Rivulet.Query.Cache
import Rivulet.Query.Plan

/-!
# Renders and streams at work

Renders and prefetch streams run side by side and share one cache. Whoever asks for queries waits
for each of them no longer than a given time: the fetch is started, and either it ends first or
the time is over first. In the second case the fetch goes on alone, and its value is put into the
cache when it is there. A stream looks into the cache before it starts a fetch, and takes what it
finds; what others put there between the look and the start goes unseen. The steps of all that is
going on follow each other in any order; only time does not pass over a moment at which something
has to happen. The engine, which lets one render or stream work at a time, makes these steps in an
order of its own.
-/

namespace Rivulet.Racing

open Query

/-- What asks for queries. -/
inductive Kind where
  /-- A render, which takes no late results. -/
  | render
  /-- A prefetch stream, which does. -/
  | stream
  deriving DecidableEq, Repr

/-- A query that was asked for. -/
structure Race where
  /-- The number of the render or stream that asked. -/
  owner : Nat
  /-- What it is. -/
  kind : Kind
  /-- The key of the query. -/
  key : String
  /-- The fetch that gives the value. -/
  fetch : Fetch
  /-- How long the value is waited for. -/
  limit : Nat

/-- How far a query has come. -/
inductive Stage where
  /-- Nothing was done for it yet. -/
  | waiting
  /-- Its value was found in the cache. -/
  | taken (value : Json)
  /-- Its value was not found in the cache. -/
  | missed
  /-- Its fetch was started and is waited for. -/
  | racing (since : Nat)
  /-- Its fetch ended in time. -/
  | answered (result : Result)
  /-- Its fetch goes on, and nobody waits for it. -/
  | late (since : Nat)
  /-- Its value came late and was put into the cache. -/
  | landed (value : Json)

/-- How far a query has come when its fetch may be started: a stream looks into the cache before. -/
def Kind.ready : Kind → Stage
  | render => .waiting
  | stream => .missed

/-- The moment at which the next thing has to happen for a query. -/
def Race.due? (r : Race) : Stage → Option Nat
  | .racing since => some (since + r.fetch.wait r.limit)
  | .late since =>
    match r.fetch.result? with
    | some (.value _) => some (since + r.fetch.plan.sleep)
    | _ => none
  | _ => none

/-- All that is going on. -/
structure System where
  /-- The time. -/
  clock : Nat := 0
  /-- The cache of late results. -/
  cache : Cache := {}
  /-- How many renders and streams there have been. -/
  owners : Nat := 0
  /-- The queries that were asked for, in the order in which they were. -/
  races : List (Race × Stage) := []

/-- A query comes to a stage. -/
def System.set (s : System) (i : Nat) (r : Race) (stage : Stage) : System :=
  { s with races := s.races.set i (r, stage) }

/-- A step of one of those at work. Queries go by their number. -/
inductive Act where
  /-- A render or stream asks for queries. -/
  | ask (kind : Kind) (limit : Nat) (queries : List (String × Fetch))
  /-- A late result is taken from the cache, for the one who asked. -/
  | take (i owner : Nat) (key : String) (value : Json)
  /-- A late result is looked for in the cache and not found. -/
  | miss (i : Nat)
  /-- A fetch is started. -/
  | start (i : Nat)
  /-- The one who asked is told what has become of a query. -/
  | tell (i owner : Nat) (verdict : Verdict)
  /-- A late result is put into the cache. -/
  | land (i : Nat) (key : String) (value : Json)
  /-- Someone else puts a value into the cache. -/
  | put (key : String) (value : Json)
  /-- Time passes. -/
  | elapse (ms : Nat)

/-- The queries of one who asks, before anything was done for them. -/
def asked (owner : Nat) (kind : Kind) (limit : Nat) (queries : List (String × Fetch)) :
    List (Race × Stage) :=
  queries.map fun (key, fetch) => ({ owner, kind, key, fetch, limit }, .waiting)

/-- What a step does, and when it can be made. -/
inductive Step (s : System) : Act → System → Prop
  /-- Who asks asks for each key once, and waits for some time at least. -/
  | ask (kind : Kind) {limit : Nat} (hlimit : 0 < limit) {queries : List (String × Fetch)}
      (hkeys : (queries.map Prod.fst).Nodup) :
      Step s (.ask kind limit queries)
        { s with
          owners := s.owners + 1
          races := s.races ++ asked s.owners kind limit queries }
  /-- A stream takes what it finds in the cache. -/
  | take {i : Nat} {r : Race} {value : Json} (hrace : s.races[i]? = some (r, .waiting))
      (hkind : r.kind = .stream) (hfound : (s.cache.take r.key).1 = some value) :
      Step s (.take i r.owner r.key value)
        { s.set i r (.taken value) with cache := (s.cache.take r.key).2 }
  /-- A stream does not find what it looks for. -/
  | miss {i : Nat} {r : Race} (hrace : s.races[i]? = some (r, .waiting))
      (hkind : r.kind = .stream) (hmiss : s.cache.get? r.key = none) :
      Step s (.miss i) (s.set i r .missed)
  /-- A render starts every fetch, a stream one whose value it did not find. -/
  | start {i : Nat} {r : Race} (hrace : s.races[i]? = some (r, r.kind.ready)) :
      Step s (.start i) (s.set i r (.racing s.clock))
  /-- A fetch that is waited for has ended. -/
  | finish {i : Nat} {r : Race} {since : Nat} {result : Result}
      (hrace : s.races[i]? = some (r, .racing since))
      (hend : since + r.fetch.plan.sleep ≤ s.clock) (hresult : r.fetch.result? = some result) :
      Step s (.tell i r.owner result.verdict) (s.set i r (.answered result))
  /-- The time that a fetch has is over. -/
  | expire {i : Nat} {r : Race} {since : Nat} (hrace : s.races[i]? = some (r, .racing since))
      (hover : since + r.limit ≤ s.clock) :
      Step s (.tell i r.owner .pending) (s.set i r (.late since))
  /-- A fetch that nobody waits for has a value. -/
  | land {i : Nat} {r : Race} {since : Nat} {value : Json}
      (hrace : s.races[i]? = some (r, .late since))
      (hend : since + r.fetch.plan.sleep ≤ s.clock)
      (hresult : r.fetch.result? = some (.value value)) :
      Step s (.land i r.key value)
        { s.set i r (.landed value) with cache := s.cache.insert r.key value }
  /-- Anyone may put a value into the cache. -/
  | put (key : String) (value : Json) :
      Step s (.put key value) { s with cache := s.cache.insert key value }
  /-- Time passes, but not over a moment at which something has to happen. -/
  | elapse {ms : Nat} (hdue : ∀ p ∈ s.races, ∀ d ∈ p.1.due? p.2, s.clock + ms ≤ d) :
      Step s (.elapse ms) { s with clock := s.clock + ms }

/-- Steps that follow each other, from an empty cache on and before anyone has asked. -/
inductive Runs : List Act → System → Prop
  /-- Nothing has happened. -/
  | nil : Runs [] {}
  /-- One more step was made. -/
  | snoc {acts : List Act} {s s' : System} {act : Act} (h : Runs acts s) (hstep : Step s act s') :
      Runs (acts ++ [act]) s'

/-- What a step makes of a system is told by the step. -/
theorem Step.unique {s s' s'' : System} {act : Act} (h : Step s act s') (h' : Step s act s'') :
    s' = s'' := by
  have hsame {i : Nat} {p q : Race × Stage} (hp : s.races[i]? = some p)
      (hq : s.races[i]? = some q) : p = q := Option.some.inj (hp.symm.trans hq)
  cases h with
  | ask | put | elapse =>
    cases h'
    rfl
  | miss hrace =>
    cases h' with
    | miss hrace' =>
      cases hsame hrace hrace'
      rfl
  | start hrace =>
    cases h' with
    | start hrace' =>
      cases hsame hrace hrace'
      rfl
  | @take i r value hrace _ _ =>
    generalize hact : Act.take i r.owner r.key value = act at h'
    cases h' with
    | take hrace' _ _ =>
      obtain ⟨rfl, -, -, rfl⟩ := Act.take.inj hact
      cases hsame hrace hrace'
      rfl
    | _ => cases hact
  | @land i r since value hrace _ _ =>
    generalize hact : Act.land i r.key value = act at h'
    cases h' with
    | land hrace' _ _ =>
      obtain ⟨rfl, -, rfl⟩ := Act.land.inj hact
      cases hsame hrace hrace'
      rfl
    | _ => cases hact
  | @finish i r since result hrace _ hresult =>
    generalize hact : Act.tell i r.owner result.verdict = act at h'
    cases h' with
    | finish hrace' _ hresult' =>
      obtain ⟨rfl, -⟩ := Act.tell.inj hact
      cases hsame hrace hrace'
      cases hresult.symm.trans hresult'
      rfl
    | expire _ _ =>
      -- nobody is told that a fetch which has ended is pending
      cases result <;> cases (Act.tell.inj hact).2.2
    | _ => cases hact
  | @expire i r since hrace _ =>
    generalize hact : Act.tell i r.owner .pending = act at h'
    cases h' with
    | @finish _ _ _ result _ _ _ => cases result <;> cases (Act.tell.inj hact).2.2
    | expire hrace' _ =>
      obtain ⟨rfl, -⟩ := Act.tell.inj hact
      cases hsame hrace hrace'
      rfl
    | _ => cases hact

/-- What a run comes to is told by its steps. -/
theorem Runs.unique {acts : List Act} {s s' : System} (h : Runs acts s) (h' : Runs acts s') :
    s = s' := by
  induction h generalizing s' with
  | nil =>
    generalize hnil : [] = acts at h'
    cases h' with
    | nil => rfl
    | snoc => simp at hnil
  | @snoc acts s t act _ hstep ih =>
    generalize hacts : acts ++ [act] = all at h'
    cases h' with
    | nil => simp at hacts
    | snoc hrun hstep' =>
      obtain ⟨rfl, hact⟩ := List.append_inj' hacts rfl
      cases hact
      obtain rfl := ih hrun
      exact hstep.unique hstep'

/-- A fetch is waited for no longer than the time allows. -/
theorem wait_le_limit (f : Fetch) (limit : Nat) : f.wait limit ≤ limit := by
  unfold Fetch.wait Fetch.resultWithin?
  split
  · rename_i h
    split at h
    · omega
    · cases h
  · exact Nat.le_refl limit

/-- A fetch that ends is waited for no longer than it takes. -/
theorem wait_le_sleep {f : Fetch} {result : Result} (h : f.result? = some result) (limit : Nat) :
    f.wait limit ≤ f.plan.sleep := by
  unfold Fetch.wait Fetch.resultWithin?
  rw [h]
  split
  · exact Nat.le_refl _
  · rename_i hnone
    split at hnone
    · cases hnone
    · omega

/-- What a step tells someone about a query. -/
def Act.answer? (i owner : Nat) : Act → Option Verdict
  | take j o _ value => if j = i ∧ o = owner then some (.resolved value) else none
  | tell j o verdict => if j = i ∧ o = owner then some verdict else none
  | _ => none

/-- What someone has been told about a query. -/
def answers (acts : List Act) (i owner : Nat) : List Verdict :=
  acts.filterMap (Act.answer? i owner)

/-- What a step puts into the cache for a query. -/
def Act.landing? (i : Nat) : Act → Option (String × Json)
  | land j key value => if j = i then some (key, value) else none
  | _ => none

/-- What has been put into the cache for a query. -/
def landings (acts : List Act) (i : Nat) : List (String × Json) :=
  acts.filterMap (Act.landing? i)

/-- The query that a step is about. -/
def Act.about? : Act → Option Nat
  | take i .. | miss i | start i | tell i .. | land i .. => some i
  | _ => none

end Rivulet.Racing
