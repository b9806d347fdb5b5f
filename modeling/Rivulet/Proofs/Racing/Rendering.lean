import Mathlib.Data.List.Perm.Basic
import Rivulet.Proofs.Racing.Simulating
import Rivulet.Proofs.Reactive.Ending

/-!
# What renders and streams are told

The engine starts all fetches of a render or stream at one moment and lets time pass until the
last one is over. What it gives then is what those who asked are told by the steps: a render gets
the verdicts in the order of its queries, and a stream the values in the order in which they are
there.
-/

namespace Rivulet.Racing

open Query Engine

variable {acts : List Act} {id : CacheId} {S : System} {s : State}

/-- A render or stream asks. -/
def System.ask (S : System) (kind : Kind) (limit : Nat) (queries : List (String × Fetch)) :
    System :=
  { S with owners := S.owners + 1, races := S.races ++ asked S.owners kind limit queries }

/-- The queries of one who asks, with their numbers. -/
def System.queries (S : System) (kind : Kind) (limit : Nat) (queries : List (String × Fetch)) :
    List (Nat × Race) :=
  (queries.zipIdx S.races.length).map fun p =>
    (p.2, { owner := S.owners, kind, key := p.1.1, fetch := p.1.2, limit })

/-- The key and the fetch of a query. -/
def query (p : Nat × Race) : String × Fetch := (p.2.key, p.2.fetch)

/-- The queries that are asked for are those that were given. -/
theorem map_query_queries (S : System) (kind : Kind) (limit : Nat)
    (queries : List (String × Fetch)) : (S.queries kind limit queries).map query = queries := by
  simp [System.queries, query, Function.comp_def]

/-- Each query has a number of its own. -/
theorem nodup_queries (S : System) (kind : Kind) (limit : Nat) (queries : List (String × Fetch)) :
    ((S.queries kind limit queries).map Prod.fst).Nodup := by
  have hnumbers : (S.queries kind limit queries).map Prod.fst =
      List.range' S.races.length queries.length := by
    simp [System.queries, Function.comp_def]
  rw [hnumbers]
  exact List.nodup_range'

/-- All queries that are asked for wait. -/
theorem queries_waiting {kind : Kind} {limit : Nat} {queries : List (String × Fetch)}
    {p : Nat × Race} (hp : p ∈ S.queries kind limit queries) :
    (S.ask kind limit queries).races[p.1]? = some (p.2, .waiting) ∧ p.2.owner = S.owners ∧
      p.2.kind = kind ∧ p.2.limit = limit := by
  obtain ⟨⟨q, n⟩, hq, rfl⟩ := List.mem_map.1 hp
  obtain ⟨hle, hq⟩ := List.mk_mem_zipIdx_iff_le_and_getElem?_sub.1 hq
  refine ⟨?_, rfl, rfl, rfl⟩
  simp [System.ask, List.getElem?_append_right hle, asked, hq]

/-- Nothing is seen of it that someone asks. -/
theorem exists_asked (hrun : Runs acts S) (hshows : Shows id S s) (kind : Kind) {limit : Nat}
    (hlimit : 0 < limit) {queries : List (String × Fetch)}
    (hkeys : (queries.map Prod.fst).Nodup) :
    Runs (acts ++ [.ask kind limit queries]) (S.ask kind limit queries) ∧
      Shows id (S.ask kind limit queries) s := by
  have hnew (i : Nat) (r : Race) (stage : Stage)
      (hi : (S.ask kind limit queries).races[i]? = some (r, stage)) :
      S.races[i]? = some (r, stage) ∨ stage = .waiting := by
    rcases Nat.lt_or_ge i S.races.length with hlt | hge
    · exact .inl (by simpa [System.ask, List.getElem?_append_left hlt] using hi)
    · simp only [System.ask, List.getElem?_append_right hge] at hi
      exact .inr (stage_of_asked (List.mem_of_getElem? hi))
  refine ⟨hrun.snoc (.ask kind hlimit hkeys), hshows.exists_cache, hshows.clock, hshows.cache,
    hshows.sorted, hshows.ahead, hshows.sends.congr fun i l => ?_, fun i r stage hi => ?_⟩
  · constructor
    · rintro ⟨⟨r, stage⟩, hi, hl⟩
      rcases hnew i r stage hi with hi | rfl
      · exact ⟨_, hi, hl⟩
      · exact hl.elim
    · rintro ⟨p, hi, hl⟩
      have hlt := (List.getElem?_eq_some_iff.1 hi).1
      exact ⟨p, by simpa [System.ask, List.getElem?_append_left hlt] using hi, hl⟩
  · rcases hnew i r stage hi with hi | rfl
    · exact hshows.prompt i r stage hi
    · trivial

/-- What a query brings late when its fetch is started. -/
def Race.late? (id : CacheId) (since : Nat) (r : Race) : Option Late :=
  (r.fetch.late? r.limit).map fun value => ⟨since + r.fetch.plan.sleep, id, r.key, value⟩

/-- A fetch that was not started brings nothing. -/
theorem not_brings_ready (r : Race) (l : Late) : ¬ Brings (r, r.kind.ready) l := by
  cases r.kind <;> exact id

/-- One more query sends a late value, and all others send what they sent before. -/
theorem System.Sends.insertLate {S' : System} {c : Late → Bool} {late : List Late}
    (h : S.Sends (late.filter c)) {i : Nat} {l : Late} (hc : c l = true) (hl : S'.Brings i l)
    (hold : ∀ j m, S.Brings j m → j ≠ i ∧ S'.Brings j m)
    (hnew : ∀ j m, S'.Brings j m → j = i ∨ S.Brings j m) :
    S'.Sends ((Engine.insertLate l late).filter c) := by
  obtain ⟨order, hnodup, hall, hevery⟩ := h
  have hnotMem : i ∉ order := fun hmem => by
    obtain ⟨m, -, hi⟩ := exists_of_mem_order hall hmem
    exact (hold i m hi).1 rfl
  obtain ⟨order', hperm, horder'⟩ :=
    exists_forall₂_insertLate (hall.imp fun j m hj => (hold j m hj).2) hl hc
  refine ⟨order', hperm.nodup_iff.2 (List.nodup_cons.2 ⟨hnotMem, hnodup⟩), horder',
    fun j m hj => hperm.mem_iff.2 ?_⟩
  rcases hnew j m hj with rfl | hj
  · exact List.mem_cons_self
  · exact List.mem_cons_of_mem i (hevery j m hj)

/-- The engine sends the late value of a fetch on its way when the fetch is started. -/
theorem exists_started_one (hrun : Runs acts S) (hshows : Shows id S s) {i : Nat} {r : Race}
    (hrace : S.races[i]? = some (r, r.kind.ready)) :
    Runs (acts ++ [.start i]) (S.set i r (.racing S.clock)) ∧
      Shows id (S.set i r (.racing S.clock))
        { s with
          late := (r.late? id s.clock).toList.foldl (fun ls l => insertLate l ls) s.late } := by
  refine ⟨hrun.snoc (.start hrace), ?_⟩
  have hset (j : Nat) (m : Late) : (S.set i r (.racing S.clock)).Brings j m ↔
      if j = i then Brings (r, .racing S.clock) m else S.Brings j m :=
    brings_set hrace rfl j m
  have hother {j : Nat} {m : Late} (hj : S.Brings j m) : j ≠ i := by
    rintro rfl
    obtain ⟨p, hp, hm⟩ := hj
    obtain rfl := Option.some.inj (hrace.symm.trans hp)
    exact not_brings_ready r m hm
  cases hvalue : r.fetch.late? r.limit with
  | none =>
    have hnone : r.late? id s.clock = none := by simp [Race.late?, hvalue]
    rw [hnone]
    refine hshows.set hrace rfl (fun l => ?_) trivial rfl rfl rfl rfl hshows.cache
    refine iff_of_false (fun hl => ?_) (not_brings_ready r l)
    simp [Brings, hvalue] at hl
  | some value =>
    have hsome : r.late? id s.clock = some ⟨s.clock + r.fetch.plan.sleep, id, r.key, value⟩ := by
      simp [Race.late?, hvalue]
    rw [hsome]
    generalize hl : (⟨s.clock + r.fetch.plan.sleep, id, r.key, value⟩ : Late) = l
    have hbrings : Brings (r, .racing S.clock) l := by
      rw [← hl, hshows.clock]
      exact ⟨hvalue, rfl, rfl⟩
    have hcache : l.cache = id := by rw [← hl]
    have hdue : s.clock ≤ l.due := by
      rw [← hl]
      exact Nat.le_add_right _ _
    constructor
    · exact hshows.exists_cache
    · exact hshows.clock
    · exact hshows.cache
    · exact sorted_insertLate hshows.sorted
    · intro m hm
      rcases mem_insertLate.1 hm with rfl | hm
      · exact hdue
      · exact hshows.ahead m hm
    · refine hshows.sends.insertLate (by simpa using hcache) ((hset i l).2 ?_)
        (fun j m hj => ⟨hother hj, (hset j m).2 ?_⟩) fun j m hj => ?_
      · rwa [if_pos rfl]
      · rwa [if_neg (hother hj)]
      · have hj' := (hset j m).1 hj
        split at hj'
        · rename_i hji
          exact .inl hji
        · exact .inr hj'
    · exact prompt_set hrace rfl hshows.prompt trivial

/-- The engine starts fetches of several queries at one moment. -/
theorem exists_started (hrun : Runs acts S) (hshows : Shows id S s) {ps : List (Nat × Race)}
    (hnodup : (ps.map Prod.fst).Nodup)
    (hready : ∀ p ∈ ps, S.races[p.1]? = some (p.2, p.2.kind.ready)) :
    ∃ S', Runs (acts ++ ps.map (.start ·.1)) S' ∧
      Shows id S' { s with
        late := (ps.filterMap (·.2.late? id s.clock)).foldl (fun ls l => insertLate l ls) s.late } ∧
      S'.clock = S.clock ∧ S'.races.map Prod.fst = S.races.map Prod.fst ∧
      (∀ p ∈ ps, S'.races[p.1]? = some (p.2, .racing S.clock)) ∧
      ∀ i ∉ ps.map Prod.fst, S'.races[i]? = S.races[i]? := by
  induction ps generalizing acts S s with
  | nil =>
    exact ⟨S, by simpa using hrun, hshows, rfl, rfl, by simp, fun _ _ => rfl⟩
  | cons p ps ih =>
    rw [List.map_cons, List.nodup_cons] at hnodup
    have hrace := hready p List.mem_cons_self
    obtain ⟨hrun₁, hshows₁⟩ := exists_started_one hrun hshows hrace
    have hothers (i : Nat) (hi : p.1 ≠ i) :
        (S.set p.1 p.2 (.racing S.clock)).races[i]? = S.races[i]? := List.getElem?_set_ne hi
    have hfirst : (S.set p.1 p.2 (.racing S.clock)).races[p.1]? = some (p.2, .racing S.clock) :=
      List.getElem?_set_self (List.getElem?_eq_some_iff.1 hrace).1
    obtain ⟨S', hrun', hshows', hclock, hraces, hracing, hrest⟩ := ih hrun₁ hshows₁ hnodup.2
      (fun q hq => by
        rw [hothers q.1 fun he => hnodup.1 (he ▸ List.mem_map_of_mem hq)]
        exact hready q (List.mem_cons_of_mem p hq))
    refine ⟨S', by simpa using hrun', ?_, hclock, hraces.trans (map_fst_set hrace rfl),
      fun q hq => ?_, fun i hi => ?_⟩
    · have hlate : (p :: ps).filterMap (·.2.late? id s.clock) =
          (p.2.late? id s.clock).toList ++ ps.filterMap (·.2.late? id s.clock) := by
        cases h : p.2.late? id s.clock <;> simp [h]
      rw [hlate, List.foldl_append]
      exact hshows'
    · rcases List.mem_cons.1 hq with rfl | hq
      · rw [hrest q.1 hnodup.1, hfirst]
      · exact hracing q hq
    · rw [List.map_cons, List.mem_cons, not_or] at hi
      rw [hrest i hi.2, hothers i (Ne.symm hi.1)]

/-! ## Waiting -/

/-- What someone who was told has been told. -/
theorem Stage.verdicts_eq {r : Race} {stage : Stage} (hstarted : stage.Started)
    (hprompt : stage.Prompt r) (hracing : ∀ since, stage ≠ .racing since) :
    stage.verdicts = [r.fetch.verdict r.limit] := by
  cases stage with
  | waiting | taken | missed => exact hstarted.elim
  | racing since => exact absurd rfl (hracing since)
  | answered result =>
    have hwithin : r.fetch.resultWithin? r.limit = some result := hprompt
    simp [Stage.verdicts, Fetch.verdict, hwithin]
  | late | landed =>
    have hwithin : r.fetch.resultWithin? r.limit = none := hprompt
    simp [Stage.verdicts, Fetch.verdict, hwithin]

/-- Several fetches are waited for as long as each of them. -/
theorem le_longestWait {limit : Nat} {fetches : List (String × Fetch)} {p : String × Fetch}
    (hp : p ∈ fetches) : p.2.wait limit ≤ longestWait limit fetches := by
  have hfold (n : Nat) : n ≤ fetches.foldl (fun longest q => max longest (q.2.wait limit)) n ∧
      ∀ q ∈ fetches, q.2.wait limit ≤
        fetches.foldl (fun longest q => max longest (q.2.wait limit)) n := by
    clear hp
    induction fetches generalizing n with
    | nil => simp
    | cons q fetches ih =>
      obtain ⟨hle, hall⟩ := ih (max n (q.2.wait limit))
      refine ⟨Nat.le_trans (Nat.le_max_left _ _) hle, fun q' hq' => ?_⟩
      rcases List.mem_cons.1 hq' with rfl | hq'
      · exact Nat.le_trans (Nat.le_max_right _ _) hle
      · exact hall q' hq'
  exact (hfold 0).2 p hp

/-- The late values of fetches that are started at a moment. -/
def lateOf (id : CacheId) (limit since : Nat) (fetches : List (String × Fetch)) : List Late :=
  fetches.filterMap fun p =>
    (p.2.late? limit).map fun value => ⟨since + p.2.plan.sleep, id, p.1, value⟩

/-- The state when fetches were started and the last one is over. -/
def waited (id : CacheId) (limit : Nat) (fetches : List (String × Fetch)) (s : State) : State :=
  ({ s with
      late := (lateOf id limit s.clock fetches).foldl (fun ls l => insertLate l ls) s.late } :
    State).advanceTo (s.clock + longestWait limit fetches)
      (fetches.any fun p => endsAfter limit (longestWait limit fetches) p.2)

/-- When the engine has waited for fetches, all who asked for them were told what has become of
them. -/
theorem exists_waited (hrun : Runs acts S) (hshows : Shows id S s) {ps : List (Nat × Race)}
    {limit : Nat} (hlimit : ∀ p ∈ ps, p.2.limit = limit) (hnodup : (ps.map Prod.fst).Nodup)
    (hready : ∀ p ∈ ps, S.races[p.1]? = some (p.2, p.2.kind.ready)) :
    ∃ more S', Runs (acts ++ more) S' ∧ Shows id S' (waited id limit (ps.map query) s) ∧
      ∀ p ∈ ps, answers (acts ++ more) p.1 p.2.owner = [p.2.fetch.verdict limit] := by
  obtain ⟨S₁, hrun₁, hshows₁, hclock₁, hraces₁, hracing₁, -⟩ :=
    exists_started hrun hshows hnodup hready
  have hlate : lateOf id limit s.clock (ps.map query) = ps.filterMap (·.2.late? id s.clock) := by
    rw [lateOf, List.filterMap_map]
    refine List.filterMap_congr fun p hp => ?_
    rw [Function.comp_apply, query, Race.late?, hlimit p hp]
  rw [← hlate] at hshows₁
  obtain ⟨more, S', hrun', hshows', hcalm, hfollows, hclock'⟩ :=
    exists_advanced hrun₁ hshows₁ (longestWait limit (ps.map query))
      ((ps.map query).any fun p => endsAfter limit (longestWait limit (ps.map query)) p.2)
  refine ⟨ps.map (.start ·.1) ++ more, S', by rwa [← List.append_assoc], hshows', fun p hp => ?_⟩
  have hkept : (S'.races.map Prod.fst)[p.1]? = some p.2 := by
    rw [hfollows.races, List.getElem?_map, hracing₁ p hp, Option.map_some]
  rw [List.getElem?_map, Option.map_eq_some_iff] at hkept
  obtain ⟨⟨r, stage⟩, hrace, rfl : r = p.2⟩ := hkept
  have haccount := hrun'.accounted.account p.1 p.2 stage hrace
  have hstarted : .start p.1 ∈ acts ++ ps.map (.start ·.1) ++ more := by
    simp only [List.mem_append, List.mem_map]
    exact .inl (.inr ⟨p, hp, rfl⟩)
  have hover (since : Nat) : stage ≠ .racing since := by
    rintro rfl
    have hfirst := (hracing₁ p hp).symm.trans (hfollows.racing p.1 p.2 since hrace)
    obtain rfl : S.clock = since := by simpa using hfirst
    have hlater := hcalm p.1 p.2 S.clock hrace
    have hlongest : (query p).2.wait limit ≤ longestWait limit (ps.map query) :=
      le_longestWait (List.mem_map_of_mem hp)
    rw [hlimit p hp] at hlater
    change p.2.fetch.wait limit ≤ longestWait limit (ps.map query) at hlongest
    omega
  rw [← List.append_assoc, haccount.answers, if_pos rfl,
    Stage.verdicts_eq (haccount.started.1 hstarted) (hshows'.prompt _ _ _ hrace) hover,
    hlimit p hp]

/-- What someone has been told about queries, in the order of the queries. -/
def told (acts : List Act) (ps : List (Nat × Race)) : List (String × Verdict) :=
  ps.flatMap fun p => (answers acts p.1 p.2.owner).map (p.2.key, ·)

/-- What is told of each query makes up what is told. -/
theorem told_map {α : Type} {xs : List α} {f : α → Nat × Race} {verdict : α → Verdict}
    (h : ∀ x ∈ xs, answers acts (f x).1 (f x).2.owner = [verdict x]) :
    told acts (xs.map f) = xs.map fun x => ((f x).2.key, verdict x) := by
  induction xs with
  | nil => rfl
  | cons x xs ih =>
    have hrest := ih fun y hy => h y (List.mem_cons_of_mem x hy)
    rw [told] at hrest ⊢
    rw [List.map_cons, List.flatMap_cons, hrest, h x List.mem_cons_self]
    rfl

/-- What the engine gives for the queries of a render is what the render was told by the steps. -/
theorem exists_resolved (hrun : Runs acts S) (hshows : Shows id S s) {limit : Nat}
    (hlimit : 0 < limit) {fetches : List (String × Fetch)}
    (hkeys : (fetches.map Prod.fst).Nodup) :
    ∃ more S' s', Runs (acts ++ .ask .render limit fetches :: more) S' ∧ Shows id S' s' ∧
      resolveAll id limit fetches s =
        .ok (told (acts ++ .ask .render limit fetches :: more)
          (S.queries .render limit fetches)) s' ∧
      ∀ p ∈ S.queries .render limit fetches,
        answers (acts ++ .ask .render limit fetches :: more) p.1 p.2.owner =
          [p.2.fetch.verdict limit] := by
  obtain ⟨hrun₁, hshows₁⟩ := exists_asked hrun hshows .render hlimit hkeys
  obtain ⟨more, S', hrun', hshows', hanswers⟩ := exists_waited hrun₁ hshows₁
    (fun p hp => (queries_waiting hp).2.2.2) (nodup_queries S .render limit fetches)
    fun p hp => by
      rw [(queries_waiting hp).1, (queries_waiting hp).2.2.1, Kind.ready]
  rw [map_query_queries] at hshows'
  refine ⟨more, S', _, by simpa using hrun', hshows', ?_, by simpa using hanswers⟩
  have hgiven : told (acts ++ .ask .render limit fetches :: more)
      (S.queries .render limit fetches) = fetches.map fun p => (p.1, p.2.verdict limit) := by
    rw [List.append_assoc, List.singleton_append] at hanswers
    have htold := told_map (f := fun p => p) hanswers
    rw [List.map_id'] at htold
    rw [htold]
    conv_rhs => rw [← map_query_queries S .render limit fetches, List.map_map]
    rfl
  rw [hgiven]
  rfl

/-- The state when the cache was asked for a key. -/
def looked (id : CacheId) (key : String) (s : State) : State :=
  s.modifyCache id fun _ => ((s.cache id).take key).2

/-- Late values are taken one query after the other. -/
theorem takeLate_cons {key : String} {f : Fetch} {rest : List (String × Fetch)}
    {events : List Prefetch.Event} {left : List (String × Fetch)} {s' : State}
    (h : takeLate id rest (looked id key s) = .ok (events, left) s') :
    takeLate id ((key, f) :: rest) s =
      match (s.cache id).get? key with
      | some value => .ok (.query ⟨key, value⟩ :: events, left) s'
      | none => .ok (events, (key, f) :: left) s' := by
  have hbind : takeLate id ((key, f) :: rest) s =
      ((takeLate id rest >>= fun (r : List Prefetch.Event × List (String × Fetch)) =>
        match (s.cache id).get? key with
        | some value => pure (.query ⟨key, value⟩ :: r.1, r.2)
        | none => pure (r.1, (key, f) :: r.2)) : Run _) (looked id key s) := rfl
  rw [hbind, run_bind_ok h]
  cases (s.cache id).get? key <;> rfl

/-- What was looked up is no longer in the cache. -/
theorem get?_looked (h : id.index < s.caches.size) (key key' : String) :
    ((looked id key s).cache id).get? key' =
      if key = key' then none else (s.cache id).get? key' := by
  rw [looked, cache_modifyCache h, Cache.get?_take_eq]

/-- Looking up creates no cache. -/
theorem size_looked (id : CacheId) (key : String) (s : State) :
    (looked id key s).caches.size = s.caches.size := by
  simp [looked, State.modifyCache]

/-- The engine does not find a value for a query of a stream. -/
theorem exists_missed_one (hrun : Runs acts S) (hshows : Shows id S s) {i : Nat} {r : Race}
    (hrace : S.races[i]? = some (r, .waiting)) (hkind : r.kind = .stream)
    (hmiss : (s.cache id).get? r.key = none) :
    Runs (acts ++ [.miss i]) (S.set i r .missed) ∧
      Shows id (S.set i r .missed) (looked id r.key s) := by
  refine ⟨hrun.snoc (.miss hrace hkind ((hshows.cache r.key).trans hmiss)), ?_⟩
  refine hshows.set hrace rfl (fun _ => Iff.rfl) trivial rfl rfl rfl (size_looked id r.key s)
    fun key => ?_
  rw [get?_looked hshows.exists_cache]
  split
  · rename_i heq
    rw [← heq, ← hmiss]
    exact hshows.cache r.key
  · exact hshows.cache key

/-- The engine takes a value that it finds for a query of a stream. -/
theorem exists_taken_one (hrun : Runs acts S) (hshows : Shows id S s) {i : Nat} {r : Race}
    (hrace : S.races[i]? = some (r, .waiting)) (hkind : r.kind = .stream) {value : Json}
    (hfound : (s.cache id).get? r.key = some value) :
    ∃ S', Runs (acts ++ [.take i r.owner r.key value]) S' ∧ Shows id S' (looked id r.key s) ∧
      S'.races = S.races.set i (r, .taken value) := by
  refine ⟨_, hrun.snoc (.take hrace hkind ((hshows.cache r.key).trans hfound)), ?_, rfl⟩
  refine hshows.set hrace rfl (fun _ => Iff.rfl) trivial rfl rfl rfl (size_looked id r.key s)
    fun key => ?_
  rw [get?_looked hshows.exists_cache, Cache.get?_take_eq, hshows.cache]

/-- The engine takes what it finds in the cache for queries of a stream. -/
theorem exists_taken (hrun : Runs acts S) (hshows : Shows id S s) {ps : List (Nat × Race)}
    (hnodup : (ps.map Prod.fst).Nodup)
    (hwaiting : ∀ p ∈ ps, S.races[p.1]? = some (p.2, .waiting) ∧ p.2.kind = .stream) :
    ∃ (more : List Act) (S' : System) (s' : State) (taken : List ((Nat × Race) × Json))
      (left : List (Nat × Race)), Runs (acts ++ more) S' ∧ Shows id S' s' ∧
      takeLate id (ps.map query) s =
        .ok (taken.map fun p => .query ⟨p.1.2.key, p.2⟩, left.map query) s' ∧
      ps.Perm (taken.map Prod.fst ++ left) ∧
      (∀ p ∈ taken, .take p.1.1 p.1.2.owner p.1.2.key p.2 ∈ acts ++ more) ∧
      (∀ p ∈ left, S'.races[p.1]? = some (p.2, .missed) ∧ p.2.kind = .stream) ∧
      ∀ i ∉ ps.map Prod.fst, S'.races[i]? = S.races[i]? := by
  -- one look after the other; the fetches of what was missed are all started behind them
  induction ps generalizing acts S s with
  | nil =>
    exact ⟨[], S, s, [], [], by simpa using hrun, hshows, rfl, .nil, by simp, by simp,
      fun _ _ => rfl⟩
  | cons p ps ih =>
    rw [List.map_cons, List.nodup_cons] at hnodup
    obtain ⟨hrace, hkind⟩ := hwaiting p List.mem_cons_self
    have hothers {S₁ : System} {stage : Stage} (hset : S₁.races = S.races.set p.1 (p.2, stage))
        (i : Nat) (hi : p.1 ≠ i) : S₁.races[i]? = S.races[i]? := by
      rw [hset]
      exact List.getElem?_set_ne hi
    have hstill {S₁ : System} {stage : Stage} (hset : S₁.races = S.races.set p.1 (p.2, stage)) :
        ∀ q ∈ ps, S₁.races[q.1]? = some (q.2, .waiting) ∧ q.2.kind = .stream := by
      intro q hq
      rw [hothers hset q.1 fun he => hnodup.1 (he ▸ List.mem_map_of_mem hq)]
      exact hwaiting q (List.mem_cons_of_mem p hq)
    cases hfound : (s.cache id).get? p.2.key with
    | none =>
      obtain ⟨hrun₁, hshows₁⟩ := exists_missed_one hrun hshows hrace hkind hfound
      have hmissed : (S.set p.1 p.2 .missed).races[p.1]? = some (p.2, .missed) :=
        List.getElem?_set_self (List.getElem?_eq_some_iff.1 hrace).1
      obtain ⟨more, S', s', taken, left, hrun', hshows', htake, hperm, hacts, hleft, hraces⟩ :=
        ih hrun₁ hshows₁ hnodup.2 (hstill rfl)
      refine ⟨.miss p.1 :: more, S', s', taken, p :: left, by simpa using hrun', hshows', ?_, ?_,
        fun q hq => by simpa using hacts q hq, fun q hq => ?_, fun i hi => ?_⟩
      · rw [List.map_cons, query, takeLate_cons htake, hfound]
        rfl
      · exact (hperm.cons p).trans List.perm_middle.symm
      · rcases List.mem_cons.1 hq with rfl | hq
        · exact ⟨(hraces q.1 hnodup.1).trans hmissed, hkind⟩
        · exact hleft q hq
      · rw [List.map_cons, List.mem_cons, not_or] at hi
        rw [hraces i hi.2, hothers rfl i (Ne.symm hi.1)]
    | some value =>
      obtain ⟨S₁, hrun₁, hshows₁, hset⟩ := exists_taken_one hrun hshows hrace hkind hfound
      obtain ⟨more, S', s', taken, left, hrun', hshows', htake, hperm, hacts, hleft, hraces⟩ :=
        ih hrun₁ hshows₁ hnodup.2 (hstill hset)
      refine ⟨.take p.1 p.2.owner p.2.key value :: more, S', s', (p, value) :: taken, left,
        by simpa using hrun', hshows', ?_, hperm.cons p, fun q hq => ?_, hleft, fun i hi => ?_⟩
      · rw [List.map_cons, query, takeLate_cons htake, hfound]
        rfl
      · rcases List.mem_cons.1 hq with rfl | hq
        · simp
        · simpa using hacts q hq
      · rw [List.map_cons, List.mem_cons, not_or] at hi
        rw [hraces i hi.2, hothers hset i (Ne.symm hi.1)]

/-- Who has taken a value was told it. -/
theorem answers_of_take (hrun : Runs acts S) {i owner : Nat} {key : String} {value : Json}
    (h : .take i owner key value ∈ acts) : answers acts i owner = [.resolved value] := by
  have hknown : i < S.races.length := by
    by_contra hge
    exact (hrun.accounted.untouched i (Nat.not_lt.1 hge)).taken owner key value h
  have haccount := hrun.accounted.account i _ _ (List.getElem?_eq_getElem hknown)
  obtain ⟨hstage, howner, -⟩ := (haccount.taken owner key value).1 h
  rw [haccount.answers, if_pos howner, hstage, Stage.verdicts]

/-- What the engine gives for a stream are the values that the stream was told by the steps, in
the order in which they were there. -/
theorem exists_streamed {κ : Kernel} {c : Coordinator} {template : Program} {ms : Nat}
    (hms : 0 < ms) {start : State} {fetches : List (String × Fetch)}
    (hdiscover : discover κ template start = .ok fetches s)
    (hkeys : (fetches.map Prod.fst).Nodup) (hrun : Runs acts S) (hshows : Shows c.cache S s) :
    ∃ more S' events s', Runs (acts ++ .ask .stream ms fetches :: more) S' ∧
      Shows c.cache S' s' ∧ prefetch κ c template ms start = .ok (events ++ [.done]) s' ∧
      events.Perm ((told (acts ++ .ask .stream ms fetches :: more)
        (S.queries .stream ms fetches)).filterMap fun p => event? p.1 p.2) ∧
      ∀ p ∈ S.queries .stream ms fetches, ∃ verdict,
        answers (acts ++ .ask .stream ms fetches :: more) p.1 p.2.owner = [verdict] := by
  obtain ⟨hrun₁, hshows₁⟩ := exists_asked hrun hshows .stream hms hkeys
  obtain ⟨more₁, S₂, s₂, taken, left, hrun₂, hshows₂, htake, hperm, hacts, hleft, -⟩ :=
    exists_taken hrun₁ hshows₁ (nodup_queries S .stream ms fetches) fun p hp =>
      ⟨(queries_waiting hp).1, (queries_waiting hp).2.2.1⟩
  have hmem {p : Nat × Race} (hp : p ∈ left) : p ∈ S.queries .stream ms fetches :=
    hperm.mem_iff.2 (List.mem_append_right _ hp)
  have hnodup : (left.map Prod.fst).Nodup := by
    have hall := (hperm.map Prod.fst).nodup_iff.1 (nodup_queries S .stream ms fetches)
    rw [List.map_append] at hall
    exact (List.nodup_append.1 hall).2.1
  obtain ⟨more₂, S', hrun', hshows', hanswers⟩ := exists_waited hrun₂ hshows₂
    (fun p hp => (queries_waiting (hmem hp)).2.2.2) hnodup fun p hp => by
      rw [(hleft p hp).1, (hleft p hp).2, Kind.ready]
  rw [map_query_queries] at htake
  refine ⟨more₁ ++ more₂, S',
    taken.map (fun p => .query ⟨p.1.2.key, p.2⟩) ++
      (byEnd (left.map query)).filterMap fun p => event? p.1 (p.2.verdict ms),
    waited c.cache ms (left.map query) s₂, by simpa using hrun', hshows', ?_, ?_, fun p hp => ?_⟩
  · rw [prefetch, if_neg (Nat.pos_iff_ne_zero.1 hms), run_bind_ok hdiscover, run_bind_ok htake]
    rfl
  · have hacts' : acts ++ .ask .stream ms fetches :: (more₁ ++ more₂) =
        acts ++ [.ask .stream ms fetches] ++ more₁ ++ more₂ := by simp
    rw [hacts']
    have htaken := told_map (f := Prod.fst) fun p hp =>
      answers_of_take hrun' (List.mem_append_left more₂ (hacts p hp))
    have hwaited := told_map (f := fun p => p) hanswers
    rw [List.map_id'] at hwaited
    rw [told] at htaken hwaited
    refine List.Perm.trans ?_ ((hperm.flatMap_right _).filterMap _).symm
    rw [List.flatMap_append, htaken, hwaited, List.filterMap_append, List.filterMap_map]
    refine .append (.of_eq ?_) (((List.mergeSort_perm _ _).filterMap _).trans (.of_eq ?_))
    · simp [event?, Function.comp_def]
    · rw [List.filterMap_map, List.filterMap_map]
      rfl
  · have hacts' : acts ++ .ask .stream ms fetches :: (more₁ ++ more₂) =
        acts ++ [.ask .stream ms fetches] ++ more₁ ++ more₂ := by simp
    rw [hacts']
    rcases List.mem_append.1 (hperm.mem_iff.1 hp) with hp | hp
    · obtain ⟨q, hq, rfl⟩ := List.mem_map.1 hp
      exact ⟨_, answers_of_take hrun' (List.mem_append_left more₂ (hacts q hq))⟩
    · exact ⟨_, hanswers p hp⟩

/-! ## All that the engine does -/

/-- What the engine gives to one who asks. -/
inductive Reply where
  /-- A render gets verdicts. -/
  | verdicts (l : List (String × Verdict))
  /-- A stream gets events. -/
  | events (l : List Prefetch.Event)

/-- A reply is what was told about queries that were asked for, about each of them once: to a
render all that it was told, in the order of its queries, and to a stream the values among that,
before the end. -/
inductive Reply.Told (acts : List Act) (S : System) : Reply → Prop
  /-- A render gets verdicts. -/
  | verdicts {ps : List (Nat × Race)}
      (hasked : ∀ p ∈ ps, (S.races.map Prod.fst)[p.1]? = some p.2 ∧ p.2.kind = .render)
      (honce : ∀ p ∈ ps, ∃ verdict, answers acts p.1 p.2.owner = [verdict]) :
      Told acts S (.verdicts (told acts ps))
  /-- A stream gets events. -/
  | events {ps : List (Nat × Race)}
      (hasked : ∀ p ∈ ps, (S.races.map Prod.fst)[p.1]? = some p.2 ∧ p.2.kind = .stream)
      (honce : ∀ p ∈ ps, ∃ verdict, answers acts p.1 p.2.owner = [verdict])
      {events : List Prefetch.Event}
      (hevents : events.Perm ((told acts ps).filterMap fun p => event? p.1 p.2)) :
      Told acts S (.events (events ++ [.done]))

/-- What the engine does, as far as it matters to a cache, and what it gives for that. -/
inductive Operates (id : CacheId) (s : State) : Option Reply → State → Prop
  /-- It waits for the fetches of a render. -/
  | resolve {limit : Nat} (hlimit : 0 < limit) {fetches : List (String × Fetch)}
      (hkeys : (fetches.map Prod.fst).Nodup) {verdicts : List (String × Verdict)} {s' : State}
      (h : resolveAll id limit fetches s = .ok verdicts s') :
      Operates id s (some (.verdicts verdicts)) s'
  /-- It gives the events of a stream whose queries have just been discovered. -/
  | stream {κ : Kernel} {c : Coordinator} (hcache : c.cache = id) {template : Program} {ms : Nat}
      (hms : 0 < ms) {start : State} {fetches : List (String × Fetch)}
      (hdiscover : discover κ template start = .ok fetches s)
      (hkeys : (fetches.map Prod.fst).Nodup) {events : List Prefetch.Event} {s' : State}
      (h : prefetch κ c template ms start = .ok events s') :
      Operates id s (some (.events events)) s'
  /-- It lets time pass. -/
  | wait (ms : Nat) (through : Bool) : Operates id s none (s.advanceTo (s.clock + ms) through)
  /-- It puts a value into the cache for someone else. -/
  | put (key : String) (value : Json) :
      Operates id s none (s.modifyCache id (·.insert key value))
  /-- It sends a value to another cache. -/
  | send {l : Late} (hcache : l.cache ≠ id) (hahead : s.clock ≤ l.due) :
      Operates id s none { s with late := insertLate l s.late }
  /-- It does something that has nothing to do with the cache. -/
  | other {s' : State} (hclock : s'.clock = s.clock) (hlate : s'.late = s.late)
      (hsize : s.caches.size ≤ s'.caches.size) (hcache : s'.cache id = s.cache id) :
      Operates id s none s'

/-- What the engine does one after the other, with all that it gives. -/
inductive Works (id : CacheId) (s : State) : List Reply → State → Prop
  /-- Nothing yet. -/
  | nil : Works id s [] s
  /-- One thing more. -/
  | snoc {replies : List Reply} {reply : Option Reply} {s' s'' : State}
      (h : Works id s replies s') (hlast : Operates id s' reply s'') :
      Works id s (replies ++ reply.toList) s''

/-- Who asks asks for what is told apart from all that was asked for before. -/
theorem queries_asked {kind : Kind} {limit : Nat} {queries : List (String × Fetch)}
    {p : Nat × Race} (hp : p ∈ S.queries kind limit queries) {more : List Act} {S' : System}
    (hrun : Runs (acts ++ [.ask kind limit queries]) (S.ask kind limit queries))
    (hrun' : Runs (acts ++ .ask kind limit queries :: more) S') :
    (S'.races.map Prod.fst)[p.1]? = some p.2 ∧ p.2.kind = kind := by
  obtain ⟨hwaiting, -, hkind, -⟩ := queries_waiting hp
  rw [List.append_cons] at hrun'
  obtain ⟨rest, hrest⟩ := hrun.map_fst_prefix hrun'
  have hfirst : ((S.ask kind limit queries).races.map Prod.fst)[p.1]? = some p.2 := by
    rw [List.getElem?_map, hwaiting, Option.map_some]
  have hlt := (List.getElem?_eq_some_iff.1 hfirst).1
  rw [← hrest, List.getElem?_append_left hlt]
  exact ⟨hfirst, hkind⟩

/-- Who was told about a query is told nothing more. -/
theorem answers_kept {more : List Act} (hrun : Runs (acts ++ more) S) {i owner : Nat}
    {verdict : Verdict} (h : answers acts i owner = [verdict]) :
    answers (acts ++ more) i owner = [verdict] := by
  have hsplit : answers (acts ++ more) i owner = verdict :: answers more i owner := by
    rw [answers, List.filterMap_append, ← answers, h]
    rfl
  have hknown : i < S.races.length := by
    by_contra hge
    have hnone := (hrun.accounted.untouched i (Nat.not_lt.1 hge)).answers owner
    rw [hsplit] at hnone
    cases hnone
  have haccount := (hrun.accounted.account i _ _ (List.getElem?_eq_getElem hknown)).answers owner
  rw [hsplit] at haccount ⊢
  -- there is at most one verdict at every stage
  split at haccount
  · rw [haccount]
    generalize S.races[i].2 = stage at haccount
    cases stage <;> simp_all [Stage.verdicts]
  · cases haccount

/-- What was told about queries stays what was told when a run goes on. -/
theorem told_kept {more : List Act} (hrun : Runs (acts ++ more) S) {ps : List (Nat × Race)}
    (h : ∀ p ∈ ps, ∃ verdict, answers acts p.1 p.2.owner = [verdict]) :
    told (acts ++ more) ps = told acts ps := by
  refine List.flatMap_congr fun p hp => ?_
  obtain ⟨verdict, hverdict⟩ := h p hp
  rw [answers_kept hrun hverdict, hverdict]

/-- A reply stays what was told when a run goes on. -/
theorem Reply.Told.more {reply : Reply} {more : List Act} {S' : System}
    (h : reply.Told acts S) (hrun : Runs acts S) (hrun' : Runs (acts ++ more) S') :
    reply.Told (acts ++ more) S' := by
  obtain ⟨rest, hrest⟩ := hrun.map_fst_prefix hrun'
  have hkept {p : Nat × Race} {kind : Kind}
      (hp : (S.races.map Prod.fst)[p.1]? = some p.2 ∧ p.2.kind = kind) :
      (S'.races.map Prod.fst)[p.1]? = some p.2 ∧ p.2.kind = kind := by
    rw [← hrest, List.getElem?_append_left (List.getElem?_eq_some_iff.1 hp.1).1]
    exact hp
  have hverdict {p : Nat × Race} (hp : ∃ verdict, answers acts p.1 p.2.owner = [verdict]) :
      ∃ verdict, answers (acts ++ more) p.1 p.2.owner = [verdict] := by
    obtain ⟨verdict, hverdict⟩ := hp
    exact ⟨verdict, answers_kept hrun' hverdict⟩
  cases h with
  | @verdicts ps hasked honce =>
    rw [← told_kept hrun' honce]
    exact .verdicts (fun p hp => hkept (hasked p hp)) fun p hp => hverdict (honce p hp)
  | events hasked honce hevents =>
    rw [← told_kept hrun' honce] at hevents
    exact .events (fun p hp => hkept (hasked p hp)) (fun p hp => hverdict (honce p hp)) hevents

/-- A late value of another kind is not among those that are picked. -/
theorem filter_insertLate_of_neg {c : Late → Bool} {l : Late} (hc : ¬ c l = true)
    (late : List Late) : (insertLate l late).filter c = late.filter c := by
  induction late with
  | nil => rw [insertLate, List.filter_cons_of_neg hc]
  | cons m late ih =>
    rw [insertLate]
    split
    · rw [List.filter_cons_of_neg hc]
    · rw [List.filter_cons, List.filter_cons, ih]

/-- Whatever the engine does is some steps of those at work, and what it gives is what they tell. -/
theorem exists_operated {reply : Option Reply} {s' : State} (h : Operates id s reply s')
    (hrun : Runs acts S) (hshows : Shows id S s) :
    ∃ more S', Runs (acts ++ more) S' ∧ Shows id S' s' ∧
      ∀ given ∈ reply, given.Told (acts ++ more) S' := by
  cases h with
  | resolve hlimit hkeys h =>
    obtain ⟨more, S', s₁, hrun', hshows', hgiven, honce⟩ :=
      exists_resolved hrun hshows hlimit hkeys
    have hasked := (exists_asked hrun hshows .render hlimit hkeys).1
    obtain ⟨rfl, rfl⟩ := EStateM.Result.ok.inj (h.symm.trans hgiven)
    refine ⟨_, S', hrun', hshows', fun given hmem => ?_⟩
    obtain rfl := Option.some.inj hmem
    exact .verdicts (fun p hp => queries_asked hp hasked hrun') fun p hp => ⟨_, honce p hp⟩
  | stream hcache hms hdiscover hkeys h =>
    subst hcache
    obtain ⟨more, S', _, s₁, hrun', hshows', hgiven, hevents, honce⟩ :=
      exists_streamed hms hdiscover hkeys hrun hshows
    have hasked := (exists_asked hrun hshows .stream hms hkeys).1
    obtain ⟨rfl, rfl⟩ := EStateM.Result.ok.inj (h.symm.trans hgiven)
    refine ⟨_, S', hrun', hshows', fun given hmem => ?_⟩
    obtain rfl := Option.some.inj hmem
    exact .events (fun p hp => queries_asked hp hasked hrun') honce hevents
  | wait ms through =>
    obtain ⟨more, S', hrun', hshows', -⟩ := exists_advanced hrun hshows ms through
    exact ⟨more, S', hrun', hshows', nofun⟩
  | put key value =>
    obtain ⟨S', hrun', hshows'⟩ := exists_put hrun hshows key value
    exact ⟨[.put key value], S', hrun', hshows', nofun⟩
  | @send l hcache hahead =>
    refine ⟨[], S, by simpa using hrun, ⟨hshows.exists_cache, hshows.clock, hshows.cache,
      sorted_insertLate hshows.sorted, fun m hm => ?_, ?_, hshows.prompt⟩, nofun⟩
    · rcases mem_insertLate.1 hm with rfl | hm
      · exact hahead
      · exact hshows.ahead m hm
    · rw [filter_insertLate_of_neg (by simpa using hcache)]
      exact hshows.sends
  | other hclock hlate hsize hcache =>
    refine ⟨[], S, by simpa using hrun, ⟨Nat.lt_of_lt_of_le hshows.exists_cache hsize, ?_, ?_, ?_,
      ?_, ?_, hshows.prompt⟩, nofun⟩
    · rw [hclock, hshows.clock]
    · rw [hcache]
      exact hshows.cache
    · rw [hlate]
      exact hshows.sorted
    · rw [hlate, hclock]
      exact hshows.ahead
    · rw [hlate]
      exact hshows.sends

/-- Whatever the engine does one after the other, from a new cache on, is a run in which late
results are conserved, and what it gives to renders and streams on the way is what they are told. -/
theorem exists_run {replies : List Reply} {s' : State} (hcache : id.index < s.caches.size)
    (hempty : ∀ key, (s.cache id).get? key = none) (hlate : ∀ l ∈ s.late, l.cache ≠ id)
    (hsorted : s.late.Pairwise fun l m => l.due ≤ m.due) (hahead : ∀ l ∈ s.late, s.clock ≤ l.due)
    (h : Works id s replies s') :
    ∃ acts S, Runs acts S ∧ Shows id S s' ∧ Conserved acts S ∧
      ∀ reply ∈ replies, reply.Told acts S := by
  have hreached : ∃ acts S, Runs acts S ∧ Shows id S s' ∧
      ∀ reply ∈ replies, reply.Told acts S := by
    induction h with
    | nil =>
      obtain ⟨acts, S, hrun, hshows, -⟩ := exists_opened hcache hempty hlate hsorted hahead
      exact ⟨acts, S, hrun, hshows, by simp⟩
    | snoc _ hlast ih =>
      obtain ⟨acts, S, hrun, hshows, htold⟩ := ih
      obtain ⟨more, S', hrun', hshows', hgiven⟩ := exists_operated hlast hrun hshows
      refine ⟨acts ++ more, S', hrun', hshows', fun reply hreply => ?_⟩
      rcases List.mem_append.1 hreply with hreply | hreply
      · exact (htold reply hreply).more hrun hrun'
      · exact hgiven reply (Option.mem_toList.1 hreply)
  obtain ⟨acts, S, hrun, hshows, htold⟩ := hreached
  exact ⟨acts, S, hrun, hshows, hrun.conserved, htold⟩

end Rivulet.Racing
