import Mathlib.Data.List.Forall2
import Mathlib.Data.List.Induction
import Rivulet.Engine.Clock
import Rivulet.Engine.Rendering
import Rivulet.Proofs.Racing.Conserving

/-!
# The engine runs renders and streams

The engine lets one render or stream work at a time, and what it does is what several of them
would do side by side: it asks, takes and starts at one moment, lets time pass until the last one
is told, and brings late values to their caches on the way. So all that is conserved for renders
and streams in any order is conserved when the engine runs them.

The engine keeps late values in the order of their moments, and lets time jump: what is due on the
way reaches its cache, in that order. A jump may be made in two, and a value may be brought to its
cache before the rest of the jump is made.
-/

namespace Rivulet.Engine

open Query

/-- A late value is due before a moment, or at the moment if time passes through it. -/
def Late.isDue (moment : Nat) (through : Bool) (l : Late) : Bool :=
  l.due < moment || (through && l.due = moment)

/-- A late value reaches its cache. -/
def Late.reach (caches : Array Cache) (l : Late) : Array Cache :=
  caches.modify l.cache.index (·.insert l.key l.value)

/-- What time does when it passes: what is due reaches its cache and is no longer on its way. -/
theorem State.advanceTo_eq (s : State) (moment : Nat) (through : Bool) :
    s.advanceTo moment through =
      { s with
        caches := (s.late.takeWhile (·.isDue moment through)).foldl Late.reach s.caches
        clock := moment
        late := s.late.dropWhile (·.isDue moment through) } := by
  have hfold (ls : List Late) (t : State) :
      ls.foldl arrive t = { t with caches := ls.foldl Late.reach t.caches } := by
    induction ls generalizing t with
    | nil => rfl
    | cons l ls ih => exact ih (t.arrive l)
  have hdrop : s.late.drop (s.late.takeWhile (·.isDue moment through)).length =
      s.late.dropWhile (·.isDue moment through) := by
    generalize hfirst : s.late.takeWhile (·.isDue moment through) = first
    generalize hrest : s.late.dropWhile (·.isDue moment through) = rest
    rw [← List.takeWhile_append_dropWhile (p := (·.isDue moment through)) (l := s.late), hfirst,
      hrest, List.drop_left]
  rw [← hdrop]
  exact congrArg (fun t : State => ({ t with
      clock := moment
      late := t.late.drop (s.late.takeWhile (·.isDue moment through)).length } : State))
    (hfold (s.late.takeWhile (·.isDue moment through)) s)

/-- A value that is due reaches its cache before time moves on. -/
theorem State.advanceTo_of_due {s : State} {l : Late} {rest : List Late}
    (hlate : s.late = l :: rest) {moment : Nat} {through : Bool}
    (hdue : l.isDue moment through = true) :
    s.advanceTo moment through =
      ({ s.arrive l with late := rest } : State).advanceTo moment through := by
  rw [advanceTo_eq, advanceTo_eq, hlate, List.takeWhile_cons_of_pos hdue,
    List.dropWhile_cons_of_pos hdue]
  rfl

/-- When nothing is due, only the time changes. -/
theorem State.advanceTo_of_not_due {s : State} {moment : Nat} {through : Bool}
    (hdue : ∀ l ∈ s.late.head?, l.isDue moment through = false) :
    s.advanceTo moment through = { s with clock := moment } := by
  rw [advanceTo_eq]
  cases hlate : s.late with
  | nil => rfl
  | cons l rest =>
    have hnot : ¬ l.isDue moment through = true := by simp [hdue l (by simp [hlate])]
    rw [List.takeWhile_cons_of_neg hnot, List.dropWhile_cons_of_neg hnot]
    rfl

/-- To pass through a moment is to pass on behind it. -/
theorem State.advanceTo_succ (s : State) (moment : Nat) :
    s.advanceTo (moment + 1) false = { s.advanceTo moment true with clock := moment + 1 } := by
  have hsame : Late.isDue (moment + 1) false = Late.isDue moment true := by
    funext l
    rw [Bool.eq_iff_iff]
    simp only [Late.isDue, Bool.false_and, Bool.or_false, Bool.true_and, Bool.or_eq_true,
      decide_eq_true_eq]
    omega
  rw [advanceTo_eq, advanceTo_eq, hsame]

/-- Time may pass in two spans. -/
theorem State.advanceTo_advanceTo (s : State) {first moment : Nat} (h : first ≤ moment)
    (through : Bool) :
    (s.advanceTo first false).advanceTo moment through = s.advanceTo moment through := by
  have hsplit (ls : List Late) (caches : Array Cache) :
      ((ls.dropWhile (·.isDue first false)).takeWhile (·.isDue moment through)).foldl Late.reach
          ((ls.takeWhile (·.isDue first false)).foldl Late.reach caches) =
        (ls.takeWhile (·.isDue moment through)).foldl Late.reach caches ∧
      (ls.dropWhile (·.isDue first false)).dropWhile (·.isDue moment through) =
        ls.dropWhile (·.isDue moment through) := by
    induction ls generalizing caches with
    | nil => exact ⟨rfl, rfl⟩
    | cons l ls ih =>
      by_cases hdue : l.isDue first false = true
      · have hlater : l.isDue moment through = true := by
          simp only [Late.isDue, Bool.false_and, Bool.or_false, decide_eq_true_eq] at hdue
          simp only [Late.isDue, Bool.or_eq_true, decide_eq_true_eq]
          exact .inl (by omega)
        rw [List.takeWhile_cons_of_pos hdue, List.dropWhile_cons_of_pos hdue,
          List.takeWhile_cons_of_pos hlater, List.dropWhile_cons_of_pos hlater]
        exact ih (Late.reach caches l)
      · rw [List.takeWhile_cons_of_neg hdue, List.dropWhile_cons_of_neg hdue]
        exact ⟨rfl, rfl⟩
  have hboth := hsplit s.late s.caches
  rw [advanceTo_eq s first, advanceTo_eq s moment, advanceTo_eq, ← hboth.1, ← hboth.2]

/-- A late value is inserted among the others. -/
theorem mem_insertLate {l m : Late} {late : List Late} :
    m ∈ insertLate l late ↔ m = l ∨ m ∈ late := by
  induction late with
  | nil => simp [insertLate]
  | cons n late ih =>
    rw [insertLate]
    split
    · simp
    · simp only [List.mem_cons, ih]
      tauto

/-- Late values stay in the order of their moments. -/
theorem sorted_insertLate {l : Late} {late : List Late}
    (h : late.Pairwise fun m n => m.due ≤ n.due) :
    (insertLate l late).Pairwise fun m n => m.due ≤ n.due := by
  induction late with
  | nil => simp [insertLate]
  | cons n late ih =>
    obtain ⟨hn, hlate⟩ := List.pairwise_cons.1 h
    rw [insertLate]
    split
    · rename_i hlt
      refine List.pairwise_cons.2 ⟨fun m hm => ?_, h⟩
      rcases List.mem_cons.1 hm with rfl | hm
      · exact Nat.le_of_lt hlt
      · exact Nat.le_trans (Nat.le_of_lt hlt) (hn m hm)
    · rename_i hle
      refine List.pairwise_cons.2 ⟨fun m hm => ?_, ih hlate⟩
      rcases mem_insertLate.1 hm with rfl | hm
      · exact Nat.not_lt.1 hle
      · exact hn m hm

/-- Each number stands for one of the late values. -/
theorem exists_of_mem_order {R : Nat → Late → Prop} {order : List Nat} {late : List Late}
    (h : List.Forall₂ R order late) {i : Nat} (hi : i ∈ order) : ∃ l ∈ late, R i l := by
  induction h with
  | nil => cases hi
  | @cons j l order late hj _ ih =>
    rcases List.mem_cons.1 hi with rfl | hi
    · exact ⟨l, List.mem_cons_self, hj⟩
    · obtain ⟨m, hm, hrel⟩ := ih hi
      exact ⟨m, List.mem_cons_of_mem l hm, hrel⟩

/-- What stands for the late values of a kind still does when one more of the kind is put among
them. -/
theorem exists_forall₂_insertLate {R : Nat → Late → Prop} {c : Late → Bool} {order : List Nat}
    {late : List Late} (h : List.Forall₂ R order (late.filter c)) {i : Nat} {l : Late}
    (hl : R i l) (hc : c l = true) :
    ∃ order', order'.Perm (i :: order) ∧
      List.Forall₂ R order' ((insertLate l late).filter c) := by
  induction late generalizing order with
  | nil =>
    refine ⟨i :: order, .refl _, ?_⟩
    rw [insertLate, List.filter_cons_of_pos hc]
    exact .cons hl h
  | cons n late ih =>
    rw [insertLate]
    split
    · refine ⟨i :: order, .refl _, ?_⟩
      rw [List.filter_cons_of_pos hc]
      exact .cons hl h
    · by_cases hn : c n = true
      · rw [List.filter_cons_of_pos hn] at h ⊢
        cases h with
        | @cons j _ order _ hj h =>
          obtain ⟨order', hperm, horder'⟩ := ih h
          exact ⟨j :: order', (hperm.cons j).trans (.swap i j order), .cons hj horder'⟩
      · rw [List.filter_cons_of_neg hn] at h ⊢
        exact ih h

end Rivulet.Engine

namespace Rivulet.Racing

open Query Engine

/-- A query whose value will come late. -/
def Brings : Race × Stage → Late → Prop
  | (r, .racing since), l | (r, .late since), l =>
    r.fetch.late? r.limit = some l.value ∧ l.key = r.key ∧ l.due = since + r.fetch.plan.sleep
  | _, _ => False

/-- The query of a number is one whose value will come late. -/
def System.Brings (S : System) (i : Nat) (l : Late) : Prop :=
  ∃ p, S.races[i]? = some p ∧ Racing.Brings p l

/-- The engine's late values stand for queries, in their order, and none is left out. -/
def System.Sends (S : System) (late : List Late) : Prop :=
  ∃ order : List Nat, order.Nodup ∧ List.Forall₂ S.Brings order late ∧
    ∀ i l, S.Brings i l → i ∈ order

/-- Who asked was told what the fetch says about the time that it has. -/
def Stage.Prompt (r : Race) : Stage → Prop
  | answered result => r.fetch.resultWithin? r.limit = some result
  | late _ | landed _ => r.fetch.resultWithin? r.limit = none
  | _ => True

/-- What a state of the engine shows of those at work on one of its caches. -/
structure Shows (id : CacheId) (S : System) (s : State) : Prop where
  /-- The cache is there. -/
  exists_cache : id.index < s.caches.size
  /-- The time is the same. -/
  clock : S.clock = s.clock
  /-- The same values are in the cache. -/
  cache : ∀ key, S.cache.get? key = (s.cache id).get? key
  /-- Late values are in the order of their moments. -/
  sorted : s.late.Pairwise fun l m => l.due ≤ m.due
  /-- Their moments have not passed. -/
  ahead : ∀ l ∈ s.late, s.clock ≤ l.due
  /-- They stand for queries. -/
  sends : S.Sends (s.late.filter (·.cache = id))
  /-- Everyone who was told was told what the fetch says. -/
  prompt : ∀ (i : Nat) (r : Race) (stage : Stage), S.races[i]? = some (r, stage) → stage.Prompt r

/-- Some steps leave the queries what they are, and no fetch is waited for anew. -/
structure Follows (S S' : System) : Prop where
  /-- The same queries, in the same order. -/
  races : S'.races.map Prod.fst = S.races.map Prod.fst
  /-- What is waited for was waited for before. -/
  racing : ∀ (i : Nat) (r : Race) (since : Nat), S'.races[i]? = some (r, .racing since) →
    S.races[i]? = some (r, .racing since)

theorem Follows.refl (S : System) : Follows S S := ⟨rfl, fun _ _ _ h => h⟩

theorem Follows.trans {S T U : System} (h : Follows S T) (h' : Follows T U) : Follows S U :=
  ⟨h'.races.trans h.races, fun i r since hU => h.racing i r since (h'.racing i r since hU)⟩

/-- Everyone has been told whose time is over. -/
def Calm (S : System) : Prop :=
  ∀ (i : Nat) (r : Race) (since : Nat), S.races[i]? = some (r, .racing since) →
    S.clock < since + r.fetch.wait r.limit

variable {acts : List Act} {id : CacheId} {S : System} {s : State}

/-- A value is late when it was not there in time. -/
theorem late?_eq_some {f : Fetch} {limit : Nat} {value : Json} :
    f.late? limit = some value ↔
      f.resultWithin? limit = none ∧ f.result? = some (.value value) := by
  unfold Fetch.late?
  split <;> simp_all

/-- Only the query that comes to another stage may bring something else. -/
theorem brings_set {S' : System} {i : Nat} {r : Race} {stage stage' : Stage}
    (hrace : S.races[i]? = some (r, stage)) (hraces : S'.races = S.races.set i (r, stage'))
    (j : Nat) (l : Late) :
    S'.Brings j l ↔ if j = i then Brings (r, stage') l else S.Brings j l := by
  have hlt := (List.getElem?_eq_some_iff.1 hrace).1
  unfold System.Brings
  rw [hraces]
  split
  · rename_i hji
    subst hji
    simp [List.getElem?_set_self hlt]
  · rename_i hji
    rw [List.getElem?_set_ne (Ne.symm hji)]

/-- Who was told before is told the same. -/
theorem prompt_set {S' : System} {i : Nat} {r : Race} {stage stage' : Stage}
    (hrace : S.races[i]? = some (r, stage)) (hraces : S'.races = S.races.set i (r, stage'))
    (h : ∀ (j : Nat) (q : Race) (st : Stage), S.races[j]? = some (q, st) → st.Prompt q)
    (hprompt : stage'.Prompt r) (j : Nat) (q : Race) (st : Stage)
    (hj : S'.races[j]? = some (q, st)) : st.Prompt q := by
  rw [hraces] at hj
  obtain ⟨-, rfl, rfl⟩ | ⟨-, hj⟩ := race_of_set hrace hj
  · exact hprompt
  · exact h j q st hj

/-- It depends only on what the queries bring. -/
theorem System.Sends.congr {S S' : System} {late : List Late} (h : S.Sends late)
    (hsame : ∀ i l, S'.Brings i l ↔ S.Brings i l) : S'.Sends late := by
  obtain ⟨order, hnodup, hall, hevery⟩ := h
  exact ⟨order, hnodup, hall.imp fun i l => (hsame i l).2,
    fun i l hi => hevery i l ((hsame i l).1 hi)⟩

/-- What the engine shows does not depend on what becomes of a query, as long as it brings the
same late value. -/
theorem Shows.set {S' : System} {s' : State} (h : Shows id S s) {i : Nat} {r : Race}
    {stage stage' : Stage} (hrace : S.races[i]? = some (r, stage))
    (hraces : S'.races = S.races.set i (r, stage'))
    (hbrings : ∀ l, Brings (r, stage') l ↔ Brings (r, stage) l)
    (hprompt : stage'.Prompt r)
    (hclock : S'.clock = S.clock) (hclock' : s'.clock = s.clock) (hlate : s'.late = s.late)
    (hsize : s'.caches.size = s.caches.size)
    (hcache : ∀ key, S'.cache.get? key = (s'.cache id).get? key) : Shows id S' s' where
  exists_cache := hsize ▸ h.exists_cache
  clock := by rw [hclock, hclock', h.clock]
  cache := hcache
  sorted := hlate ▸ h.sorted
  ahead := by rw [hlate, hclock']; exact h.ahead
  sends := by
    rw [hlate]
    refine h.sends.congr fun j l => ?_
    rw [brings_set hrace hraces]
    split
    · rename_i hji
      subst hji
      rw [hbrings]
      refine ⟨fun hl => ⟨_, hrace, hl⟩, fun ⟨p, hp, hl⟩ => ?_⟩
      exact Option.some.inj (hrace.symm.trans hp) ▸ hl
    · rfl
  prompt := prompt_set hrace hraces h.prompt hprompt

/-- Queries stay what they are when one of them comes to another stage. -/
theorem map_fst_set {S' : System} {i : Nat} {r : Race} {stage stage' : Stage}
    (hrace : S.races[i]? = some (r, stage)) (hraces : S'.races = S.races.set i (r, stage')) :
    S'.races.map Prod.fst = S.races.map Prod.fst := by
  have hkept : (S.races.map Prod.fst)[i]? = some r := by simp [hrace]
  obtain ⟨hlt, hkept⟩ := List.getElem?_eq_some_iff.1 hkept
  have hset := List.set_getElem_self hlt
  rw [hkept] at hset
  rw [hraces, List.map_set, hset]

/-- One that is waited for no longer is not waited for anew. -/
theorem Follows.set {i : Nat} {r : Race} {stage stage' : Stage}
    (hrace : S.races[i]? = some (r, stage)) (hraces : ∀ since, stage' ≠ .racing since) {S' : System}
    (hS' : S'.races = S.races.set i (r, stage')) : Follows S S' where
  races := map_fst_set hrace hS'
  racing j q since hj := by
    rw [hS'] at hj
    obtain ⟨-, -, hstage⟩ | ⟨-, hj⟩ := race_of_set hrace hj
    · exact absurd hstage (hraces since)
    · exact hj

/-- A step leaves the queries that were asked for before what they are. -/
theorem Step.map_fst_prefix {act : Act} {S' : System} (h : Step S act S') :
    S.races.map Prod.fst <+: S'.races.map Prod.fst := by
  cases h with
  | ask => exact ⟨_, (List.map_append ..).symm⟩
  | take hrace | miss hrace | start hrace | finish hrace | expire hrace | land hrace =>
    exact ⟨[], by rw [List.append_nil]; exact (map_fst_set hrace rfl).symm⟩
  | put | elapse => exact List.prefix_rfl

/-- When a run goes on, the queries that were asked for before are what they were. -/
theorem Runs.map_fst_prefix {more : List Act} {S' : System} (h : Runs acts S)
    (h' : Runs (acts ++ more) S') : S.races.map Prod.fst <+: S'.races.map Prod.fst := by
  induction more using List.reverseRecOn generalizing S' with
  | nil =>
    rw [List.append_nil] at h'
    exact h.unique h' ▸ List.prefix_rfl
  | append_singleton more act ih =>
    rw [← List.append_assoc] at h'
    generalize hacts : acts ++ more ++ [act] = all at h'
    cases h' with
    | nil => simp at hacts
    | snoc hrun hstep =>
      obtain ⟨rfl, hact⟩ := List.append_inj' hacts rfl
      cases hact
      exact (ih hrun).trans hstep.map_fst_prefix

/-! ## Telling -/

/-- A query whose time is over comes to an end, or goes on alone. -/
theorem exists_told (hrun : Runs acts S) (hshows : Shows id S s) {i : Nat} {r : Race}
    {since : Nat} (hrace : S.races[i]? = some (r, .racing since))
    (hover : since + r.fetch.wait r.limit ≤ S.clock) :
    ∃ act stage, (∀ t, stage ≠ .racing t) ∧ Runs (acts ++ [act]) (S.set i r stage) ∧
      Shows id (S.set i r stage) s := by
  cases hwithin : r.fetch.resultWithin? r.limit with
  | none =>
    have hwait : r.fetch.wait r.limit = r.limit := by simp [Fetch.wait, hwithin]
    refine ⟨_, .late since, fun t ht => (by cases ht),
      hrun.snoc (.expire hrace (by omega)), ?_⟩
    exact hshows.set hrace rfl (fun l => Iff.rfl) hwithin rfl rfl rfl rfl hshows.cache
  | some result =>
    have hwait : r.fetch.wait r.limit = r.fetch.plan.sleep := by simp [Fetch.wait, hwithin]
    have hresult : r.fetch.result? = some result := by
      unfold Fetch.resultWithin? at hwithin
      split at hwithin
      · exact hwithin
      · cases hwithin
    refine ⟨_, .answered result, fun t ht => (by cases ht),
      hrun.snoc (.finish hrace (by omega) hresult), ?_⟩
    refine hshows.set hrace rfl (fun l => ?_) hwithin rfl rfl rfl rfl hshows.cache
    simp [Brings, late?_eq_some, hwithin]

/-- Everyone can be told whose time is over. -/
theorem exists_calm (hrun : Runs acts S) (hshows : Shows id S s) :
    ∃ more S', Runs (acts ++ more) S' ∧ Shows id S' s ∧ Calm S' ∧ Follows S S' ∧
      S'.clock = S.clock := by
  -- one query after the other, in the order of their numbers
  have hbelow (n : Nat) : ∃ more S', Runs (acts ++ more) S' ∧ Shows id S' s ∧ Follows S S' ∧
      S'.clock = S.clock ∧ ∀ i < n, ∀ (r : Race) (since : Nat),
        S'.races[i]? = some (r, .racing since) → S'.clock < since + r.fetch.wait r.limit := by
    induction n with
    | zero => exact ⟨[], S, by simpa using hrun, hshows, .refl S, rfl, fun i hi => by omega⟩
    | succ n ih =>
      obtain ⟨more, S', hrun', hshows', hfollows, hclock, hcalm⟩ := ih
      by_cases hdue : ∃ (r : Race) (since : Nat), S'.races[n]? = some (r, .racing since) ∧
          since + r.fetch.wait r.limit ≤ S'.clock
      · obtain ⟨r, since, hrace, hover⟩ := hdue
        obtain ⟨act, stage, hstage, hrun'', hshows''⟩ := exists_told hrun' hshows' hrace hover
        have hset : Follows S' (S'.set n r stage) := .set hrace hstage rfl
        refine ⟨more ++ [act], S'.set n r stage, by rwa [← List.append_assoc], hshows'',
          hfollows.trans hset, hclock, fun i hi q t hi' => ?_⟩
        have hold := hset.racing i q t hi'
        rcases Nat.lt_succ_iff_lt_or_eq.1 hi with hlt | rfl
        · exact hcalm i hlt q t hold
        · obtain ⟨-, -, htold⟩ | ⟨hne, -⟩ := race_of_set hrace hi'
          · exact absurd htold (hstage t)
          · exact absurd rfl hne
      · refine ⟨more, S', hrun', hshows', hfollows, hclock, fun i hi q t hi' => ?_⟩
        rcases Nat.lt_succ_iff_lt_or_eq.1 hi with hlt | rfl
        · exact hcalm i hlt q t hi'
        · exact Nat.not_le.1 fun hle => hdue ⟨q, t, hi', hle⟩
  obtain ⟨more, S', hrun', hshows', hfollows, hclock, hcalm⟩ := hbelow S.races.length
  refine ⟨more, S', hrun', hshows', fun i r since hi => ?_, hfollows, hclock⟩
  have hlength : S'.races.length = S.races.length := by
    simpa using congrArg List.length hfollows.races
  exact hcalm i (hlength ▸ (List.getElem?_eq_some_iff.1 hi).1) r since hi

/-- A cache that was changed is found changed. -/
theorem cache_modifyCache (h : id.index < s.caches.size) (f : Cache → Cache) :
    (s.modifyCache id f).cache id = f (s.cache id) := by
  simp [State.modifyCache, State.cache, h, Array.getElem_modify]

private theorem cache_modifyCache_of_ne {other : CacheId} (h : other ≠ id) (f : Cache → Cache) :
    (s.modifyCache other f).cache id = s.cache id := by
  have hne : other.index ≠ id.index := fun he => h (by cases other; cases id; simpa using he)
  simp [State.modifyCache, State.cache, Array.getElem?_modify, hne]

/-- A late value on its way to another cache is none of this one's. -/
theorem Shows.arrive_other (h : Shows id S s) {l : Late} {rest : List Late}
    (hlate : s.late = l :: rest) (hcache : l.cache ≠ id) :
    Shows id S { s.arrive l with late := rest } where
  exists_cache := by simpa [State.arrive, State.modifyCache] using h.exists_cache
  clock := h.clock
  cache key := (h.cache key).trans
    (congrArg (·.get? key) (cache_modifyCache_of_ne (s := s) hcache _).symm)
  sorted := (List.pairwise_cons.1 (hlate ▸ h.sorted)).2
  ahead m hm := h.ahead m (by rw [hlate]; exact List.mem_cons_of_mem l hm)
  sends := by
    have hsends := h.sends
    rwa [hlate, List.filter_cons_of_neg (by simpa using hcache)] at hsends
  prompt := h.prompt

/-- The next late value can be put into the cache when its moment has come. -/
theorem exists_landed (hrun : Runs acts S) (hshows : Shows id S s) (hcalm : Calm S) {l : Late}
    {rest : List Late} (hlate : s.late = l :: rest) (hdue : l.due ≤ s.clock)
    (hcache : l.cache = id) :
    ∃ act S', Runs (acts ++ [act]) S' ∧ Shows id S' { s.arrive l with late := rest } ∧ Calm S' ∧
      Follows S S' ∧ S'.clock = S.clock := by
  obtain ⟨order, hnodup, hall, hevery⟩ := hshows.sends
  rw [hlate, List.filter_cons_of_pos (by simpa using hcache)] at hall
  cases hall with
  | @cons i _ order _ hi hall =>
  obtain ⟨⟨r, stage⟩, hrace, hbrings⟩ := hi
  obtain ⟨hni, hnodup⟩ := List.nodup_cons.1 hnodup
  have hclock := hshows.clock
  cases stage with
  | waiting | taken | missed | answered | landed => exact hbrings.elim
  | racing since =>
    -- the one who waits for it would have been told before
    obtain ⟨hvalue, -, hmoment⟩ := hbrings
    have hwait := wait_le_sleep (late?_eq_some.1 hvalue).2 r.limit
    have hlater := hcalm i r since hrace
    omega
  | late since =>
    obtain ⟨hvalue, hkey, hmoment⟩ := hbrings
    have hresult := (late?_eq_some.1 hvalue).2
    have hfollows : Follows S
        { S.set i r (.landed l.value) with cache := S.cache.insert r.key l.value } :=
      .set hrace (fun _ h => by cases h) rfl
    have hset (j : Nat) (m : Late) :
        System.Brings { S.set i r (.landed l.value) with
            cache := S.cache.insert r.key l.value } j m ↔
          if j = i then Brings (r, .landed l.value) m else S.Brings j m :=
      brings_set hrace rfl j m
    refine ⟨_, _, hrun.snoc (.land hrace (by omega) hresult), ?_,
      fun j q t hj => hcalm j q t (hfollows.racing j q t hj), hfollows, rfl⟩
    constructor
    · simpa [State.arrive, State.modifyCache] using hshows.exists_cache
    · exact hclock
    · intro key
      have harrive : ({ s.arrive l with late := rest } : State).cache id =
          (s.cache id).insert l.key l.value := by
        rw [← hcache]
        exact cache_modifyCache (s := s) (hcache ▸ hshows.exists_cache) _
      rw [harrive, Cache.get?_insert, Cache.get?_insert, hkey, hshows.cache]
    · exact (List.pairwise_cons.1 (hlate ▸ hshows.sorted)).2
    · exact fun m hm => hshows.ahead m (by rw [hlate]; exact List.mem_cons_of_mem l hm)
    · refine ⟨order, hnodup, ?_, fun j m hj => ?_⟩
      · have hothers := (List.forall₂_and_left (p := (· ≠ i)) _ _).2
          ⟨fun j hj he => hni (he ▸ hj), hall⟩
        exact hothers.imp fun j m hj => (hset j m).2 (by rw [if_neg hj.1]; exact hj.2)
      · have hj' := (hset j m).1 hj
        split at hj'
        · exact absurd hj' (by simp [Brings])
        · rename_i hji
          exact (List.mem_cons.1 (hevery j m hj')).resolve_left hji
    · exact prompt_set hrace rfl hshows.prompt (hshows.prompt i r (.late since) hrace)

/-- Everything that is due at the moment can happen. -/
theorem exists_arrived (hrun : Runs acts S) (hshows : Shows id S s) (hcalm : Calm S) :
    ∃ more S', Runs (acts ++ more) S' ∧ Shows id S' (s.advanceTo s.clock true) ∧ Calm S' ∧
      Follows S S' ∧ S'.clock = S.clock ∧
      ∀ l ∈ (s.advanceTo s.clock true).late, s.clock < l.due := by
  induction hlate : s.late generalizing acts S s with
  | nil =>
    have hsame : s.advanceTo s.clock true = s := State.advanceTo_of_not_due (by simp [hlate])
    rw [hsame]
    exact ⟨[], S, by simpa using hrun, hshows, hcalm, .refl S, rfl, by simp [hlate]⟩
  | cons l rest ih =>
    by_cases hdue : l.due ≤ s.clock
    · have hhead : l.isDue s.clock true = true := by
        simp only [Late.isDue, Bool.true_and, Bool.or_eq_true, decide_eq_true_eq]
        omega
      rw [State.advanceTo_of_due hlate hhead]
      by_cases hcache : l.cache = id
      · obtain ⟨act, S₁, hrun₁, hshows₁, hcalm₁, hfollows₁, hclock₁⟩ :=
          exists_landed hrun hshows hcalm hlate hdue hcache
        obtain ⟨more, S', hrun', hshows', hcalm', hfollows', hclock', hlater⟩ :=
          ih hrun₁ hshows₁ hcalm₁ rfl
        exact ⟨act :: more, S', by simpa using hrun', hshows', hcalm', hfollows₁.trans hfollows',
          hclock'.trans hclock₁, hlater⟩
      · exact ih hrun (hshows.arrive_other hlate hcache) hcalm rfl
    · have hsame : s.advanceTo s.clock true = s := by
        refine State.advanceTo_of_not_due fun m hm => ?_
        obtain rfl : l = m := by simpa [hlate] using hm
        simp only [Late.isDue, Bool.true_and, Bool.or_eq_false_iff, decide_eq_false_iff_not]
        omega
      rw [hsame]
      refine ⟨[], S, by simpa using hrun, hshows, hcalm, .refl S, rfl, fun m hm => ?_⟩
      have hsorted := List.pairwise_cons.1 (hlate ▸ hshows.sorted)
      rw [hlate] at hm
      rcases List.mem_cons.1 hm with rfl | hm
      · omega
      · have hle := hsorted.1 m hm
        omega

/-- A query that goes on alone and will have a value is on its way in the engine. -/
theorem Shows.exists_late (h : Shows id S s) {i : Nat} {r : Race} {since : Nat} {value : Json}
    (hrace : S.races[i]? = some (r, .late since))
    (hresult : r.fetch.result? = some (.value value)) :
    ∃ l ∈ s.late, l.due = since + r.fetch.plan.sleep := by
  obtain ⟨order, -, hall, hevery⟩ := h.sends
  have hvalue := late?_eq_some.2 ⟨h.prompt i r (.late since) hrace, hresult⟩
  have hmem := hevery i ⟨since + r.fetch.plan.sleep, id, r.key, value⟩
    ⟨_, hrace, hvalue, rfl, rfl⟩
  obtain ⟨l, hl, p, hp, hbrings⟩ := exists_of_mem_order hall hmem
  obtain rfl := Option.some.inj (hrace.symm.trans hp)
  exact ⟨l, (List.mem_filter.1 hl).1, hbrings.2.2⟩

/-- Time can pass when nothing has to happen at the moment. -/
theorem exists_ticked (hrun : Runs acts S) (hshows : Shows id S s) (hcalm : Calm S)
    (hlater : ∀ l ∈ s.late, s.clock < l.due) :
    ∃ act S', Runs (acts ++ [act]) S' ∧ Shows id S' { s with clock := s.clock + 1 } ∧
      Follows S S' ∧ S'.clock = S.clock + 1 := by
  have hclock := hshows.clock
  refine ⟨_, _, hrun.snoc (@Step.elapse S 1 fun p hp d hd => ?_), ?_, ⟨rfl, fun _ _ _ h => h⟩,
    rfl⟩
  · obtain ⟨i, hi⟩ := List.mem_iff_getElem?.1 hp
    obtain ⟨r, stage⟩ := p
    cases stage with
    | waiting | taken | missed | answered | landed => cases hd
    | racing since =>
      obtain rfl : since + r.fetch.wait r.limit = d := by simpa [Race.due?] using hd
      exact hcalm i r since hi
    | late since =>
      simp only [Race.due?] at hd
      split at hd
      · rename_i value hresult
        obtain rfl : since + r.fetch.plan.sleep = d := by simpa using hd
        obtain ⟨l, hl, hmoment⟩ := hshows.exists_late hi hresult
        have hlt := hlater l hl
        omega
      · cases hd
  · exact ⟨hshows.exists_cache, congrArg (· + 1) hclock, hshows.cache, hshows.sorted, hlater,
      hshows.sends, hshows.prompt⟩

/-- Time that passes in the engine can pass for those at work, and everyone is told whose time is
over then. -/
theorem exists_advanced (hrun : Runs acts S) (hshows : Shows id S s) (ms : Nat) (through : Bool) :
    ∃ more S', Runs (acts ++ more) S' ∧ Shows id S' (s.advanceTo (s.clock + ms) through) ∧
      Calm S' ∧ Follows S S' ∧ S'.clock = S.clock + ms := by
  induction ms generalizing acts S s with
  | zero =>
    obtain ⟨more, S₁, hrun₁, hshows₁, hcalm₁, hfollows₁, hclock₁⟩ := exists_calm hrun hshows
    cases through with
    | true =>
      obtain ⟨more', S', hrun', hshows', hcalm', hfollows', hclock', -⟩ :=
        exists_arrived hrun₁ hshows₁ hcalm₁
      exact ⟨more ++ more', S', by rwa [← List.append_assoc], hshows', hcalm',
        hfollows₁.trans hfollows', hclock'.trans hclock₁⟩
    | false =>
      have hsame : s.advanceTo (s.clock + 0) false = s := by
        refine State.advanceTo_of_not_due fun l hl => ?_
        have hle := hshows.ahead l (List.mem_of_mem_head? hl)
        simp only [Late.isDue, Bool.false_and, Bool.or_false, decide_eq_false_iff_not]
        omega
      rw [hsame]
      exact ⟨more, S₁, hrun₁, hshows₁, hcalm₁, hfollows₁, hclock₁⟩
  | succ ms ih =>
    obtain ⟨more₁, S₁, hrun₁, hshows₁, hcalm₁, hfollows₁, hclock₁⟩ := exists_calm hrun hshows
    obtain ⟨more₂, S₂, hrun₂, hshows₂, hcalm₂, hfollows₂, hclock₂, hlater⟩ :=
      exists_arrived hrun₁ hshows₁ hcalm₁
    obtain ⟨act, S₃, hrun₃, hshows₃, hfollows₃, hclock₃⟩ :=
      exists_ticked hrun₂ hshows₂ hcalm₂ hlater
    have hpast : ({ s.advanceTo s.clock true with clock := s.clock + 1 } : State) =
        s.advanceTo (s.clock + 1) false := (State.advanceTo_succ s s.clock).symm
    have hnext : ({ s.advanceTo s.clock true with
        clock := (s.advanceTo s.clock true).clock + 1 } : State) =
        s.advanceTo (s.clock + 1) false := hpast
    rw [hnext] at hshows₃
    obtain ⟨more₄, S', hrun', hshows', hcalm', hfollows', hclock'⟩ := ih hrun₃ hshows₃
    have hspan : (s.advanceTo (s.clock + 1) false).advanceTo
        ((s.advanceTo (s.clock + 1) false).clock + ms) through =
        s.advanceTo (s.clock + (ms + 1)) through := by
      have hmoment : s.clock + (ms + 1) = s.clock + 1 + ms := by omega
      rw [hmoment]
      exact State.advanceTo_advanceTo s (Nat.le_add_right _ _) through
    rw [hspan] at hshows'
    refine ⟨more₁ ++ more₂ ++ act :: more₄, S', by simpa using hrun', hshows', hcalm',
      ((hfollows₁.trans hfollows₂).trans hfollows₃).trans hfollows', ?_⟩
    omega

/-- With a new cache, nobody has asked yet. -/
theorem exists_opened (hcache : id.index < s.caches.size)
    (hempty : ∀ key, (s.cache id).get? key = none) (hlate : ∀ l ∈ s.late, l.cache ≠ id)
    (hsorted : s.late.Pairwise fun l m => l.due ≤ m.due) (hahead : ∀ l ∈ s.late, s.clock ≤ l.due) :
    ∃ acts S, Runs acts S ∧ Shows id S s ∧ S.races = [] := by
  refine ⟨_, _, Runs.nil.snoc (@Step.elapse _ s.clock fun p hp => by cases hp), ?_, rfl⟩
  have hnone : s.late.filter (·.cache = id) = [] := by
    rw [List.filter_eq_nil_iff]
    intro l hl
    simpa using hlate l hl
  refine ⟨hcache, Nat.zero_add _, fun key => ?_, hsorted, hahead, ?_, fun i r stage hi => ?_⟩
  · rw [hempty]
    simp [Cache.get?]
  · rw [hnone]
    refine ⟨[], List.nodup_nil, .nil, fun i l h => ?_⟩
    obtain ⟨p, hp, -⟩ := h
    simp at hp
  · simp at hi

/-- Someone else puts a value into the cache. -/
theorem exists_put (hrun : Runs acts S) (hshows : Shows id S s) (key : String) (value : Json) :
    ∃ S', Runs (acts ++ [.put key value]) S' ∧
      Shows id S' (s.modifyCache id (·.insert key value)) := by
  refine ⟨_, hrun.snoc (.put key value), ?_⟩
  constructor
  · simpa [State.modifyCache] using hshows.exists_cache
  · exact hshows.clock
  · intro k
    rw [cache_modifyCache hshows.exists_cache, Cache.get?_insert, Cache.get?_insert, hshows.cache]
  · exact hshows.sorted
  · exact hshows.ahead
  · exact hshows.sends
  · exact hshows.prompt

end Rivulet.Racing
