import Mathlib.Data.List.Nodup
import Rivulet.Proofs.Racing.Accounting

/-!
# Late results are conserved

No value gets lost and none is used twice, in whatever order renders and streams do their work.
What comes in time goes to the one who asked and nowhere else. What comes late goes to the cache,
once, and from there to one stream at most, which then starts no fetch.

A value in the cache is the one that was put there last, and has not been taken since. So whoever
takes a value is handed the one that was put there last before, and nobody is handed it again:
between a value and the one who takes it, no other value is put under its key, and none is taken.
-/

namespace Rivulet.Query.Cache

/-- A value is found under its key, and others stay. -/
theorem get?_insert (c : Cache) (key k : String) (value : Json) :
    (c.insert key value).get? k = if key = k then some value else c.get? k := by
  simp [insert, get?, Std.HashMap.getElem?_insert]

/-- Only the value of the key is gone. -/
theorem get?_take_eq (c : Cache) (key k : String) :
    (c.take key).2.get? k = if key = k then none else c.get? k := by
  simp [take, get?, Std.HashMap.getElem?_erase]

end Rivulet.Query.Cache

namespace Rivulet.Racing

open Query

variable {acts : List Act} {act : Act}

section Handing

/-- What a step puts into the cache. -/
def Act.put? : Act → Option (String × Json)
  | land _ key value | put key value => some (key, value)
  | _ => none

/-- A step that puts a value under a key or takes the one that is there. -/
def Act.Touches (key : String) : Act → Prop
  | take _ _ k _ | land _ k _ | put k _ => k = key
  | _ => False

/-- Nothing has touched a key since a value was put there. -/
def Waits (acts : List Act) (p : Nat) (key : String) (value : Json) : Prop :=
  (∃ act, acts[p]? = some act ∧ act.put? = some (key, value)) ∧
    ∀ m act, p < m → acts[m]? = some act → ¬ act.Touches key

/-- The value that one step puts into the cache is taken by another one: between them, nothing
touches its key. -/
def Hands (acts : List Act) (p q : Nat) : Prop :=
  ∃ i owner key value,
    (∃ act, acts[p]? = some act ∧ act.put? = some (key, value)) ∧
    acts[q]? = some (.take i owner key value) ∧ p < q ∧
    ∀ m act, p < m → m < q → acts[m]? = some act → ¬ act.Touches key

/-- A value is handed to one at most. -/
theorem Hands.unique {acts : List Act} {p q q' : Nat} (h : Hands acts p q)
    (h' : Hands acts p q') : q = q' := by
  obtain ⟨i, owner, key, value, ⟨act, hput, hval⟩, hq, hpq, hquiet⟩ := h
  obtain ⟨i', owner', key', value', ⟨act', hput', hval'⟩, hq', hpq', hquiet'⟩ := h'
  obtain rfl := Option.some.inj (hput.symm.trans hput')
  obtain ⟨rfl, rfl⟩ := Prod.mk.inj (Option.some.inj (hval.symm.trans hval'))
  -- the earlier of the two would touch the key in front of the later one
  rcases Nat.lt_trichotomy q q' with hlt | heq | hgt
  · exact absurd rfl (hquiet' q _ hpq hlt hq)
  · exact heq
  · exact absurd rfl (hquiet q' _ hpq' hgt hq')

variable {p : Nat} {key : String} {value : Json}

/-- What was put there waits on, if the next step does not touch the key. -/
theorem Waits.snoc (h : Waits acts p key value) (hact : ¬ act.Touches key) :
    Waits (acts ++ [act]) p key value := by
  obtain ⟨⟨a, ha, hput⟩, hquiet⟩ := h
  have hlt := (List.getElem?_eq_some_iff.1 ha).1
  refine ⟨⟨a, by rw [List.getElem?_append_left hlt, ha], hput⟩, fun m b hm hb => ?_⟩
  rcases Nat.lt_or_ge m acts.length with hml | hml
  · exact hquiet m b hm (by rwa [List.getElem?_append_left hml] at hb)
  · rw [List.getElem?_append_right hml] at hb
    obtain rfl := List.mem_singleton.1 (List.mem_of_getElem? hb)
    exact hact

/-- A value that the last step has put there waits. -/
theorem Waits.last (hact : act.put? = some (key, value)) :
    Waits (acts ++ [act]) acts.length key value := by
  refine ⟨⟨act, by simp, hact⟩, fun m b hm hb => ?_⟩
  have hlt := (List.getElem?_eq_some_iff.1 hb).1
  rw [List.length_append, List.length_singleton] at hlt
  omega

/-- Every value in the cache waits there for someone. -/
def Stocked (acts : List Act) (s : System) : Prop :=
  ∀ key value, s.cache.get? key = some value → ∃ p, Waits acts p key value

/-- A step leaves the cache as it is, or it puts a value there or takes one. -/
theorem Step.cache_cases {s s' : System} (h : Step s act s') :
    (s'.cache = s.cache ∧ ∀ key, ¬ act.Touches key) ∨
      (∃ key value, act.put? = some (key, value) ∧ s'.cache = s.cache.insert key value ∧
        ∀ k, act.Touches k → k = key) ∨
      ∃ i owner key value, act = .take i owner key value ∧ s.cache.get? key = some value ∧
        s'.cache = (s.cache.take key).2 := by
  cases h with
  | ask | miss | start | finish | expire | elapse => exact .inl ⟨rfl, fun _ => id⟩
  | take hrace hkind hfound => exact .inr (.inr ⟨_, _, _, _, rfl, hfound, rfl⟩)
  | land | put => exact .inr (.inl ⟨_, _, rfl, rfl, fun k hk => hk.symm⟩)

theorem Stocked.step {s s' : System} (h : Stocked acts s) (hstep : Step s act s') :
    Stocked (acts ++ [act]) s' := by
  intro k v hk
  rcases hstep.cache_cases with ⟨hcache, hact⟩ | ⟨key, value, hput, hcache, honly⟩ |
    ⟨i, owner, key, value, rfl, -, hcache⟩
  · rw [hcache] at hk
    obtain ⟨p, hp⟩ := h k v hk
    exact ⟨p, hp.snoc (hact k)⟩
  · rw [hcache, Cache.get?_insert] at hk
    split at hk
    · rename_i heq
      subst heq
      obtain rfl := Option.some.inj hk
      exact ⟨acts.length, Waits.last hput⟩
    · rename_i hne
      obtain ⟨p, hp⟩ := h k v hk
      exact ⟨p, hp.snoc fun hact => hne (honly k hact).symm⟩
  · rw [hcache, Cache.get?_take_eq] at hk
    split at hk
    · cases hk
    · rename_i hne
      obtain ⟨p, hp⟩ := h k v hk
      exact ⟨p, hp.snoc fun hact => hne hact⟩

private theorem Runs.stocked {s : System} (h : Runs acts s) : Stocked acts s := by
  induction h with
  | nil => intro key value h; simp [Cache.get?] at h
  | snoc _ hstep ih => exact ih.step hstep

/-- What is handed on stays so when more happens. -/
theorem Hands.snoc {q : Nat} (h : Hands acts p q) (act : Act) : Hands (acts ++ [act]) p q := by
  obtain ⟨i, owner, key, value, ⟨a, ha, hput⟩, hq, hpq, hquiet⟩ := h
  have hp := (List.getElem?_eq_some_iff.1 ha).1
  have hlt := (List.getElem?_eq_some_iff.1 hq).1
  refine ⟨i, owner, key, value, ⟨a, ?_, hput⟩, ?_, hpq, fun m b hpm hmq hb => ?_⟩
  · rwa [List.getElem?_append_left hp]
  · rwa [List.getElem?_append_left hlt]
  · rw [List.getElem?_append_left (Nat.lt_trans hmq hlt)] at hb
    exact hquiet m b hpm hmq hb

/-- A value that waits is handed to the one who takes it next. -/
theorem Waits.hands (h : Waits acts p key value) (i owner : Nat) :
    Hands (acts ++ [.take i owner key value]) p acts.length := by
  obtain ⟨⟨a, ha, hput⟩, hquiet⟩ := h
  have hp := (List.getElem?_eq_some_iff.1 ha).1
  refine ⟨i, owner, key, value, ⟨a, ?_, hput⟩, ?_, hp, fun m b hpm hmq hb => ?_⟩
  · rwa [List.getElem?_append_left hp]
  · exact List.getElem?_concat_length
  · rw [List.getElem?_append_left hmq] at hb
    exact hquiet m b hpm hb

/-- Who takes a value is handed one that was put there before. -/
theorem Runs.exists_hands {s : System} (h : Runs acts s) {q i owner : Nat}
    (hq : acts[q]? = some (.take i owner key value)) : ∃ p, Hands acts p q := by
  induction h with
  | nil => simp at hq
  | @snoc acts s s' act hrun hstep ih =>
    rcases Nat.lt_or_ge q acts.length with hlt | hge
    · rw [List.getElem?_append_left hlt] at hq
      obtain ⟨p, hp⟩ := ih hq
      exact ⟨p, hp.snoc act⟩
    · have hle := (List.getElem?_eq_some_iff.1 hq).1
      rw [List.length_append, List.length_singleton] at hle
      obtain rfl : q = acts.length := by omega
      rw [List.getElem?_concat_length] at hq
      obtain rfl := Option.some.inj hq
      rcases hstep.cache_cases with ⟨-, hact⟩ | ⟨_, _, hput, -⟩ | ⟨_, _, _, _, heq, hfound, -⟩
      · exact absurd rfl (hact key)
      · cases hput
      · cases heq
        obtain ⟨p, hp⟩ := hrun.stocked _ _ hfound
        exact ⟨p, hp.hands i owner⟩

end Handing

/-- No two queries are of one owner and one key. -/
structure Separate (s : System) : Prop where
  /-- Owners and keys together tell queries apart. -/
  nodup : (s.races.map fun p => (p.1.owner, p.1.key)).Nodup
  /-- Owners are counted. -/
  owners : ∀ p ∈ s.races, p.1.owner < s.owners

/-- The stages of queries do not matter. -/
theorem Separate.congr {s s' : System} (h : Separate s) {i : Nat} {r : Race} {stage stage' : Stage}
    (hrace : s.races[i]? = some (r, stage)) (hraces : s'.races = s.races.set i (r, stage'))
    (howners : s'.owners = s.owners) : Separate s' where
  nodup := by
    have hkept : (s.races.map fun p => (p.1.owner, p.1.key))[i]? = some (r.owner, r.key) := by
      simp [hrace]
    obtain ⟨hlt, hkept⟩ := List.getElem?_eq_some_iff.1 hkept
    have hset := List.set_getElem_self hlt
    rw [hkept] at hset
    rw [hraces, List.map_set, hset]
    exact h.nodup
  owners p hp := by
    rw [hraces] at hp
    rw [howners]
    rcases List.mem_or_eq_of_mem_set hp with hp | rfl
    · exact h.owners p hp
    · exact h.owners (r, stage) (List.mem_of_getElem? hrace)

theorem Separate.step {s s' : System} (h : Separate s) (hstep : Step s act s') : Separate s' := by
  cases hstep with
  | @ask kind limit hlimit queries hkeys =>
    have hnew : ∀ p ∈ asked s.owners kind limit queries, p.1.owner = s.owners := by
      intro p hp
      obtain ⟨q, -, rfl⟩ := List.mem_map.1 hp
      rfl
    constructor
    · have hpairs : ((asked s.owners kind limit queries).map fun p => (p.1.owner, p.1.key)) =
          (queries.map Prod.fst).map (s.owners, ·) := by
        simp [asked]
      rw [List.map_append, List.nodup_append', hpairs]
      refine ⟨h.nodup, hkeys.map fun a b he => (Prod.mk.inj he).2, ?_⟩
      intro x hold hx
      obtain ⟨p, hp, rfl⟩ := List.mem_map.1 hold
      obtain ⟨k, -, he⟩ := List.mem_map.1 hx
      have hlt := h.owners p hp
      have heq := (Prod.mk.inj he).1
      omega
    · intro p hp
      rcases List.mem_append.1 hp with hp | hp
      · exact Nat.lt_succ_of_lt (h.owners p hp)
      · rw [hnew p hp]
        exact Nat.lt_succ_self _
  | take hrace | miss hrace | start hrace | finish hrace | expire hrace | land hrace =>
    exact h.congr hrace rfl rfl
  | put | elapse => exact ⟨h.nodup, h.owners⟩

private theorem Runs.separate {s : System} (h : Runs acts s) : Separate s := by
  induction h with
  | nil => exact ⟨List.nodup_nil, fun p hp => by cases hp⟩
  | snoc _ hstep ih => exact ih.step hstep

/-- An owner and a key make out a query. -/
theorem Separate.eq_of_key {s : System} (h : Separate s) {i j : Nat} {q r : Race}
    {stage stage' : Stage} (hi : s.races[i]? = some (q, stage))
    (hj : s.races[j]? = some (r, stage')) (howner : q.owner = r.owner) (hkey : q.key = r.key) :
    i = j := by
  have hlt : i < (s.races.map fun p => (p.1.owner, p.1.key)).length := by
    simpa using (List.getElem?_eq_some_iff.1 hi).1
  refine (List.getElem?_inj hlt h.nodup).1 ?_
  simp [hi, hj, howner, hkey]

/-! ## Renders and the cache -/

/-- A step that a render makes, or that is made for it while it waits. -/
def Act.OfRender (s : System) : Act → Prop
  | ask kind .. => kind = .render
  | take i .. | miss i | start i | tell i .. => ∃ r stage, s.races[i]? = some (r, stage) ∧
      r.kind = .render
  | _ => False

/-- A render changes nothing in the cache, and whatever the cache is, it does the same. -/
theorem Step.blind {s s' : System} (hstep : Step s act s') (h : act.OfRender s) :
    s'.cache = s.cache ∧ ∀ c : Cache, Step { s with cache := c } act { s' with cache := c } := by
  cases hstep with
  | ask kind hlimit hkeys => exact ⟨rfl, fun c => .ask kind hlimit hkeys⟩
  | take hrace hkind | miss hrace hkind =>
    obtain ⟨r, stage, hr, hrender⟩ := h
    obtain ⟨rfl, -⟩ := Prod.mk.inj (Option.some.inj (hrace.symm.trans hr))
    rw [hkind] at hrender
    cases hrender
  | start hrace => exact ⟨rfl, fun c => .start (s := { s with cache := c }) hrace⟩
  | finish hrace hend hresult =>
    exact ⟨rfl, fun c => .finish (s := { s with cache := c }) hrace hend hresult⟩
  | expire hrace hover => exact ⟨rfl, fun c => .expire (s := { s with cache := c }) hrace hover⟩
  | land | put | elapse => exact absurd h id

/-- What is conserved when renders and streams have done some steps. -/
structure Conserved (acts : List Act) (s : System) : Prop where
  /-- A fetch that succeeds in time: its value goes to the one who asked, to nobody else and not
  into the cache. As long as nobody was told, the moment has not passed. -/
  inTime {i : Nat} {r : Race} {stage : Stage} {value : Json}
    (hrace : s.races[i]? = some (r, stage)) (hstarted : .start i ∈ acts)
    (hresult : r.fetch.result? = some (.value value)) (htime : r.fetch.plan.sleep < r.limit) :
    landings acts i = [] ∧
      ((∃ since, stage = .racing since ∧ s.clock ≤ since + r.fetch.plan.sleep ∧
          ∀ owner, answers acts i owner = []) ∨
        ∀ owner, answers acts i owner = if owner = r.owner then [.resolved value] else [])
  /-- A fetch that succeeds late: nobody is told its value, and it is put into the cache once. As
  long as it was not, the moment has not passed. -/
  late {i : Nat} {r : Race} {stage : Stage} {value : Json}
    (hrace : s.races[i]? = some (r, stage)) (hstarted : .start i ∈ acts)
    (hresult : r.fetch.result? = some (.value value)) (htime : r.limit < r.fetch.plan.sleep) :
    (∀ owner v, .resolved v ∉ answers acts i owner) ∧
      ((∃ since, (stage = .racing since ∨ stage = .late since) ∧
          s.clock ≤ since + r.fetch.plan.sleep ∧ landings acts i = []) ∨
        landings acts i = [(r.key, value)])
  /-- A fetch that does not succeed: nobody is told a value, and none is put into the cache. -/
  failed {i : Nat} {r : Race} {stage : Stage} (hrace : s.races[i]? = some (r, stage))
    (hstarted : .start i ∈ acts) (hresult : ∀ value, r.fetch.result? ≠ some (.value value)) :
    (∀ owner v, .resolved v ∉ answers acts i owner) ∧ landings acts i = []
  /-- Whatever a render does next, it neither reads nor changes the cache. -/
  blind {act : Act} {s' : System} (hstep : Step s act s') (hrender : act.OfRender s) :
    s'.cache = s.cache ∧ ∀ c : Cache, Step { s with cache := c } act { s' with cache := c }
  /-- A value that is taken was put into the cache before. -/
  handed {q i owner : Nat} {key : String} {value : Json}
    (htake : acts[q]? = some (.take i owner key value)) : ∃ p, Hands acts p q
  /-- A value that was put into the cache is taken once at most. -/
  once {p q q' : Nat} (h : Hands acts p q) (h' : Hands acts p q') : q = q'
  /-- Who takes a value takes it out of the cache. -/
  removed {i owner : Nat} {key : String} {value : Json} {s' : System}
    (hstep : Step s (.take i owner key value) s') : s'.cache.get? key = none
  /-- Who takes a value is a stream, and it starts no fetch for the key. -/
  spared {i owner : Nat} {key : String} {value : Json} (htake : .take i owner key value ∈ acts) :
    (∃ r, s.races[i]? = some (r, .taken value) ∧ r.kind = .stream ∧ r.owner = owner ∧
        r.key = key) ∧
      ∀ j r stage, s.races[j]? = some (r, stage) → r.owner = owner → r.key = key →
        .start j ∉ acts

variable {s : System} {i : Nat} {r : Race} {stage : Stage} {value : Json}

/-- A value that comes in time goes to the one who asked, and nowhere else. -/
theorem Runs.comes_in_time (h : Runs acts s) (hrace : s.races[i]? = some (r, stage))
    (hstarted : .start i ∈ acts) (hresult : r.fetch.result? = some (.value value))
    (htime : r.fetch.plan.sleep < r.limit) :
    landings acts i = [] ∧
      ((∃ since, stage = .racing since ∧ s.clock ≤ since + r.fetch.plan.sleep ∧
          ∀ owner, answers acts i owner = []) ∨
        ∀ owner, answers acts i owner = if owner = r.owner then [.resolved value] else []) := by
  have haccount := h.accounted.account i r stage hrace
  have hfits := haccount.fits
  have hbegun := haccount.started.1 hstarted
  have hwait := wait_le_sleep hresult r.limit
  cases stage with
  | waiting | taken | missed => exact absurd hbegun id
  | racing since =>
    refine ⟨haccount.landings, .inl ⟨since, rfl, ?_, fun owner => ?_⟩⟩
    · exact Nat.le_trans hfits (Nat.add_le_add_left hwait since)
    · simpa [Stage.verdicts] using haccount.answers owner
  | answered result =>
    obtain rfl := Option.some.inj (hfits.1.symm.trans hresult)
    exact ⟨haccount.landings, .inr haccount.answers⟩
  | late since => exact absurd (hfits.1 _ hresult) (Nat.not_le.2 htime)
  | landed => exact absurd hfits.2 (Nat.not_le.2 htime)

/-- A value that comes late goes to the cache, once, and to nobody. -/
theorem Runs.comes_late (h : Runs acts s) (hrace : s.races[i]? = some (r, stage))
    (hstarted : .start i ∈ acts) (hresult : r.fetch.result? = some (.value value))
    (htime : r.limit < r.fetch.plan.sleep) :
    (∀ owner v, .resolved v ∉ answers acts i owner) ∧
      ((∃ since, (stage = .racing since ∨ stage = .late since) ∧
          s.clock ≤ since + r.fetch.plan.sleep ∧ landings acts i = []) ∨
        landings acts i = [(r.key, value)]) := by
  have haccount := h.accounted.account i r stage hrace
  have hfits := haccount.fits
  have hbegun := haccount.started.1 hstarted
  have hwait := wait_le_sleep hresult r.limit
  cases stage with
  | waiting | taken | missed => exact absurd hbegun id
  | racing since =>
    refine ⟨fun owner v => ?_, .inl ⟨since, .inl rfl, ?_, haccount.landings⟩⟩
    · simp [haccount.answers, Stage.verdicts]
    · exact Nat.le_trans hfits (Nat.add_le_add_left hwait since)
  | answered result => exact absurd hfits.2 (Nat.not_le.2 htime)
  | late since =>
    refine ⟨fun owner v => ?_, .inl ⟨since, .inr rfl, hfits.2 _ hresult, haccount.landings⟩⟩
    simp [haccount.answers, Stage.verdicts]
  | landed v =>
    obtain ⟨hsame, -⟩ := hfits
    cases hresult.symm.trans hsame
    refine ⟨fun owner v => ?_, .inr haccount.landings⟩
    simp [haccount.answers, Stage.verdicts]

/-- Where there is no value, nobody is told one and none goes to the cache. -/
theorem Runs.comes_never (h : Runs acts s) (hrace : s.races[i]? = some (r, stage))
    (hstarted : .start i ∈ acts) (hresult : ∀ value, r.fetch.result? ≠ some (.value value)) :
    (∀ owner v, .resolved v ∉ answers acts i owner) ∧ landings acts i = [] := by
  have haccount := h.accounted.account i r stage hrace
  have hfits := haccount.fits
  have hbegun := haccount.started.1 hstarted
  cases stage with
  | waiting | taken | missed => exact absurd hbegun id
  | answered result =>
    refine ⟨fun owner v => ?_, haccount.landings⟩
    cases result with
    | value v => exact absurd hfits.1 (hresult v)
    | failure f => simp [haccount.answers, Stage.verdicts, Result.verdict]
    | panic message => simp [haccount.answers, Stage.verdicts, Result.verdict]
  | landed v => exact absurd hfits.1 (hresult v)
  | racing since | late since =>
    exact ⟨fun owner v => by simp [haccount.answers, Stage.verdicts], haccount.landings⟩

/-- Who takes a value starts no fetch for its key. -/
theorem Runs.spares (h : Runs acts s) {owner : Nat} {key : String}
    (htake : .take i owner key value ∈ acts) :
    (∃ r, s.races[i]? = some (r, .taken value) ∧ r.kind = .stream ∧ r.owner = owner ∧
        r.key = key) ∧
      ∀ j r stage, s.races[j]? = some (r, stage) → r.owner = owner → r.key = key →
        .start j ∉ acts := by
  have hknown : i < s.races.length := by
    by_contra hge
    exact (h.accounted.untouched i (Nat.not_lt.1 hge)).taken owner key value htake
  obtain ⟨⟨r, stage⟩, hrace⟩ : ∃ p, s.races[i]? = some p := ⟨_, List.getElem?_eq_getElem hknown⟩
  have haccount := h.accounted.account i r stage hrace
  obtain ⟨rfl, rfl, rfl⟩ := (haccount.taken owner key value).1 htake
  refine ⟨⟨r, hrace, haccount.fits, rfl, rfl⟩, fun j q stage hj howner hkey hstarted => ?_⟩
  obtain rfl := h.separate.eq_of_key hrace hj howner.symm hkey.symm
  exact haccount.started.1 hstarted

/-- All this holds in every run. -/
theorem Runs.conserved (h : Runs acts s) : Conserved acts s where
  inTime := h.comes_in_time
  late := h.comes_late
  failed := h.comes_never
  blind hstep hrender := hstep.blind hrender
  handed htake := h.exists_hands htake
  once h h' := h.unique h'
  removed {i owner key value s'} hstep := by
    cases hstep
    exact Cache.get?_take _ _
  spared := h.spares

/-- Late results are conserved in every run of renders and streams on one cache. -/
theorem late_results_conserved {acts : List Act} {s : System} (h : Runs acts s) :
    Conserved acts s :=
  h.conserved

/-- A fetch of twenty milliseconds that a render waits ten for: its value lands in the cache, and
the stream that asks next is handed it. -/
theorem late_results_conserved_handed :
    ∃ acts s, Runs acts s ∧ Conserved acts s ∧
      answers acts 0 0 = [.pending] ∧ landings acts 0 = [("user", .int 7)] ∧
      answers acts 1 1 = [.resolved (.int 7)] ∧ ∃ p, Hands acts p 7 := by
  let f : Fetch := ⟨⟨20, .value⟩, .int 7, .any⟩
  have hkeys : ([("user", f)].map Prod.fst).Nodup := by decide
  have hlimit : 0 < 10 := by decide
  have hrun := Runs.nil.snoc (.ask .render hlimit hkeys)
  have hrun := hrun.snoc (.start (i := 0) rfl)
  have hrun := hrun.snoc (@Step.elapse _ 10 (by
    simp [System.set, asked, Race.due?]
    decide))
  have hrun := hrun.snoc (.expire (i := 0) rfl (by decide))
  have hrun := hrun.snoc (@Step.elapse _ 10 (by
    simp [System.set, asked, Race.due?]
    decide))
  have hrun := hrun.snoc (@Step.land _ 0 _ _ (.int 7) rfl (by decide) rfl)
  have hrun := hrun.snoc (.ask .stream hlimit hkeys)
  have hrun := hrun.snoc (@Step.take _ 1 _ (.int 7) rfl rfl (by
    simp [Cache.take, Cache.get?, Cache.insert, asked, System.set]))
  have hall := late_results_conserved hrun
  exact ⟨_, _, hrun, hall, rfl, rfl, rfl, hall.handed rfl⟩

end Rivulet.Racing
