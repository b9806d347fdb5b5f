import Rivulet.Proofs.Racing.System

/-!
# What each query has come to

The stage of a query says all that a run has brought for it: what the one who asked was told, and
whether a value was put into the cache. A step is about one query at most and accounts for that
one; for all others, nothing changes but the time.
-/

namespace Rivulet.Racing

open Query

/-- What the one who asked has been told. -/
def Stage.verdicts : Stage → List Verdict
  | waiting | missed | racing _ => []
  | taken value => [.resolved value]
  | answered result => [result.verdict]
  | late _ | landed _ => [.pending]

/-- What has been put into the cache. -/
def Stage.landings (key : String) : Stage → List (String × Json)
  | landed value => [(key, value)]
  | _ => []

/-- The fetch was started. -/
def Stage.Started : Stage → Prop
  | waiting | taken _ | missed => False
  | _ => True

/-- What is known of a query at a moment: only streams take values, a fetch is waited for until
its time is over, and it ends in time or late as its sleep says. -/
def Stage.Fits (clock : Nat) (r : Race) : Stage → Prop
  | waiting | missed => True
  | taken _ => r.kind = .stream
  | racing since => clock ≤ since + r.fetch.wait r.limit
  | answered result => r.fetch.result? = some result ∧ r.fetch.plan.sleep ≤ r.limit
  | late since =>
    (∀ result, r.fetch.result? = some result → r.limit ≤ r.fetch.plan.sleep) ∧
      ∀ value, r.fetch.result? = some (.value value) → clock ≤ since + r.fetch.plan.sleep
  | landed value => r.fetch.result? = some (.value value) ∧ r.limit ≤ r.fetch.plan.sleep

/-- Nobody has been told anything of a query that is ready. -/
@[simp] theorem verdicts_ready (k : Kind) : k.ready.verdicts = [] := by cases k <;> rfl

/-- Nothing of a query that is ready has come. -/
@[simp] theorem landings_ready (k : Kind) (key : String) : k.ready.landings key = [] := by
  cases k <;> rfl

/-- What is ready has not been taken. -/
@[simp] theorem ready_ne_taken (k : Kind) (value : Json) : k.ready ≠ .taken value := by
  cases k <;> simp [Kind.ready]

/-- What a run has brought for a query is what its stage stands for. -/
structure Account (acts : List Act) (clock i : Nat) (r : Race) (stage : Stage) : Prop where
  /-- Only the one who asked was told anything. -/
  answers : ∀ owner, answers acts i owner = if owner = r.owner then stage.verdicts else []
  /-- What was put into the cache. -/
  landings : landings acts i = stage.landings r.key
  /-- Whether the fetch was started. -/
  started : .start i ∈ acts ↔ stage.Started
  /-- What was taken from the cache. -/
  taken : ∀ owner key value, .take i owner key value ∈ acts ↔
    stage = .taken value ∧ owner = r.owner ∧ key = r.key
  /-- The stage is possible. -/
  fits : stage.Fits clock r

/-- Nothing has happened for a query that nobody has asked for. -/
structure Untouched (acts : List Act) (i : Nat) : Prop where
  /-- Nobody was told anything. -/
  answers : ∀ owner, answers acts i owner = []
  /-- Nothing was put into the cache. -/
  landings : landings acts i = []
  /-- Nothing was started. -/
  started : .start i ∉ acts
  /-- Nothing was taken. -/
  taken : ∀ owner key value, .take i owner key value ∉ acts

variable {acts : List Act} {act : Act} {clock i j : Nat} {r : Race} {stage : Stage}

/-- One more act may answer. -/
theorem answers_snoc (acts : List Act) (act : Act) (i owner : Nat) :
    answers (acts ++ [act]) i owner = answers acts i owner ++ (act.answer? i owner).toList := by
  rw [answers, List.filterMap_append]
  cases h : act.answer? i owner <;> simp [answers, h]

/-- One more act may bring a value. -/
theorem landings_snoc (acts : List Act) (act : Act) (i : Nat) :
    landings (acts ++ [act]) i = landings acts i ++ (act.landing? i).toList := by
  rw [landings, List.filterMap_append]
  cases h : act.landing? i <;> simp [landings, h]

/-- A step about another query tells nobody anything about this one. -/
theorem answer?_of_about (h : act.about? ≠ some i) (owner : Nat) : act.answer? i owner = none := by
  cases act with
  | take j => exact if_neg fun he => h (congrArg some he.1)
  | tell j => exact if_neg fun he => h (congrArg some he.1)
  | _ => rfl

/-- An act about another query brings nothing of this one. -/
theorem landing?_of_about (h : act.about? ≠ some i) : act.landing? i = none := by
  cases act with
  | land j => exact if_neg fun he => h (congrArg some he)
  | _ => rfl

/-- A step about another query leaves the account as it is. -/
theorem Account.snoc (h : Account acts clock i r stage) (habout : act.about? ≠ some i)
    (clock' : Nat) (hfits : stage.Fits clock' r) : Account (acts ++ [act]) clock' i r stage where
  answers owner := by rw [answers_snoc, answer?_of_about habout, h.answers]; simp
  landings := by rw [landings_snoc, landing?_of_about habout, h.landings]; simp
  started := by
    have hne : .start i ≠ act := fun he => habout (he ▸ rfl)
    simp [h.started, hne]
  taken owner key value := by
    have hne : .take i owner key value ≠ act := fun he => habout (he ▸ rfl)
    simp [h.taken, hne]
  fits := hfits

/-- An act about another query leaves this one untouched. -/
theorem Untouched.snoc (h : Untouched acts i) (habout : act.about? ≠ some i) :
    Untouched (acts ++ [act]) i where
  answers owner := by rw [answers_snoc, answer?_of_about habout, h.answers]; rfl
  landings := by rw [landings_snoc, landing?_of_about habout, h.landings]; rfl
  started := by
    have hne : .start i ≠ act := fun he => habout (he ▸ rfl)
    simp [h.started, hne]
  taken owner key value := by
    have hne : .take i owner key value ≠ act := fun he => habout (he ▸ rfl)
    simp [h.taken, hne]

/-- A query that was just asked for. -/
theorem Untouched.account (h : Untouched acts i) (clock : Nat) (r : Race) :
    Account acts clock i r .waiting where
  answers owner := by simp [h.answers, Stage.verdicts]
  landings := h.landings
  started := by simp [h.started, Stage.Started]
  taken owner key value := by simp [h.taken]
  fits := trivial

/-- Every query is accounted for. -/
structure Accounted (acts : List Act) (s : System) : Prop where
  /-- The ones that were asked for. -/
  account : ∀ i r stage, s.races[i]? = some (r, stage) → Account acts s.clock i r stage
  /-- All others. -/
  untouched : ∀ i, s.races.length ≤ i → Untouched acts i

/-- Behind the step of one query, each query is that one or as it was. -/
theorem race_of_set {races : List (Race × Stage)} {j : Nat} {q : Race} {stage' stage'' : Stage}
    (hrace : races[i]? = some (r, stage))
    (hj : (races.set i (r, stage'))[j]? = some (q, stage'')) :
    i = j ∧ r = q ∧ stage' = stage'' ∨ i ≠ j ∧ races[j]? = some (q, stage'') := by
  by_cases hij : i = j
  · subst hij
    rw [List.getElem?_set_self (List.getElem?_eq_some_iff.1 hrace).1] at hj
    obtain ⟨rfl, rfl⟩ := Prod.mk.inj (Option.some.inj hj)
    exact .inl ⟨rfl, rfl, rfl⟩
  · rw [List.getElem?_set_ne hij] at hj
    exact .inr ⟨hij, hj⟩

/-- A step that brings one query to another stage accounts for it. -/
theorem Accounted.set {s s' : System} (h : Accounted acts s) {stage' : Stage}
    (hrace : s.races[i]? = some (r, stage)) (hraces : s'.races = s.races.set i (r, stage'))
    (hclock : s'.clock = s.clock) (habout : act.about? = some i)
    (hnew : Account (acts ++ [act]) s.clock i r stage') : Accounted (acts ++ [act]) s' where
  account j q stage hj := by
    rw [hraces] at hj
    rw [hclock]
    obtain ⟨rfl, rfl, rfl⟩ | ⟨hij, hj⟩ := race_of_set hrace hj
    · exact hnew
    · have hold := h.account j q stage hj
      exact hold.snoc (by simpa [habout] using hij) s.clock hold.fits
  untouched j hj := by
    have hlt := (List.getElem?_eq_some_iff.1 hrace).1
    rw [hraces, List.length_set] at hj
    exact (h.untouched j hj).snoc (by rw [habout]; intro he; cases he; omega)

/-- A step that is about no query leaves all of them as they are, as long as they fit the time. -/
theorem Accounted.keep {s s' : System} (h : Accounted acts s) (hraces : s'.races = s.races)
    (habout : act.about? = none)
    (hfits : ∀ p ∈ s.races, p.2.Fits s.clock p.1 → p.2.Fits s'.clock p.1) :
    Accounted (acts ++ [act]) s' where
  account j q stage hj := by
    rw [hraces] at hj
    have hold := h.account j q stage hj
    exact hold.snoc (by simp [habout]) s'.clock (hfits _ (List.mem_of_getElem? hj) hold.fits)
  untouched j hj := by
    rw [hraces] at hj
    exact (h.untouched j hj).snoc (by simp [habout])

/-- What was just asked for waits. -/
theorem stage_of_asked {owner limit : Nat} {kind : Kind} {queries : List (String × Fetch)}
    (h : (r, stage) ∈ asked owner kind limit queries) : stage = .waiting := by
  obtain ⟨q, -, he⟩ := List.mem_map.1 h
  exact (Prod.mk.inj he).2.symm

/-- What the one who asked is told comes behind what was told before. -/
theorem Account.answers_tell (h : Account acts clock i r stage) {verdict : Verdict}
    (hact : ∀ owner, act.answer? i owner = if owner = r.owner then some verdict else none)
    (owner : Nat) : Racing.answers (acts ++ [act]) i owner =
      if owner = r.owner then stage.verdicts ++ [verdict] else [] := by
  rw [answers_snoc, h.answers, hact]
  split <;> rfl

/-- Every step accounts for what it does. -/
theorem Accounted.step {s s' : System} (h : Accounted acts s) (hstep : Step s act s') :
    Accounted (acts ++ [act]) s' := by
  cases hstep with
  | ask kind hlimit hkeys =>
    constructor
    · intro j q stage hj
      rcases Nat.lt_or_ge j s.races.length with hlt | hge
      · rw [List.getElem?_append_left hlt] at hj
        have hold := h.account j q stage hj
        exact hold.snoc (by simp [Act.about?]) s.clock hold.fits
      · rw [List.getElem?_append_right hge] at hj
        obtain rfl := stage_of_asked (List.mem_of_getElem? hj)
        exact ((h.untouched j hge).snoc (by simp [Act.about?])).account s.clock q
    · intro j hj
      rw [List.length_append] at hj
      exact (h.untouched j (by omega)).snoc (by simp [Act.about?])
  | @take i r value hrace hkind hfound =>
    have hold := h.account _ _ _ hrace
    refine h.set hrace rfl rfl rfl ⟨?_, ?_, ?_, fun owner key value => ?_, hkind⟩
    · refine hold.answers_tell fun owner => ?_
      simp [Act.answer?, eq_comm]
    · rw [landings_snoc, hold.landings]
      rfl
    · simp [hold.started, Stage.Started]
    · simp only [List.mem_append, hold.taken, List.mem_singleton, Act.take.injEq]
      grind
  | @miss i r hrace hkind hmiss =>
    have hold := h.account _ _ _ hrace
    refine h.set hrace rfl rfl rfl ⟨fun owner => ?_, ?_, ?_, fun owner key value => ?_, trivial⟩
    · rw [answers_snoc, hold.answers]
      simp [Act.answer?, Stage.verdicts]
    · rw [landings_snoc, hold.landings]
      rfl
    · simp [hold.started, Stage.Started]
    · simp [hold.taken]
  | @start i r hrace =>
    have hold := h.account _ _ _ hrace
    refine h.set hrace rfl rfl rfl ⟨fun owner => ?_, ?_, ?_, fun owner key value => ?_, ?_⟩
    · rw [answers_snoc, hold.answers, verdicts_ready]
      simp [Act.answer?, Stage.verdicts]
    · rw [landings_snoc, hold.landings, landings_ready]
      rfl
    · simp [Stage.Started]
    · simp [hold.taken]
    · exact Nat.le_add_right _ _
  | @finish i r since result hrace hend hresult =>
    have hold := h.account _ _ _ hrace
    have hlimit := wait_le_limit r.fetch r.limit
    refine h.set hrace rfl rfl rfl ⟨?_, ?_, ?_, fun owner key value => ?_, hresult, ?_⟩
    · exact hold.answers_tell fun owner => by simp [Act.answer?, eq_comm]
    · rw [landings_snoc, hold.landings]
      rfl
    · simp [hold.started, Stage.Started]
    · simp [hold.taken]
    · have hfits : s.clock ≤ since + r.fetch.wait r.limit := hold.fits
      omega
  | @expire i r since hrace hover =>
    have hold := h.account _ _ _ hrace
    have hfits : s.clock ≤ since + r.fetch.wait r.limit := hold.fits
    refine h.set hrace rfl rfl rfl
      ⟨?_, ?_, ?_, fun owner key value => ?_, fun result hresult => ?_, fun value hresult => ?_⟩
    · exact hold.answers_tell fun owner => by simp [Act.answer?, eq_comm]
    · rw [landings_snoc, hold.landings]
      rfl
    · simp [hold.started, Stage.Started]
    · simp [hold.taken]
    · have hsleep := wait_le_sleep hresult r.limit
      omega
    · have hsleep := wait_le_sleep hresult r.limit
      omega
  | @land i r since value hrace hend hresult =>
    have hold := h.account _ _ _ hrace
    refine h.set hrace rfl rfl rfl
      ⟨fun owner => ?_, ?_, ?_, fun owner key value => ?_, hresult, hold.fits.1 _ hresult⟩
    · rw [answers_snoc, hold.answers]
      simp [Act.answer?, Stage.verdicts]
    · rw [landings_snoc, hold.landings]
      simp [Act.landing?, Stage.landings]
    · simp [hold.started, Stage.Started]
    · simp [hold.taken]
  | put key value => exact h.keep rfl rfl fun _ _ hfits => hfits
  | @elapse ms hdue =>
    refine h.keep rfl rfl fun p hp hfits => ?_
    have hmoment := hdue p hp
    obtain ⟨r, stage⟩ := p
    cases stage with
    | racing since => exact hmoment _ rfl
    | late since =>
      refine ⟨hfits.1, fun value hvalue => hmoment _ ?_⟩
      simp [Race.due?, hvalue]
    | _ => exact hfits

/-- Every run accounts for all queries. -/
theorem Runs.accounted {s : System} (h : Runs acts s) : Accounted acts s := by
  induction h with
  | nil =>
    constructor
    · intro i r stage hi
      cases hi
    · intro i _
      exact ⟨fun _ => rfl, rfl, List.not_mem_nil, fun _ _ _ => List.not_mem_nil⟩
  | snoc _ hstep ih => exact ih.step hstep

end Rivulet.Racing
