import RadosGateway.ShardedPool

/-!
# Calls of the sharded pool

A worker counts itself as paused while it holds the lock, and gives the lock back when the flag is
cleared, so whoever else has the lock finds no worker paused: `pause` and `drain` never see what
they wait for. Otherwise the lock is given back at once, and the other calls return. -/

namespace RadosGateway.ShardedPool

open Temporal Option Function

variable {n : Nat} {ι : Type} [DecidableEq ι]

variable {s s' : State n ι}

theorem stepCaller_frame {j : ι} (hstep : s.stepCaller j = some s') :
    s'.worker = s.worker ∧ (s.stopThreads = true → s'.stopThreads = true)
      ∧ ∃ pc, s'.caller = Function.update s.caller j pc := by
  unfold State.stepCaller at hstep
  split at hstep
  all_goals try split_ifs at hstep
  all_goals cases hstep
  all_goals exact ⟨rfl, fun h => by simp [State.moveCaller, State.setFlag, h], _, rfl⟩

variable {i : Fin n} {shardEmpty : Bool}

omit [DecidableEq ι] in
theorem stepWorker_frame
    (hstep : s.stepWorker i shardEmpty = some s') :
    s'.caller = s.caller ∧ s'.stopThreads = s.stopThreads ∧ ∃ pc,
      s'.worker = Function.update s.worker i pc := by
  unfold State.stepWorker at hstep
  split at hstep
  all_goals try split_ifs at hstep
  all_goals cases hstep
  -- a worker that spins stays where it is
  all_goals first
    | exact ⟨rfl, rfl, _, rfl⟩
    | exact ⟨rfl, rfl, _, (update_eq_self i _).symm⟩

/-- What a step leaves as it is. -/
theorem step_frame {label : Label n ι} (hstep : s.step label = some s') :
    (s.stopThreads = true → s'.stopThreads = true)
      ∧ (∀ i, (∀ shardEmpty, label ≠ .worker i shardEmpty) → s'.worker i = s.worker i)
      ∧ ∀ j, label ≠ .caller j → s.caller j ≠ .idle → s'.caller j = s.caller j := by
  cases label with
  | call k op =>
    rw [State.step] at hstep
    split_ifs at hstep with hidle
    cases hstep
    exact ⟨id, fun _ _ => rfl, fun j _ hbusy =>
      update_of_ne (fun heq : j = k => hbusy (heq ▸ hidle)) _ _⟩
  | caller k =>
    obtain ⟨hworker, hstop, pc, hcaller⟩ := stepCaller_frame hstep
    refine ⟨hstop, fun i _ => by rw [hworker], fun j hj _ => ?_⟩
    rw [hcaller]
    exact update_of_ne (fun heq : j = k => hj (heq ▸ rfl)) _ _
  | worker k shardEmpty =>
    obtain ⟨hcaller, hstop, pc, hworker⟩ := stepWorker_frame hstep
    refine ⟨fun h => hstop.trans h, fun i hi => ?_, fun j _ _ => by rw [hcaller]⟩
    rw [hworker]
    exact update_of_ne (fun heq : i = k => hi shardEmpty (heq ▸ rfl)) _ _
  | other =>
    cases hstep
    exact ⟨id, fun _ _ => rfl, fun _ _ _ => rfl⟩

/-- A worker that is paused or drained has the lock and is the only one that is counted, and a
caller that has the lock is where the lock says. -/
structure Held (s : State n ι) : Prop where
  locked : ∀ j op, s.caller j = .locked op → s.lock = some (.caller j)
  paused : ∀ i, s.worker i = .paused → s.lock = some (.worker i) ∧ s.numPaused = 1 ∧
    s.numDrained = 0
  drained : ∀ i, s.worker i = .drained → s.lock = some (.worker i) ∧ s.numPaused = 0 ∧
    s.numDrained = 1
  free : (∀ i, s.lock ≠ some (.worker i)) → s.numPaused = 0 ∧ s.numDrained = 0

omit [DecidableEq ι] in
theorem Held.stepWorker {i : Fin n} {shardEmpty : Bool} (h : Held s)
    (hstep : s.stepWorker i shardEmpty = some s') :
    Held s' := by
  obtain ⟨hlocked, hpaused, hdrained, hfree⟩ := h
  unfold State.stepWorker at hstep
  split at hstep
  all_goals try split_ifs at hstep
  all_goals cases hstep
  all_goals constructor
  all_goals try simp only [State.moveWorker, Function.update_apply]
  all_goals grind

theorem Held.stepCaller {j : ι} (h : Held s) (hstep : s.stepCaller j = some s') : Held s' := by
  obtain ⟨hlocked, hpaused, hdrained, hfree⟩ := h
  unfold State.stepCaller at hstep
  split at hstep
  all_goals try split_ifs at hstep
  all_goals cases hstep
  all_goals constructor
  all_goals simp only [State.moveCaller, State.setFlag, Function.update_apply]
  all_goals grind

/-- Step lemma: the lock and the two counts stay in step. -/
theorem Held.step {label : Label n ι} (h : Held s) (hstep : s.step label = some s') : Held s' := by
  cases label with
  | call j op =>
    rw [State.step] at hstep
    split_ifs at hstep
    cases hstep
    refine ⟨fun k op' hk => h.locked k op' ?_, h.paused, h.drained, h.free⟩
    simp only [State.moveCaller, Function.update_apply] at hk
    split_ifs at hk
    exact hk
  | caller j => exact h.stepCaller hstep
  | worker i shardEmpty => exact h.stepWorker hstep
  | other =>
    cases hstep
    exact h

theorem Run.held (r : Run n ι) (t : ℕ) : Held (r.state t) := by
  induction t with
  | zero =>
    rw [r.init]
    exact ⟨fun _ _ => Caller.noConfusion, fun _ => Worker.noConfusion, fun _ =>
      Worker.noConfusion, fun _ => ⟨rfl, rfl⟩⟩
  | succ t ih => exact ih.step (r.next t)

/-- Where a caller of `pause` or `drain` is from the call on. -/
def Caller.InCall (op : Op) (pc : Caller) : Prop :=
  pc = .called op ∨ pc = .locked op ∨ pc = .waiting op

/-- A step of a caller in `pause` or `drain` stays in the call. -/
theorem Held.inCall {j : ι} {op : Op} (h : Held s) (hn : 0 < n) (hop : op = .pause ∨ op = .drain)
    (hin : (s.caller j).InCall op) (hstep : s.stepCaller j = some s') :
    (s'.caller j).InCall op := by
  have hzero : s.caller j = .locked op → s.numPaused = 0 ∧ s.numDrained = 0 := by
    intro hlocked
    exact h.free fun i => by simp [h.locked j op hlocked]
  rcases hin with hpc | hpc | hpc
  · rcases hop with rfl | rfl
    all_goals
      rw [State.stepCaller, hpc] at hstep
      dsimp only at hstep
      split_ifs at hstep
      cases hstep
      exact .inr (.inl (update_self ..))
  · obtain ⟨hpaused, hdrained⟩ := hzero hpc
    rcases hop with rfl | rfl
    all_goals
      rw [State.stepCaller, hpc] at hstep
      simp only [hpaused, hdrained, hn.ne', if_false] at hstep
      cases hstep
      exact .inr (.inr (update_self ..))
  · rw [State.stepCaller, hpc] at hstep
    dsimp only at hstep
    split_ifs at hstep
    cases hstep
    exact .inr (.inl (update_self ..))

/-- A call of `pause` or `drain` never returns from a pool that has threads: whoever has the lock
finds no worker counted. -/
theorem Run.never_returns (r : Run n ι) (hn : 0 < n) {t : ℕ} {j : ι} {op : Op}
    (hop : op = .pause ∨ op = .drain)
    (h : (r.state t).caller j = .called op) : ∀ m ≥ t, (r.state m).caller j ≠ .idle := by
  have hbusy {s : State n ι} (hin : (s.caller j).InCall op) : s.caller j ≠ .idle := by
    rcases hin with h | h | h <;> simp [h]
  have hstays : ∀ m ≥ t, ((r.state m).caller j).InCall op := by
    intro m hm
    induction m, hm using Nat.le_induction with
    | base => exact .inl h
    | succ m hm ih =>
      by_cases hlabel : r.label m = .caller j
      · have hnext := r.next m
        rw [hlabel] at hnext
        exact (r.held m).inCall hn hop ih hnext
      · rw [(step_frame (r.next m)).2.2 j hlabel (hbusy ih)]
        exact ih
  exact fun m hm => hbusy (hstays m hm)

theorem Run.caller_succ (r : Run n ι) {t : ℕ} {j : ι} (hbusy : (r.state t).caller j ≠ .idle)
    (htaken : ¬ r.Taken t (.caller j)) : (r.state (t + 1)).caller j = (r.state t).caller j :=
  (step_frame (r.next t)).2.2 j htaken hbusy

theorem Run.worker_succ (r : Run n ι) {t : ℕ} (htaken : ¬ r.Taken t (.worker i)) :
    (r.state (t + 1)).worker i = (r.state t).worker i :=
  (step_frame (r.next t)).2.1 i fun shardEmpty hlabel => htaken ⟨shardEmpty, hlabel⟩

theorem Run.stop_succ (r : Run n ι) {t : ℕ} (h : (r.state t).stopThreads = true) :
    (r.state (t + 1)).stopThreads = true :=
  (step_frame (r.next t)).1 h

def Worker.toGo : Worker → Nat
  | .finished => 0
  | .top => 1
  | .process => 2
  | .testDrain => 3
  | .testPause => 4
  | _ => 5

structure Calm (s : State n ι) : Prop where
  drainThreads : s.drainThreads = false
  toGo : ∀ i, (s.worker i).toGo ≤ 4
  called : ∀ j op, s.caller j = .called op → op ≠ .pause ∧ op ≠ .drain
  locked : ∀ j op, s.caller j = .locked op → op = .pauseNew ∨ op = .unpause
  waiting : ∀ j op, s.caller j ≠ .waiting op
  joining : ∀ j, s.caller j = .joining → s.stopThreads = true
  lock : ∀ thread, s.lock = some thread → ∃ j op, thread = .caller j ∧ s.caller j = .locked op

/-- Step lemma of pools that nobody pauses. -/
theorem Calm.step {label : Label n ι} (h : Calm s) (hok : Unpaused s label)
    (hstep : s.step label = some s') : Calm s' := by
  obtain ⟨hdrain, htoGo, hcalled, hlocked, hwaiting, hjoining, hlock⟩ := h
  cases label with
  | call j op =>
    rw [State.step] at hstep
    split_ifs at hstep with hidle
    cases hstep
    unfold State.moveCaller
    constructor <;> grind [Function.update, Unpaused]
  | caller j =>
    replace hstep : s.stepCaller j = some s' := hstep
    unfold State.stepCaller State.moveCaller State.setFlag at hstep
    split at hstep
    all_goals try split_ifs at hstep
    all_goals cases hstep
    all_goals constructor <;> grind [Function.update, cases Op]
  | worker i shardEmpty =>
    replace hstep : s.stepWorker i shardEmpty = some s' := hstep
    unfold State.stepWorker State.moveWorker at hstep
    split at hstep
    all_goals try split_ifs at hstep
    all_goals cases hstep
    all_goals constructor <;> grind [Function.update, Unpaused, Worker.toGo]
  | other =>
    cases hstep
    exact ⟨hdrain, htoGo, hcalled, hlocked, hwaiting, hjoining, hlock⟩

omit [DecidableEq ι] in
theorem Calm.toGo_stepWorker (h : Calm s) (hstop : s.stopThreads = true)
    (hok : Unpaused s (.worker i shardEmpty))
    (hstep : s.stepWorker i shardEmpty = some s') : (s'.worker i).toGo + 1 = (s.worker i).toGo := by
  have hle := h.toGo i
  cases hworker : s.worker i with
  | top | testPause | testDrain | process =>
    simp only [State.stepWorker, hworker, hstop, h.drainThreads, if_true, some.injEq] at hstep
    try rw [hok hworker] at hstep
    rw [← hstep]
    simp [State.moveWorker, Worker.toGo]
  | finished =>
    rw [State.stepWorker, hworker] at hstep
    cases hstep
  | lockPause | paused | lockDrain | drained =>
    rw [hworker] at hle
    exact absurd hle (by decide)

section Fair

variable {r : Run n ι} (hok : ∀ t, Unpaused (r.state t) (r.label t))

include hok in
theorem Run.calm (t : ℕ) : Calm (r.state t) := by
  induction t with
  | zero =>
    rw [r.init]
    constructor <;> simp [Worker.toGo]
  | succ t ih => exact ih.step (hok t) (r.next t)

variable (hfair : r.Fair) {t : ℕ} {j : ι}

include hfair

theorem Run.caller_moves {pc : Caller} {Q : State n ι → Prop} (hbusy : pc ≠ .idle)
    (hmove : ∀ t s', (r.state t).caller j = pc → (r.state t).stepCaller j = some s' → Q s')
    (henabled : ∀ t, (r.state t).caller j = pc → ∃ m ≥ t, (r.state m).caller j = pc →
      r.Enabled m (.caller j))
    (h : (r.state t).caller j = pc) : ∃ m ≥ t, Q (r.state m) := by
  refine leads_to_of_fair (hfair (.caller j)) (fun t hpc htaken => ?_) (fun t hpc htaken =>
    ?_) henabled h
  · exact (r.caller_succ (by rwa [hpc]) htaken).trans hpc
  · have hnext := r.next t
    rw [show r.label t = .caller j from htaken] at hnext
    exact hmove t _ hpc hnext

theorem Run.joining_of_stop (h : (r.state t).caller j = .called .stop) :
    ∃ m ≥ t, (r.state m).caller j = .joining := by
  apply r.caller_moves (Q := (·.caller j = .joining)) hfair Caller.noConfusion _ _ h
  · intro t s' hcalled hs'
    rw [State.stepCaller, hcalled] at hs'
    rw [← some.inj hs']
    exact update_self ..
  · exact fun t _ => ⟨t, le_rfl, fun hcalled => by rw [Run.Enabled, State.stepCaller, hcalled]; rfl⟩

include hok

theorem Run.idle_of_locked {op : Op} (h : (r.state t).caller j = .locked op) :
    ∃ m ≥ t, (r.state m).caller j = .idle ∧ (r.state m).lock = none := by
  have hstep : ∀ t, (r.state t).caller j = .locked op →
      (r.state t).stepCaller j = some ({ r.state t with lock := none }.moveCaller j .idle) := by
    intro t hlocked
    rw [State.stepCaller, hlocked]
    rcases (r.calm hok t).locked j op hlocked with rfl | rfl <;> rfl
  apply r.caller_moves (Q := fun s => s.caller j = .idle ∧
    s.lock = none) hfair Caller.noConfusion _ _ h
  · intro t s' hlocked hs'
    rw [hstep t hlocked] at hs'
    rw [← some.inj hs']
    exact ⟨update_self .., rfl⟩
  · exact fun t _ => ⟨t, le_rfl, fun hlocked => by rw [Run.Enabled, hstep t hlocked]; rfl⟩

theorem Run.exists_unlocked (t : ℕ) : ∃ m ≥ t, (r.state m).lock = none := by
  cases hlock : (r.state t).lock with
  | none => exact ⟨t, le_rfl, hlock⟩
  | some thread =>
    obtain ⟨j, op, -, hlocked⟩ := (r.calm hok t).lock thread hlock
    obtain ⟨m, hm, -, hnone⟩ := r.idle_of_locked hok hfair hlocked
    exact ⟨m, hm, hnone⟩

/-- A call gets the lock. -/
theorem Run.locked_of_called {op : Op} (hop : op ≠ .stop) (h : (r.state t).caller j = .called op) :
    ∃ m ≥ t, (r.state m).caller j = .locked op := by
  have hstep : ∀ t, (r.state t).caller j = .called op → (r.state t).stepCaller j =
      if (r.state t).lock.isSome then none
      else some ({ (r.state t).setFlag op with lock := some (.caller j) }.moveCaller j
        (.locked op)) := by
    intro t hcalled
    rw [State.stepCaller, hcalled]
    cases op <;> first | rfl | exact absurd rfl hop
  apply r.caller_moves (Q := (·.caller j = .locked op)) hfair Caller.noConfusion _ _ h
  · intro t s' hcalled hs'
    rw [hstep t hcalled] at hs'
    split_ifs at hs'
    rw [← some.inj hs']
    exact update_self ..
  · intro t _
    obtain ⟨m, hm, hnone⟩ := r.exists_unlocked hok hfair t
    exact ⟨m, hm, fun hcalled => by rw [Run.Enabled, hstep m hcalled, hnone]; rfl⟩

/-- After `stop` every worker comes to its end. -/
theorem Run.finished_of_toGo (i : Fin n) (hstop : (r.state t).stopThreads = true) :
    ∃ m ≥ t, (r.state m).worker i = .finished := by
  obtain ⟨k, hk⟩ : ∃ k, ((r.state t).worker i).toGo = k := ⟨_, rfl⟩
  induction k generalizing t with
  | zero =>
    refine ⟨t, le_rfl, ?_⟩
    cases hworker : (r.state t).worker i <;> rw [hworker] at hk <;> first | rfl | cases hk
  | succ k ih =>
    obtain ⟨m, hm, hstop', htoGo⟩ := leads_to_of_fair
      (P := fun t => (r.state t).stopThreads = true ∧ ((r.state t).worker i).toGo = k + 1)
      (Q := fun t => (r.state t).stopThreads = true ∧
        ((r.state t).worker i).toGo = k) (hfair (.worker i))
      (fun t ht htaken => ⟨r.stop_succ ht.1, by rw [r.worker_succ htaken, ht.2]⟩)
      (by
        rintro t ⟨hstop, htoGo⟩ ⟨shardEmpty, hlabel⟩
        have hunpaused := hok t
        have hnext := r.next t
        rw [hlabel] at hunpaused hnext
        have hless := (r.calm hok t).toGo_stepWorker hstop hunpaused hnext
        exact ⟨r.stop_succ hstop, by omega⟩)
      (by
        rintro t ⟨-, htoGo⟩
        refine ⟨t, le_rfl, fun _ => ?_⟩
        have hle := (r.calm hok t).toGo i
        rw [Run.Enabled, State.stepWorker]
        cases hworker : (r.state t).worker i <;> rw [hworker] at htoGo hle <;> simp_all
          [Worker.toGo])
      ⟨hstop, hk⟩
    obtain ⟨u, hu, hfinished⟩ := ih hstop' htoGo
    exact ⟨u, hm.trans hu, hfinished⟩

/-- After `stop` all workers come to their end. -/
theorem Run.finished_of_stop (hstop : (r.state t).stopThreads = true) :
    ∃ m ≥ t, ∀ i, (r.state m).worker i = .finished := by
  have hstay : ∀ {i m}, (r.state m).worker i = .finished → ∀ u ≥ m,
      (r.state u).worker i = .finished := by
    intro i m hm u hu
    induction u, hu using Nat.le_induction with
    | base => exact hm
    | succ u hu ih =>
      rw [r.worker_succ, ih]
      rintro ⟨shardEmpty, hlabel⟩
      have hnext := r.next u
      rw [hlabel, State.step, State.stepWorker, ih] at hnext
      cases hnext
  have hall : ∀ i, ∀ᶠ u in Filter.atTop, (r.state u).worker i = .finished := by
    intro i
    obtain ⟨m, -, hm⟩ := r.finished_of_toGo hok hfair i hstop
    exact Filter.eventually_atTop.mpr ⟨m, hstay hm⟩
  obtain ⟨m, hm⟩ := Filter.eventually_atTop.mp (Filter.eventually_all.mpr hall)
  exact ⟨max m t, le_max_right m t, hm _ (le_max_left m t)⟩

/-- A call of `stop` returns. -/
theorem Run.idle_of_joining (h : (r.state t).caller j = .joining) :
    ∃ m ≥ t, (r.state m).caller j = .idle := by
  apply r.caller_moves (Q := (·.caller j = .idle)) hfair Caller.noConfusion _ _ h
  · intro t s' hjoining hs'
    rw [State.stepCaller, hjoining] at hs'
    dsimp only at hs'
    split_ifs at hs'
    rw [← some.inj hs']
    exact update_self ..
  · intro t hjoining
    obtain ⟨m, hm, hfinished⟩ := r.finished_of_stop hok hfair ((r.calm hok t).joining j hjoining)
    refine ⟨m, hm, fun hjoining => ?_⟩
    rw [Run.Enabled, State.stepCaller, hjoining]
    rw [if_pos hfinished]
    rfl

end Fair

/-- As long as nobody calls `pause` or `drain`, and no worker looks at `pause_threads` while it is
set, every call returns. -/
theorem Run.returns_of_unpaused (r : Run n ι) (hfair : r.Fair)
    (hok : ∀ t, Unpaused (r.state t) (r.label t)) : r.Returns := by
  intro t j hbusy
  cases hcaller : (r.state t).caller j with
  | idle => exact absurd hcaller hbusy
  | called op =>
    by_cases hop : op = .stop
    · obtain ⟨m, hm, hjoining⟩ := r.joining_of_stop hfair (hop ▸ hcaller)
      obtain ⟨u, hu, hidle⟩ := r.idle_of_joining hok hfair hjoining
      exact ⟨u, hm.trans hu, hidle⟩
    · obtain ⟨m, hm, hlocked⟩ := r.locked_of_called hok hfair hop hcaller
      obtain ⟨u, hu, hidle, -⟩ := r.idle_of_locked hok hfair hlocked
      exact ⟨u, hm.trans hu, hidle⟩
  | locked op =>
    obtain ⟨m, hm, hidle, -⟩ := r.idle_of_locked hok hfair hcaller
    exact ⟨m, hm, hidle⟩
  | waiting op => exact absurd hcaller ((r.calm hok t).waiting j op)
  | joining => exact r.idle_of_joining hok hfair hcaller

def statesAlong (label : ℕ → Label n Unit) : ℕ → State n Unit
  | 0 => {}
  | t + 1 => ((statesAlong label t).step (label t)).getD (statesAlong label t)

variable {label : ℕ → Label n Unit}

theorem statesAlong_of_le {k : ℕ}
    (hfix : ∀ t ≥ k, (statesAlong label k).step (label t) = some (statesAlong label k)) {t : ℕ}
    (h : k ≤ t) :
    statesAlong label t = statesAlong label k := by
  induction t, h using Nat.le_induction with
  | base => rfl
  | succ t h ih =>
    rw [statesAlong, ih, hfix t h]
    rfl

def runAlong (label : ℕ → Label n Unit) (k : ℕ)
    (hfix : ∀ t ≥ k, (statesAlong label k).step (label t) = some (statesAlong label k))
    (hnext : ∀ t < k, ((statesAlong label t).step (label t)).isSome) : Run n Unit where
  state := statesAlong label
  label := label
  init := rfl
  next t := by
    by_cases h : t < k
    · obtain ⟨s, hs⟩ := isSome_iff_exists.mp (hnext t h)
      rw [statesAlong, hs, getD_some]
    · rw [statesAlong_of_le hfix (not_lt.mp h), statesAlong_of_le hfix (by omega : k ≤ t + 1),
        hfix t (not_lt.mp h)]

theorem state_runAlong {k : ℕ}
    {hfix : ∀ t ≥ k, (statesAlong label k).step (label t) = some (statesAlong label k)}
    {hnext : ∀ t < k, ((statesAlong label t).step (label t)).isSome} {t : ℕ} (h : k ≤ t) :
    (runAlong label k hfix hnext).state t = statesAlong label k :=
  statesAlong_of_le hfix h

/-- `pause_new`, `unpause` and `stop` with two workers, of which one processes its shard before it
stops. -/
def stopLabel : ℕ → Label 2 Unit
  | 0 => .call () .pauseNew
  | 3 => .call () .unpause
  | 6 | 7 | 8 => .worker 0 true
  | 9 => .call () .stop
  | 1 | 2 | 4 | 5 | 10 | 14 => .caller ()
  | 11 | 12 => .worker 0 true
  | 13 => .worker 1 true
  | _ => .other

def stopRun : Run 2 Unit :=
  runAlong stopLabel 15 (fun t ht =>
    by obtain ⟨u, rfl⟩ := Nat.exists_eq_add_of_le' ht; rfl) (by decide)

/-- All of its calls return. -/
theorem stopRun_returns : stopRun.Returns := by
  apply stopRun.returns_of_unpaused
  · intro thread hagain
    obtain ⟨m, hm, henabled⟩ := hagain 15
    have hstate : stopRun.state m = statesAlong stopLabel 15 := state_runAlong hm
    have hworker : ∀ i, ((statesAlong stopLabel 15).stepWorker i true).isSome = false := by decide
    have hcaller : ∀ j, ((statesAlong stopLabel 15).stepCaller j).isSome = false := by decide
    cases thread <;> simp [Run.Enabled, hstate, hworker, hcaller] at henabled
  · intro t
    match t with
    | 0 | 3 | 9 => exact ⟨by decide, by decide⟩
    | 6 | 7 | 8 | 11 | 12 | 13 => exact fun _ => rfl
    | 1 | 2 | 4 | 5 | 10 | 14 => trivial
    | _ + 15 => trivial

def pauseLabel : ℕ → Label 1 Unit
  | 0 => .call () .pause
  | 1 | 2 => .caller ()
  | _ => .worker 0 true

def pauseRun : Run 1 Unit :=
  runAlong pauseLabel 6 (fun t ht =>
    by obtain ⟨u, rfl⟩ := Nat.exists_eq_add_of_le' ht; rfl) (by decide)

/-- A fair run of one worker and one call of `pause`, which never returns. -/
theorem pause_never_returns : pauseRun.Fair ∧ ¬ pauseRun.Returns := by
  constructor
  · rintro (i | j) hagain t
    · refine ⟨t + 3, Nat.le_add_right t 3, true, ?_⟩
      rw [Subsingleton.elim i 0]
      rfl
    · obtain ⟨m, hm, henabled⟩ := hagain 6
      have hstate : pauseRun.state m = statesAlong pauseLabel 6 := state_runAlong hm
      have hcaller : ∀ j, ((statesAlong pauseLabel 6).stepCaller j).isSome = false := by decide
      simp [Run.Enabled, hstate, hcaller] at henabled
  · intro hreturns
    have hwaiting : (pauseRun.state 6).caller () = .waiting .pause := rfl
    obtain ⟨m, hm, hidle⟩ := hreturns 6 () (by simp [hwaiting])
    have hstate : pauseRun.state m = statesAlong pauseLabel 6 := state_runAlong hm
    rw [hstate] at hidle
    exact absurd hidle (by decide)

end RadosGateway.ShardedPool
