import RadosGateway.Base.Temporal

/-!
# The sharded thread pool

`ShardedThreadPool`: worker threads, and threads that call `pause`, `pause_new`, `unpause`, `drain`
and `stop`. The waits of the workers are commented out in the source, so one that is paused or
drained holds `shardedpool_lock` and looks at the flag again and again. -/

namespace RadosGateway.ShardedPool

inductive Op where
  | pause
  | pauseNew
  | unpause
  | drain
  | stop
  deriving DecidableEq

/-- Where a worker is in `shardedthreadpool_worker`. -/
inductive Worker where
  | top
  | testPause
  | lockPause
  | paused
  | testDrain
  | lockDrain
  | drained
  | process
  | finished
  deriving DecidableEq

/-- A thread outside of a call, before it has the lock, with the lock, in `wait_cond.Wait`, or in
the joins of `stop`. -/
inductive Caller where
  | idle
  | called (op : Op)
  | locked (op : Op)
  | waiting (op : Op)
  | joining
  deriving DecidableEq

inductive Thread (n : Nat) (ι : Type) where
  | worker (i : Fin n)
  | caller (j : ι)
  deriving DecidableEq

structure State (n : Nat) (ι : Type) where
  stopThreads : Bool := false
  pauseThreads : Bool := false
  drainThreads : Bool := false
  numPaused : Nat := 0
  numDrained : Nat := 0
  lock : Option (Thread n ι) := none
  worker : Fin n → Worker := fun _ => .top
  caller : ι → Caller := fun _ => .idle

/-- A call is made, or a thread of the pool takes its next step, or something else happens. A worker
is told whether its shard is empty. -/
inductive Label (n : Nat) (ι : Type) where
  | call (j : ι) (op : Op)
  | caller (j : ι)
  | worker (i : Fin n) (shardEmpty : Bool)
  | other

variable {n : Nat} {ι : Type} [DecidableEq ι]

namespace State

def moveWorker (s : State n ι) (i : Fin n) (pc : Worker) : State n ι :=
  { s with worker := Function.update s.worker i pc }

def moveCaller (s : State n ι) (j : ι) (pc : Caller) : State n ι :=
  { s with caller := Function.update s.caller j pc }

def stepWorker (s : State n ι) (i : Fin n) (shardEmpty : Bool) : Option (State n ι) :=
  match s.worker i with
  | .top => some (s.moveWorker i (if s.stopThreads then .finished else .testPause))
  | .testPause => some (s.moveWorker i (if s.pauseThreads then .lockPause else .testDrain))
  | .lockPause =>
    if s.lock.isSome then none
    else
      some ({ s with lock := some (.worker i), numPaused := s.numPaused + 1 }.moveWorker i .paused)
  | .paused =>
    if s.pauseThreads then some s
    else some ({ s with lock := none, numPaused := s.numPaused - 1 }.moveWorker i .testDrain)
  | .testDrain => some (s.moveWorker i (if s.drainThreads then .lockDrain else .process))
  | .lockDrain =>
    if s.lock.isSome then none
    else if shardEmpty then
      some ({ s with lock := some (.worker i), numDrained := s.numDrained +
        1 }.moveWorker i .drained)
    else some (s.moveWorker i .process)
  | .drained =>
    if s.drainThreads then some s
    else some ({ s with lock := none, numDrained := s.numDrained - 1 }.moveWorker i .process)
  | .process => some (s.moveWorker i .top)
  | .finished => none

/-- The flag that a call sets when it has the lock; `stop` takes none. -/
def setFlag (s : State n ι) (op : Op) : State n ι :=
  { s with
    pauseThreads := if op = .unpause then false
      else s.pauseThreads || op = .pause || op = .pauseNew,
    drainThreads := s.drainThreads || op = .drain,
    stopThreads := s.stopThreads || op = .stop }

def stepCaller (s : State n ι) (j : ι) : Option (State n ι) :=
  match s.caller j with
  | .idle => none
  | .called .stop => some ((s.setFlag .stop).moveCaller j .joining)
  | .called op =>
    if s.lock.isSome then none
      else some ({ s.setFlag op with lock := some (.caller j) }.moveCaller j (.locked op))
  | .locked .pause =>
    some ({ s with lock := none }.moveCaller j (if n = s.numPaused then .idle else .waiting .pause))
  | .locked .drain =>
    if n = s.numDrained then
      some ({ s with lock := none, drainThreads := false }.moveCaller j .idle)
    else some ({ s with lock := none }.moveCaller j (.waiting .drain))
  | .locked _ => some ({ s with lock := none }.moveCaller j .idle)
  | .waiting op =>
    if s.lock.isSome then none
      else some ({ s with lock := some (.caller j) }.moveCaller j (.locked op))
  | .joining => if ∀ i, s.worker i = .finished then some (s.moveCaller j .idle) else none

def step (s : State n ι) : Label n ι → Option (State n ι)
  | .call j op => if s.caller j = .idle then some (s.moveCaller j (.called op)) else none
  | .caller j => s.stepCaller j
  | .worker i shardEmpty => s.stepWorker i shardEmpty
  | .other => some s

end State

structure Run (n : Nat) (ι : Type) [DecidableEq ι] where
  state : ℕ → State n ι
  label : ℕ → Label n ι
  init : state 0 = {}
  next : ∀ t, (state t).step (label t) = some (state (t + 1))

namespace Run

def Enabled (r : Run n ι) (t : ℕ) : Thread n ι → Prop
  | .worker i => ((r.state t).stepWorker i true).isSome
  | .caller j => ((r.state t).stepCaller j).isSome

def Taken (r : Run n ι) (t : ℕ) : Thread n ι → Prop
  | .worker i => ∃ shardEmpty, r.label t = .worker i shardEmpty
  | .caller j => r.label t = .caller j

/-- A thread that can go on again and again goes on again and again; so it gets the lock if it is
free again and again. -/
def Fair (r : Run n ι) : Prop := ∀ thread, (∀ t, ∃ m ≥ t, r.Enabled m thread) → ∀ t, ∃ m ≥ t,
    r.Taken m thread

def Returns (r : Run n ι) : Prop := ∀ t j, (r.state t).caller j ≠ .idle → ∃ m ≥ t,
    (r.state m).caller j = .idle

end Run

/-- Neither `pause` nor `drain` is called, and no worker looks at `pause_threads` while it is set.
-/
def Unpaused (s : State n ι) : Label n ι → Prop
  | .call _ op => op ≠ .pause ∧ op ≠ .drain
  | .worker i _ => s.worker i = .testPause → s.pauseThreads = false
  | _ => True

end RadosGateway.ShardedPool
