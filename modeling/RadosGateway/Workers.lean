import RadosGateway.Base.Pool
import RadosGateway.DeleteObj
import RadosGateway.PutObj

/-!
# Worker threads

Uploads and removals are executed by worker threads. They share the store and take no lock on the
statistics of a bucket, which every request reads, changes and writes back. A thread has its own
`fsuid`.
-/

namespace RadosGateway

open Text Posix

inductive Worker where
  | put (req : PutRequest)
  | delete (req : DeleteRequest)

/-- What a request carries to the update of the statistics. -/
structure Outcome where
  ret : Int
  update : Option (SysInfo → SysInfo)
  oldUid : Nat

namespace Worker

def bucket : Worker → Bytes
  | put req => req.bucket
  | delete req => req.bucket

def path (G : Global) : Worker → Bytes
  | put req => req.path G
  | delete req => req.path G

def execute (G : Global) : Worker → Prog Int
  | put req => req.execute G
  | delete req => req.execute G

def handle (G : Global) : Worker → Prog Outcome
  | put req => do
      let exit ← req.upload G
      pure ⟨exit.ret, some (SysInfo.addObject exit.objSize), exit.oldUid⟩
  | delete req => do
      let oldUid ← setfsuid (uidT req.auid)
      match ← statFile (req.path G) with
      | none => pure ⟨0, none, oldUid⟩
      | some size =>
        let r ← monCommandRm (req.path G)
        pure ⟨r, some (SysInfo.removeObject (UInt64.ofNat size)), oldUid⟩

def task (G : Global) (w : Worker) : Proc.Task Sys Sys.Answer Outcome Int where
  before := w.handle G
  critical e := e.update.map (updateStat G w.bucket)
  after e := do
    let _ ← setfsuid e.oldUid
    pure e.ret

theorem program_task (G : Global) (w : Worker) : (w.task G).program = w.execute G := by
  cases w with
  | put req =>
    simp only [Proc.Task.program, task, handle, bind_assoc, pure_bind]
    rfl
  | delete req =>
    simp only [Proc.Task.program, task, handle, bind_assoc]
    refine congrArg (setfsuid (uidT req.auid) >>= ·) (funext fun oldUid => ?_)
    refine congrArg (statFile (req.path G) >>= ·) (funext fun size => ?_)
    cases size with
    | none => rfl
    | some size =>
      simp only [bind_assoc, pure_bind]
      rfl

end Worker

/-- The answer to a call as a worker thread sees it: its own `fsuid` and the shared tree. -/
def answerShared (k : Kernel) (c : Sys) (x : Nat × FileTree) : c.Answer × (Nat × FileTree) :=
  let r := answer k c ⟨x.1, x.2⟩
  (r.1, (r.2.fsuid, r.2.tree))

abbrev Workers (n : Nat) := Proc.Pool Sys Sys.Answer Outcome Int (Fin n) Nat FileTree

namespace Workers

variable {n : Nat}

def start (G : Global) (ws : Fin n → Worker) (uid : Fin n → Nat) (t : FileTree) : Workers n :=
  Proc.Pool.start (fun i => (ws i).task G) uid t

def step (k : Kernel) (G : Global) (ws : Fin n → Worker) (P : Workers n) (i : Fin n) :
    Option (Workers n) :=
  Proc.Pool.step (answerShared k) (fun i => (ws i).task G) P i

/-- A thread starts to update the statistics only while no other is doing it. -/
def Exclusive (G : Global) (ws : Fin n → Worker) (P : Workers n) (i : Fin n) : Prop :=
  Proc.Pool.Exclusive (fun i => (ws i).task G) P i

instance (G : Global) (ws : Fin n → Worker) (P : Workers n) (i : Fin n) :
    Decidable (P.Exclusive G ws i) :=
  inferInstanceAs (Decidable (Proc.Pool.Exclusive _ P i))

def Finished (P : Workers n) : Prop := ∀ i, (P.threads i).returned.isSome

instance (P : Workers n) : Decidable P.Finished :=
  inferInstanceAs (Decidable (∀ i, (P.threads i).returned.isSome = true))

def serial (k : Kernel) (G : Global) (ws : Fin n → Worker) (order : List (Fin n)) (w : World) :
    Option World :=
  order.foldlM (fun w i => (exec k ((ws i).execute G) w).map Prod.snd) w

end Workers

end RadosGateway
