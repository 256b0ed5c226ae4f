import RadosGateway.Base.Thread
import RadosGateway.DeleteObj
import RadosGateway.GetObj
import RadosGateway.PutObj

/-!
# Whose files an operation touches

The file system uid belongs to a thread, and only its own calls of `setfsuid` change it. Any other
call is answered arbitrarily, since others change the store meanwhile.
-/

namespace RadosGateway

inductive ObjectOp where
  | get (auid : Nat) (req : GetRequest)
  | put (req : PutRequest)
  | delete (req : DeleteRequest)
  | copy (req : CopyRequest)

namespace ObjectOp

/-- `s->user.auid`, as a `uid_t`. -/
def uid : ObjectOp → Nat
  | get auid _ => uidT auid
  | put req => uidT req.auid
  | delete req => uidT req.auid
  | copy req => uidT req.auid

/-- `execute`, without what is told to the client. -/
def execute (G : Global) : ObjectOp → Prog Unit
  | get _ req => do
      let _ ← req.execute G
      pure ()
  | put req => do
      let _ ← req.execute G
      pure ()
  | delete req => do
      let _ ← req.execute G
      pure ()
  | copy req => do
      let _ ← req.execute G
      pure ()

end ObjectOp

namespace Sys

/-- The call opens, reads, writes, renames or removes a file. -/
def accesses : Sys → Bool
  | setfsuid _ => false
  | stat _ => false
  | chmod _ _ => false
  | openFile _ _ => true
  | write _ _ _ => true
  | pread _ _ _ => true
  | readAll _ => true
  | fputs _ _ => true
  | rename _ _ => true
  | shell _ => true

def fsuidAfter : Sys → Nat → Nat
  | setfsuid uid, _ => uid
  | _, fsuid => fsuid

def answers : (c : Sys) → Nat → c.Answer → Prop
  | setfsuid _, fsuid, old => old = fsuid
  | _, _, _ => True

end Sys

/-- Wherever a thread gets in the operation, it has the uid of the user when it accesses a file, and
the uid it had before when the operation has returned. -/
def ObjectOp.KeepsIdentity (G : Global) (op : ObjectOp) (fsuid : Nat) : Prop :=
  ∀ p fsuid', Proc.Reach Sys.answers Sys.fsuidAfter (op.execute G) fsuid p fsuid' →
    (∀ c k, p = .call c k → c.accesses → fsuid' = op.uid) ∧ (p = .done () → fsuid' = fsuid)

end RadosGateway
