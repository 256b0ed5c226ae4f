import RadosGateway.Quota

/-!
# Removing and copying objects

`RGWDeleteObj::execute` hands the path of the object to the store's command channel, which prints it
into a line for the shell. `RGWCopyObj::execute` renames the source. A removal always reports
success, a copy reports the `rename`.
-/

namespace RadosGateway

open Text

structure DeleteRequest where
  bucket : Bytes
  object : Bytes
  auid : Nat

def DeleteRequest.path (G : Global) (req : DeleteRequest) : Bytes :=
  cstr (G.objectPath req.bucket req.object)

def rmLine (path : Bytes) : Bytes := ascii "rm " ++ path ++ ascii " -rf"

def scmdSize : Nat := 256

def monCommandRm (path : Bytes) : Prog Int :=
  if scmdSize ≤ (rmLine path).length then .undef
  else do
    let _ ← popen (rmLine path)
    pure 0

def DeleteRequest.execute (G : Global) (req : DeleteRequest) : Prog Int := do
  let oldUid ← setfsuid (uidT req.auid)
  match ← statFile (req.path G) with
  | none =>
    let _ ← setfsuid oldUid
    pure 0
  | some size =>
    let r ← monCommandRm (req.path G)
    updateStat G req.bucket (SysInfo.removeObject (UInt64.ofNat size))
    let _ ← setfsuid oldUid
    pure r

inductive MetadataDirective where
  | absent
  | copy
  | replace
  | invalid
  deriving DecidableEq

structure CopyRequest where
  srcBucket : Bytes
  srcObject : Bytes
  srcInstance : Bytes := []
  bucket : Bytes
  object : Bytes
  auid : Nat
  directive : MetadataDirective := .absent
  sourceRange : Bool := false
  /-- `rgwx-source-zone`, `rgwx-client-id` and `rgwx-op-id` of a system request. -/
  sourceZone : Bytes := []
  clientId : Bytes := []
  opId : Bytes := []
  timesParse : Bool := true

def CopyRequest.getParams (req : CopyRequest) : Int :=
  if req.sourceRange then -Err.notImplemented
  else if req.sourceZone ≠ [] ∧ (req.clientId = [] ∨ req.opId = []) then -Err.einval
  else if req.directive = .invalid ∧ req.sourceZone = [] then -Err.einval
  else if req.sourceZone = [] ∧ req.bucket = req.srcBucket ∧ req.object = req.srcObject ∧
      req.srcInstance = [] ∧ req.directive ≠ .replace then -Err.invalidRequest
  else 0

def CopyRequest.srcPath (G : Global) (req : CopyRequest) : Bytes :=
  cstr (G.objectPath req.srcBucket req.srcObject)

def CopyRequest.dstPath (G : Global) (req : CopyRequest) : Bytes :=
  cstr (G.objectPath req.bucket req.object)

def CopyRequest.execute (G : Global) (req : CopyRequest) : Prog Int :=
  if !req.timesParse then pure (-Err.einval)
  else do
    let oldUid ← setfsuid (uidT req.auid)
    let r ← renameFile (req.srcPath G) (req.dstPath G)
    let _ ← setfsuid oldUid
    match r with
    | none => pure 0
    | some e => pure (-e.code)

end RadosGateway
