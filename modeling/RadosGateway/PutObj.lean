import RadosGateway.Quota

/-!
# Uploading an object

`RGWPutObj::execute` with the S3 object store's `get_data`. The request carries what the client
sends: a connection delivers segments of the body, a read takes at most what it asks for from the
first of them and leaves the rest.
-/

namespace RadosGateway

open Text

inductive Segment where
  | data (bytes : Bytes)
  | fail (r : Int) (negative : r < 0)
  deriving DecidableEq

structure PutRequest where
  bucket : Bytes
  object : Bytes
  auid : Nat
  multipart : Bool := false
  paramsRet : Int := 0
  length : Option Bytes := none
  input : List Segment
  quotas : Quotas := {}

/-- `cio->read` of at most `n` bytes. -/
def readInput (n : Nat) : List Segment → Except Int Bytes × List Segment
  | [] => (.ok [], [])
  | .fail r _ :: rest => (.error r, rest)
  | .data bytes :: rest =>
    (.ok (bytes.take n), if bytes.length ≤ n then rest else .data (bytes.drop n) :: rest)

def readSize (G : Global) (length : Option Bytes) (ofs : Nat) : Nat :=
  match length with
  | some l => min (toU64 (atoll (cstr l) - ofs)) G.rgwMaxChunkSize
  | none => G.rgwMaxChunkSize

def getData (G : Global) (length : Option Bytes) (ofs : Nat) (input : List Segment) :
    Except Int Bytes × List Segment :=
  let cl := readSize G length ofs
  match if cl = 0 then (.ok [], input) else readInput cl input with
  | (.error r, input) => (.error r, input)
  | (.ok data, input) =>
    if toU64 G.rgwMaxPutSize < toU64 (ofs + data.length) then (.error (-Err.tooLarge), input)
    else (.ok data, input)

/-- The checks before the object is opened: `ret` when one of them fails. `get_params` of the S3
class has no body: what it returns is not known, and `supplied_md5_b64` is null when it is tested.
-/
def PutRequest.early (req : PutRequest) : Option Int :=
  if req.object = [] then some (-Err.einval)
  else if req.paramsRet < 0 then some req.paramsRet
  else none

/-- The upload loop: `ret`, and the number of bytes received if the body ended. A failed write
leaves the loop without touching `ret`. -/
def putLoop (G : Global) (req : PutRequest) (fd : Fd) : Nat → Nat → Nat → List Segment →
    Prog (Int × Option Nat)
  | 0, _, _, _ => .undef
  | fuel + 1, ofs, pos, input =>
    match getData G req.length ofs input with
    | (.error r, _) => pure (r, none)
    | (.ok data, input) =>
      if data = [] then pure (0, some ofs)
      else do
        match ← writeFd fd (if req.multipart then none else some pos) data with
        | none => pure (0, none)
        | some n => putLoop G req fd fuel (ofs + data.length) (pos + n) input

def inputFuel (input : List Segment) : Nat :=
  (input.map fun s => match s with
    | .data bytes => bytes.length + 1
    | .fail _ _ => 1).sum + 1

structure PutExit where
  ret : Int
  objSize : UInt64 := 0
  oldUid : Nat := 0

def PutRequest.path (G : Global) (req : PutRequest) : Bytes :=
  cstr (G.objectPath req.bucket req.object)

def PutRequest.upload (G : Global) (req : PutRequest) : Prog PutExit :=
  match req.early with
  | some r => pure { ret := r }
  | none => do
      let oldUid ← setfsuid (uidT req.auid)
      match ← openFile (req.path G) (if req.multipart then .creatAppend else .creatTrunc) with
      | none => pure { ret := 0, oldUid }
      | some fd =>
        chmod (req.path G) 0o7777
        match ← putLoop G req fd (inputFuel req.input) 0 0 req.input with
        | (r, none) => pure { ret := r, oldUid }
        | (_, some ofs) =>
          let r ← checkQuota G req.quotas req.bucket (UInt64.ofNat ofs)
          pure { ret := r, objSize := UInt64.ofNat ofs, oldUid }

/-- `RGWPutObj::execute`: the result code the client is told. Every exit goes through the label
`done`, which counts one more object whatever happened before. -/
def PutRequest.execute (G : Global) (req : PutRequest) : Prog Int := do
  let exit ← req.upload G
  updateStat G req.bucket (SysInfo.addObject exit.objSize)
  let _ ← setfsuid exit.oldUid
  pure exit.ret

end RadosGateway
