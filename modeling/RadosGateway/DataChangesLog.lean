import RadosGateway.Base.Bytes

/-!
# The log of changed buckets

`RGWDataChangesLog` notes which bucket shards have changed. A call of `add_entry` writes a record,
or waits for a call that is writing one, or, shortly after a record, leaves it to the thread that
renews the records of the current cycle. `list_entries` lists the records, shard by shard. -/

namespace RadosGateway.DataChangesLog

open Text

structure BucketShard where
  name : Bytes
  bucketId : Bytes
  shardId : Int
  deriving DecidableEq

structure Config where
  logData : Bool
  numShards : Nat
  hash : Bytes → Nat
  window : Nat
  changesSize : Nat

def chooseOid (cfg : Config) (bs : BucketShard) : Nat :=
  let shardShift := if 0 < bs.shardId then bs.shardId.toNat else 0
  (cfg.hash bs.name + shardShift) % 2 ^ 32 % cfg.numShards

def changeKey (bs : BucketShard) : Bytes :=
  bs.name ++ 58 :: bs.bucketId ++ if 0 ≤ bs.shardId then 58 :: decimalInt bs.shardId else []

/-- An entry of the log object with the number `oid`. -/
structure Record where
  oid : Nat
  timestamp : Nat
  key : Bytes
  change : Bytes
  deriving DecidableEq

structure ChangeStatus where
  curExpiration : Nat := 0
  curSent : Nat := 0
  pending : Bool := false
  cond : Option Nat := none
  deriving DecidableEq

/-- What the threads share. Status records and conditions are named by their place; a condition is
complete when it has a value. -/
structure Memory where
  /-- `lru_map`, the entry used last first. -/
  changes : List (BucketShard × Nat) := []
  statuses : List ChangeStatus := []
  conds : List (Option Int) := []
  curCycle : List BucketShard := []
  log : List Record := []
  deriving DecidableEq

def getChange (cfg : Config) (m : Memory) (bs : BucketShard) : Nat × Memory :=
  match m.changes.find? (·.1 = bs) with
  | some (_, p) => (p, { m with changes := (bs, p) :: m.changes.eraseP (·.1 = bs) })
  | none =>
    (m.statuses.length,
      { m with statuses := m.statuses ++ [{}]
               changes := ((bs, m.statuses.length) :: m.changes).take cfg.changesSize })

def setStatus (m : Memory) (p : Nat) (st : ChangeStatus) : Memory :=
  { m with statuses := m.statuses.set p st }

def registerRenew (m : Memory) (bs : BucketShard) : Memory :=
  { m with curCycle := if bs ∈ m.curCycle then m.curCycle else m.curCycle ++ [bs] }

def updateRenewed (cfg : Config) (m : Memory) (bs : BucketShard) (expiration : Nat) : Memory :=
  let r := getChange cfg m bs
  match r.2.statuses[r.1]? with
  | some st => setStatus r.2 r.1 { st with curExpiration := expiration }
  | none => r.2

/-- What a step gets from outside: two readings of the clock, and the error of `time_log_add`. -/
structure Input where
  now : Nat := 0
  later : Nat := 0
  err : Option Nat := none
  deriving DecidableEq

def Input.ret (inp : Input) : Int :=
  match inp.err with
  | none => 0
  | some e => -(e + 1)

inductive Caller where
  | entered (bs : BucketShard)
  | found (bs : BucketShard) (status : Nat)
  | registering (bs : BucketShard)
  | waiting (bs : BucketShard) (cond : Nat)
  | sending (bs : BucketShard) (status now : Nat)
  | sent (bs : BucketShard) (status expiration : Nat) (ret : Int)
  | signalling (bs : BucketShard) (cond : Nat) (ret : Int)
  | returned (bs : BucketShard) (ret : Int)
  deriving DecidableEq

def addRecord (cfg : Config) (bs : BucketShard) (now : Nat) : Record :=
  { oid := chooseOid cfg bs, timestamp := now, key := changeKey bs, change := changeKey bs }

def Caller.step (cfg : Config) (inp : Input) (m : Memory) : Caller → Option (Caller × Memory)
  | entered bs =>
    let r := getChange cfg m bs
    some (found bs r.1, r.2)
  | found bs p => do
      let st ← m.statuses[p]?
      -- no need to send, recently completed
      if inp.now < st.curExpiration then some (registering bs, m)
      else if st.pending then do
        let c ← st.cond
        some (waiting bs c, m)
      else
        let st := { st with cond := some m.conds.length, pending := true, curSent := inp.now }
        some (sending bs p inp.now, { setStatus m p st with conds := m.conds ++ [none] })
  | registering bs => some (returned bs 0, registerRenew m bs)
  | waiting bs c =>
    match m.conds[c]? with
    | some (some ret) => some (if ret = 0 then registering bs else returned bs ret, m)
    | _ => none
  | sending bs p now =>
    some (sent bs p (now + cfg.window) inp.ret,
      if inp.ret = 0 then { m with log := m.log ++ [addRecord cfg bs now] } else m)
  | sent bs p expiration ret => do
      let st ← m.statuses[p]?
      if ret = 0 ∧ expiration < inp.later then
        some (sending bs p inp.now, setStatus m p { st with curSent := inp.now })
      else do
        let c ← st.cond
        -- the time of when the operation started, not completed
        some (signalling bs c ret, setStatus m p { st with
          pending := false, curExpiration := st.curSent + cfg.window, cond := none })
  | signalling bs c ret => some (returned bs ret, { m with conds := m.conds.set c (some ret) })
  | returned _ _ => none

/-- Where the renewing thread stands. The batches are what is left to send, by log object. -/
inductive Renewer where
  | idle
  | sending (ut : Nat) (batches : List (Nat × List BucketShard))
  | updating (ut : Nat) (shards : List BucketShard) (expiration : Nat)
      (batches : List (Nat × List BucketShard))
  deriving DecidableEq

/-- `m[index].push_back(bs)`, on a map in the order of its keys. -/
def pushBatch (i : Nat) (bs : BucketShard) : List (Nat × List BucketShard) →
    List (Nat × List BucketShard)
  | [] => [(i, [bs])]
  | (j, l) :: rest =>
    if i < j then (i, [bs]) :: (j, l) :: rest
    else if i = j then (j, l ++ [bs]) :: rest
    else (j, l) :: pushBatch i bs rest

def batches (cfg : Config) (entries : List BucketShard) : List (Nat × List BucketShard) :=
  entries.foldl (fun m bs => pushBatch (chooseOid cfg bs) bs m) []

def renewRecord (oid ut : Nat) (bs : BucketShard) : Record :=
  { oid, timestamp := ut, key := bs.name, change := changeKey bs }

def Renewer.step (cfg : Config) (inp : Input) (m : Memory) : Renewer → Renewer × Memory
  | idle =>
    if cfg.logData then (sending inp.now (batches cfg m.curCycle), { m with curCycle := [] })
    else (idle, m)
  | sending _ [] => (idle, m)
  | sending ut ((oid, shards) :: rest) =>
    -- what was to be renewed is forgotten
    if inp.ret < 0 then (idle, m)
    else (updating ut shards (inp.now + cfg.window) rest,
      { m with log := m.log ++ shards.map (renewRecord oid ut) })
  | updating ut [] _ rest => (sending ut rest, m)
  | updating ut (bs :: shards) expiration rest =>
    (updating ut shards expiration rest, updateRenewed cfg m bs expiration)

structure State where
  mem : Memory := {}
  callers : List Caller := []
  renewer : Renewer := .idle
  deriving DecidableEq

inductive Label where
  | call (bs : BucketShard)
  | step (i : Nat) (inp : Input)
  | renew (inp : Input)
  deriving DecidableEq

def step (cfg : Config) (s : State) : Label → Option State
  | .call bs =>
    some { s with callers := s.callers ++ [if cfg.logData then .entered bs else .returned bs 0] }
  | .step i inp => (s.callers[i]?.bind (Caller.step cfg inp s.mem)).map fun r =>
    { s with mem := r.2, callers := s.callers.set i r.1 }
  | .renew inp =>
    let r := s.renewer.step cfg inp s.mem
    some { s with mem := r.2, renewer := r.1 }

structure Run (cfg : Config) where
  state : ℕ → State
  label : ℕ → Label
  start : state 0 = {}
  next : ∀ n, step cfg (state n) (label n) = some (state (n + 1))

def Record.For (cfg : Config) (r : Record) (bs : BucketShard) : Prop :=
  r.oid = chooseOid cfg bs ∧ r.change = changeKey bs

namespace Run

variable {cfg : Config}

def Renews (r : Run cfg) : Prop := ∀ n, ∃ m ≥ n, ∃ inp, r.label m = .renew inp

def Writes (r : Run cfg) (bs : BucketShard) (n : ℕ) : Prop :=
  ∃ rec ∈ (r.state (n + 1)).mem.log.drop (r.state n).mem.log.length, rec.For cfg bs

def Fails (r : Run cfg) (n : ℕ) : Prop :=
  (∃ i inp bs p now, r.label n = .step i inp ∧ (r.state n).callers[i]? = some (.sending bs p now) ∧
      inp.ret < 0) ∨
    ∃ inp ut b rest, r.label n = .renew inp ∧ (r.state n).renewer = .sending ut (b :: rest) ∧
      inp.ret < 0

/-- In the step a `time_log_add` of the renewing thread fails. -/
def RenewalFails (r : Run cfg) (n : ℕ) : Prop :=
  ∃ inp ut b rest, r.label n = .renew inp ∧ (r.state n).renewer = .sending ut (b :: rest) ∧
    inp.ret < 0

end Run

end RadosGateway.DataChangesLog

namespace RadosGateway.DataLogListing

open Text

variable {α : Type}

def ENOENT : Int := 2

/-- What `time_log_list` answers: its result and, if that is not an error, records and whether there
are more. -/
structure Answer (α : Type) where
  ret : Int := 0
  entries : List α := []
  truncated : Bool := false

/-- A shard of the log, which the object store keeps: what `time_log_list` answers for a number of
entries and a marker, and the records that are in it, if its object exists. From its beginning the
first records are listed, as many as are asked for. -/
structure Shard (α : Type) where
  timeLogList : Nat → Bytes → Answer α
  contents : Option (List α)
  missing : contents = none → ∀ n, timeLogList n [] = { ret := -ENOENT }
  listed : ∀ log, contents = some log → ∀ n, timeLogList n [] = ⟨0, log.take n, n < log.length⟩

structure LogMarker where
  shard : Nat := 0
  marker : Bytes := []

/-- What `list_entries` gives: the result, the entries, the marker and `truncated`, if that is set.
-/
structure Listed (α : Type) where
  ret : Int
  entries : List α
  marker : LogMarker
  truncated : Option Bool

/-- The loop of `list_entries`, by the shards from `marker.shard` on. `out_marker` is not asked for.
-/
def listLoop (maxEntries : Nat) : List (Shard α) → LogMarker → List α → Listed α
  | [], marker, entries => ⟨0, entries, marker, some false⟩
  | shard :: rest, marker, entries =>
    if entries.length < maxEntries then
      let answer := shard.timeLogList (maxEntries - entries.length) marker.marker
      if answer.ret = -ENOENT then listLoop maxEntries rest ⟨marker.shard + 1, []⟩ entries
      else if answer.ret < 0 then ⟨answer.ret, entries, marker, none⟩
      else if answer.truncated then ⟨0, entries ++ answer.entries, marker, some true⟩
      else listLoop maxEntries rest ⟨marker.shard + 1, []⟩ (entries ++ answer.entries)
    else ⟨0, entries, marker, some true⟩

def listEntries (shards : List (Shard α)) (maxEntries : Nat) (marker : LogMarker) : Listed α :=
  listLoop maxEntries (shards.drop marker.shard) marker []

end RadosGateway.DataLogListing
