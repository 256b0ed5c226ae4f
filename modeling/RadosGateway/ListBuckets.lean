import RadosGateway.Listing

/-!
# Listing the buckets of a user

`RGWListBuckets::execute` reads and sends the buckets chunk by chunk, until one is smaller than
asked for or a limit is reached. `cls_user_bucket_list` answers with every line that `ls` prints for
the directory of all buckets: it uses neither the user nor the marker nor the size of the chunk. -/

namespace RadosGateway

open Text Posix

structure BucketEnt where
  name : Bytes
  size : Nat := 0
  sizeRounded : Nat := 0
  creationTime : Int
  count : Nat := 0
  deriving DecidableEq

namespace ListBuckets

/-- What a line prints, where `ls` has no option. -/
def shellOutput (sh : ShellHost) (line : Bytes) (t : FileTree) : Bytes :=
  match Listing.simpleWords line with
  | some [cmd, operand] =>
    if cmd = ascii "ls" ∧ operand.head? ≠ some 45 then Listing.ls sh t operand else sh.output line t
  | _ => sh.output line t

def shellExecute (sh : ShellHost) (line : Bytes) (t : FileTree) : Option Bytes :=
  let ret := (shellOutput sh line t).take 512
  if ret.length < 512 ∨ 0 ∈ ret then some (cstr ret) else none

/-- The parts of a string that `boost::split` finds between runs of newlines. In a run there is no
part yet. -/
def splitFrom : Option Bytes → Bytes → List Bytes
  | none, [] => [[]]
  | some part, [] => [part]
  | none, c :: s => if c = 10 then splitFrom none s else splitFrom (some [c]) s
  | some part, c :: s => if c = 10 then part :: splitFrom none s
    else splitFrom (some (part ++ [c])) s

def split (s : Bytes) : List Bytes := splitFrom (some []) s

/-- What is not in the files of the host: the creation time of the directory of buckets, and the
value of a variable that nothing was assigned to. -/
structure Surroundings where
  creationTime : Int
  rc : Int

section

variable (sh : ShellHost) (t : FileTree) (G : Global) (env : Surroundings)

def lsCommand : Bytes := ascii "ls " ++ cstr G.bucketsRoot

/-- `RGWRados::cls_user_list_buckets` with `cls_user_bucket_list`: the result, and the entries with
those that it appends. If nothing is printed the result is not assigned. -/
def clsUserListBuckets (_inMarker : Bytes) (_maxEntries : Nat) (entries : List BucketEnt) :
    Option (Int × List BucketEnt) :=
  if 512 ≤ (lsCommand G).length then none
  else (shellExecute sh (lsCommand G) t).map fun files =>
    if files = [] then (if env.rc < 0 then env.rc else 0, entries)
    else (0, entries ++ (split files).map fun name =>
      { name := name, creationTime := env.creationTime })

abbrev UserBuckets := List (Bytes × BucketEnt)

def add (buckets : UserBuckets) (e : BucketEnt) : UserBuckets := SortedMap.insert e.name e buckets

/-- `rgw_read_user_buckets`. Nothing ever sets `truncated`, so the body of its loop is run once. -/
def readUserBuckets (marker : Bytes) (max defaultAmount : Nat) : Option (Except Int UserBuckets) :=
  let max := if max = 0 then defaultAmount else max
  (clsUserListBuckets sh t G env marker max []).map fun (ret, entries) =>
    let ret := if ret = -Errno.enoent.code then 0 else ret
    if ret < 0 then .error ret else .ok (entries.foldl add [])

inductive Response
  | start (hasBuckets : Bool)
  | data (buckets : UserBuckets)
  | finish
  deriving DecidableEq

structure Progress where
  marker : Bytes := []
  started : Bool := false
  totalCount : Nat := 0
  bucketsCount : Nat := 0
  bucketsSize : Nat := 0
  bucketsSizeRounded : Nat := 0
  bucketsObjcount : Nat := 0
  ret : Int := 0
  sent : List Response := []
  deriving DecidableEq

variable (limit : Int) (maxBuckets : Nat)

/-- With a limit the loop goes on only while the total is below it, so the difference is no less
than zero. -/
def readCount (p : Progress) : Nat :=
  if 0 ≤ limit then min (limit.toNat - p.totalCount) maxBuckets else maxBuckets

def countBuckets (m : UserBuckets) (p : Progress) : Progress :=
  { p with
    bucketsSize := p.bucketsSize + (m.map fun e => e.2.size).sum
    bucketsSizeRounded := p.bucketsSizeRounded + (m.map fun e => e.2.sizeRounded).sum
    bucketsObjcount := p.bucketsObjcount + (m.map fun e => e.2.count).sum
    marker := (m.getLast?.map Prod.fst).getD p.marker
    bucketsCount := (p.bucketsCount + m.length) % 2 ^ 32
    totalCount := p.totalCount + m.length
    ret := 0 }

def sendChunk (m : UserBuckets) (p : Progress) : Progress :=
  let p := if p.started then p
    else { p with sent := p.sent ++ [.start (m.length > 0)], started := true }
  if m.isEmpty then p else { p with sent := p.sent ++ [.data m] }

def executeLoop : Nat → Progress → Option Progress
  | 0, _ => none
  | fuel + 1, p =>
    match readUserBuckets sh t G env p.marker (readCount limit maxBuckets p) 0 with
    | none => none
    | some (.error ret) => some { p with ret := ret }
    | some (.ok m) =>
      let p' := countBuckets m p
      let done := m.length < readCount limit maxBuckets p ∨
        (0 ≤ limit ∧ limit.toNat ≤ p'.totalCount)
      let p' := sendChunk m p'
      if done then some p' else executeLoop fuel p'

/-- `RGWListBuckets::execute` behind its parameters, which give the limit. -/
def execute (fuel : Nat) : Option (List Response) :=
  (executeLoop sh t G env limit maxBuckets fuel {}).map fun p =>
    (if p.started then p.sent else p.sent ++ [.start false]) ++ [.finish]

end

end ListBuckets

end RadosGateway
