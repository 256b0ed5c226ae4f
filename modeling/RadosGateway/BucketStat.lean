import RadosGateway.Host

/-!
# The store's layout and the statistics of a bucket

A bucket is a directory below the configured root, an object a file below its bucket. Next to the
objects every bucket has a directory `.bucket` with a text file `stat`: the number of objects and
their sizes, one `name:value` line each. -/

namespace RadosGateway

open Text Posix

/-- The configuration values the object operations read. The two sizes are read with `atoi`. -/
structure Global where
  bucketsRoot : Bytes
  rgwMaxChunkSize : Nat
  rgwMaxPutSize : Int
  chunkSize_lt : rgwMaxChunkSize < 2 ^ 31

namespace Global

def bucketPath (G : Global) (bucket : Bytes) : Bytes := G.bucketsRoot ++ 47 :: bucket

def objectPath (G : Global) (bucket object : Bytes) : Bytes := G.bucketPath bucket ++ 47 :: object

def procBucketPath : Bytes := ascii ".bucket"

def procStat : Bytes := ascii "stat"

def statPath (G : Global) (bucket : Bytes) : Bytes :=
  G.bucketPath bucket ++ 47 :: procBucketPath ++ 47 :: procStat

end Global

structure SysInfo where
  totalSize : UInt64
  totalSizeRounded : UInt64
  numEntries : UInt64
  deriving DecidableEq

namespace SysInfo

def zero : SysInfo := ⟨0, 0, 0⟩

def signed (n : UInt64) : Int := toI64 n.toNat

/-- One line of the format of `sync_stat`, `name:%lld`. -/
def statLine (name : Bytes) (n : UInt64) : Bytes := name ++ 58 :: decimalInt (signed n)

def statText (info : SysInfo) : Bytes :=
  statLine (ascii "total_size") info.totalSize ++ 10 ::
  (statLine (ascii "num_entries") info.numEntries ++ 10 ::
  (statLine (ascii "total_size_rounded") info.totalSizeRounded ++ 10 :: []))

def widen (z : Int) : UInt64 := UInt64.ofInt z

/-- `sys_info::get_params`, for the fields of a bucket. -/
def getParams (info : SysInfo) (assign : Bytes × Bytes) : SysInfo :=
  if assign.1 = ascii "total_size" then { info with totalSize := widen (atoi assign.2) }
  else if assign.1 = ascii "total_size_rounded" then
    { info with totalSizeRounded := widen (atoi assign.2) }
  else if assign.1 = ascii "num_entries" then { info with numEntries := widen (atoi assign.2) }
  else info

end SysInfo

/-- What `%s` reads: the first run of non-blank bytes. -/
def firstToken (s : Bytes) : Bytes := (s.dropWhile isSpace).takeWhile fun c => !isSpace c

/-- `strip_space`; it runs off the front of a name of blanks. -/
def stripSpace (name : Bytes) : Option Bytes :=
  if name.all (· = 32) then none else some (name.reverse.dropWhile (· = 32)).reverse

/-- `%[^:]:%s`, unless one of the two conversions fails. -/
def scanAssign (delim : UInt8) (line : Bytes) : Option (Bytes × Bytes) :=
  let name := line.takeWhile (· ≠ delim)
  match line.dropWhile (· ≠ delim) with
  | [] => none
  | _ :: rest => if name = [] ∨ firstToken rest = [] then none else some (name, firstToken rest)

/-- The loop over the lines of a file: the assignments handed to the callback, and the return value.
`var` is what the previous round left in its buffer. Newlines are skipped behind every line. -/
def confLoop (delim : UInt8) (var : Bytes) : List Bytes → Option (List (Bytes × Bytes) × Int)
  | [] => some ([], 0)
  | line :: rest =>
    if line = [] then confLoop delim var rest
    else if 256 ≤ line.length then none
    else
      let buf := cstr line
      let var := if firstToken buf = [] then var else firstToken buf
      if var.head? = some 35 then
        -- a comment must be followed by a newline
        if rest = [] then some ([], -1) else confLoop delim var rest
      else
        match scanAssign delim buf with
        | none => some ([], -1)
        | some (name, value) =>
          match stripSpace name with
          | none => none
          | some name =>
            (confLoop delim name rest).map fun r => ((name, value) :: r.1, r.2)

/-- A file that starts with a newline is not read at all. -/
def confText (delim : UInt8) (text : Bytes) : Option (List (Bytes × Bytes) × Int) :=
  match text.splitOn 10 with
  | [] :: _ => some ([], 0)
  | lines => confLoop delim [] lines

/-- The statistics a text holds for a reader that starts from `info`. -/
def SysInfo.read (info : SysInfo) (text : Bytes) : Option SysInfo :=
  (confText 58 text).map fun r => r.1.foldl getParams info

/-- `parse_conf(path, &info, ":", get_params)`: the return value and the record. -/
def parseConf (path : Bytes) (info : SysInfo) : Prog (Int × SysInfo) := do
  match ← openFile (cstr path) .rdonly with
  | none => pure (-1, info)
  | some fd =>
    match ← readAll fd with
    | none => pure (0, info)
    | some text =>
      match confText 58 text with
      | none => .undef
      | some (assigns, r) => pure (r, assigns.foldl SysInfo.getParams info)

/-- `sys_info::sync_stat` of a whole record. -/
def syncStat (file : Bytes) (info : SysInfo) : Prog Int := do
  match ← openFile (cstr file) .creatTrunc with
  | none => pure (-1)
  | some fd =>
    fputs fd info.statText
    pure 0

def updateStat (G : Global) (bucket : Bytes) (f : SysInfo → SysInfo) : Prog Unit := do
  let head ← parseConf (G.statPath bucket) SysInfo.zero
  let _ ← syncStat (G.statPath bucket) (f head.2)

def SysInfo.addObject (size : UInt64) (info : SysInfo) : SysInfo :=
  { info with numEntries := info.numEntries + 1, totalSize := info.totalSize + size }

def SysInfo.removeObject (size : UInt64) (info : SysInfo) : SysInfo :=
  { info with numEntries := info.numEntries - 1, totalSize := info.totalSize - size }

end RadosGateway
