import RadosGateway.Base.SortedMap
import RadosGateway.Names
import RadosGateway.ObjectName
import RadosGateway.Store

/-!
# Listing a bucket

`RGWRados::Bucket::List::list_objects` asks for the entries of the bucket's index from a marker on,
`cls_bucket_list` hands the question to the index, and `issue_bucket_list_op` answers it by having
the shell list a directory. This last function reads neither the marker nor the limit. -/

namespace RadosGateway

open Text Posix

/-- What the listing sees of the shell: the order in which `ls` prints names, and the reaction to a
line that is not one of the two commands below. Assumption: such a line, which a prefix with a quote
or another character of the shell can make, ends and leaves the tree as it is. -/
structure ShellHost where
  collate : Finset Bytes → List Bytes
  mem_collate : ∀ {names : Finset Bytes} {c : Bytes}, c ∈ collate names ↔ c ∈ names
  output : Bytes → FileTree → Bytes
  succeeds : Bytes → FileTree → Bool

namespace Listing

/-- The words of a line that is a simple command without patterns. -/
def simpleWords (line : Bytes) : Option (List Bytes) :=
  match Shell.lex .bare none line with
  | none => none
  | some ws => if ws.any Shell.isPattern then none else some (ws.map Shell.Word.bytes)

def isDirectory (t : FileTree) (path : Bytes) : Bool :=
  (t.resolve path).any fun p => t.node p = some .dir

/-- The names in a directory that do not start with a dot. -/
def visible (t : FileTree) (p : Path) : Finset Bytes :=
  ((t.places.filter fun q => q ≠ [] ∧ q.tail = p).image List.headI).filter (·.head? ≠ some 46)

/-- What `ls -1` prints for one operand. -/
def ls (sh : ShellHost) (t : FileTree) (operand : Bytes) : Bytes :=
  match t.resolve operand with
  | none => []
  | some p =>
    match t.node p with
    | none => []
    | some (.file _) => operand ++ [10]
    | some .dir => (sh.collate (visible t p)).flatMap (· ++ [10])

def shellOutput (sh : ShellHost) (line : Bytes) (t : FileTree) : Bytes :=
  match simpleWords line with
  | some [cmd, option, operand] =>
    if cmd = ascii "ls" ∧ option = ascii "-1" ∧ operand.head? ≠ some 45 then ls sh t operand
    else sh.output line t
  | _ => sh.output line t

def shellSimple (sh : ShellHost) (line : Bytes) (t : FileTree) : Bool :=
  match simpleWords line with
  | some [cmd, option, operand, close] =>
    if cmd = ascii "[" ∧ option = ascii "-d" ∧ close = ascii "]" then isDirectory t operand
    else sh.succeeds line t
  | _ => sh.succeeds line t

/-- `shell_execute` reads into 512 bytes and takes them as a C string, which has to end in them. -/
def shellExecute (sh : ShellHost) (line : Bytes) (t : FileTree) : Option Bytes :=
  let ret := (shellOutput sh line t).take 512
  if ret.length < 512 ∨ 0 ∈ ret then some (cstr ret) else none

/-- `dirname`. Two slashes in front are kept, more are one. -/
def dirname (path : Bytes) : Bytes :=
  let rootOf (slashes : Bytes) : Bytes := if slashes.length = 2 then ascii "//" else ascii "/"
  let name := trimSlashes path
  if name = [] then if path = [] then ascii "." else rootOf path
  else if 47 ∉ name then ascii "."
  else
    let upTo := (name.reverse.dropWhile (· ≠ 47)).reverse
    if trimSlashes upTo = [] then rootOf upTo else trimSlashes upTo

/-- `basename`, as `libgen.h` has it. -/
def basename (path : Bytes) : Bytes :=
  let name := trimSlashes path
  if path = [] then ascii "."
  else if name = [] then ascii "/"
  else (name.reverse.takeWhile (· ≠ 47)).reverse

/-- The bucket that `sscanf` with `.dir.%s` finds in the name of its index. -/
def indexBucket (bucket : Bytes) : Bytes := ((cstr bucket).dropWhile isSpace).takeWhile fun c =>
    !isSpace c

def basePath (G : Global) (bucket : Bytes) : Bytes :=
  G.bucketsRoot ++ ascii "/" ++ indexBucket bucket ++ ascii "/"

def scannedPath (G : Global) (bucket filterPrefix : Bytes) : Bytes :=
  cstr G.bucketsRoot ++ ascii "/" ++ indexBucket bucket ++ ascii "/" ++ cstr filterPrefix

def lsCommand (G : Global) (bucket filterPrefix : Bytes) : Bytes :=
  ascii "ls -1 '" ++ scannedPath G bucket filterPrefix ++ ascii "'"

def testCommand (G : Global) (bucket filterPrefix : Bytes) : Bytes :=
  ascii "[ -d '" ++ scannedPath G bucket filterPrefix ++ ascii "' ]"

/-- The lines that `sscanf` with `%[^\n]s` reads one after another: an empty one ends the loop, and
reading on after one that no newline ends is undefined. -/
def readLines : List Bytes → Option (List Bytes)
  | [] => some []
  | [rest] => if rest = [] then some [] else none
  | line :: rest => if line = [] then some [] else (readLines rest).map (line :: ·)

/-- `stat`: whether the path is a directory. -/
def statKind (t : FileTree) (path : Bytes) : Option Bool :=
  (t.resolve (cstr path)).bind fun p => (t.node p).map (· = .dir)

/-- The name under which a line goes into the index: directories get a slash. -/
def fileName (line : Bytes) (isDir : Bool) : Bytes := line ++ if isDir then ascii "/" else []

/-- The index as the listing builds it: from the name of a file to its key. -/
abbrev DirMap := List (Bytes × Bytes)

/-- One turn of the loop: `file_name` has room for 255 bytes. -/
def addLine (t : FileTree) (base head : Bytes) (m : DirMap) (line : Bytes) : Option DirMap :=
  if 256 ≤ line.length then none
  else match statKind t (base ++ head ++ line) with
    | none => some m
    | some isDir =>
      if 256 ≤ (fileName line isDir).length then none
      else some (SortedMap.insert (fileName line isDir) (head ++ fileName line isDir) m)

def readFiles (t : FileTree) (base head files : Bytes) : Option DirMap := do
  let lines ← readLines (files.splitOn 10)
  lines.foldlM (addLine t base head) []

/-- The directory part of a prefix that is not a directory. -/
def dirPrefix (filterPrefix : Bytes) : Bytes :=
  let dir := dirname (cstr filterPrefix) ++ ascii "/"
  if dir = ascii "./" then [] else dir

def withSlash (path : Bytes) : Bytes := if path.getLast? = some 47 then path else path ++ ascii "/"

/-- `issue_bucket_list_op`: the operation is filled with the marker and the limit and never sent. -/
def issueBucketListOp (sh : ShellHost) (t : FileTree) (G : Global) (bucket _startObj : Bytes)
    (filterPrefix : Bytes) (_numEntries : Nat) : Option DirMap :=
  if 256 ≤ (indexBucket bucket).length ∨ 512 ≤ (lsCommand G bucket filterPrefix).length then none
  else match shellExecute sh (lsCommand G bucket filterPrefix) t with
    | none => none
    | some files =>
      if files = [] then some []
      else if 512 ≤ (testCommand G bucket filterPrefix).length then none
      else if filterPrefix = [] then readFiles t (basePath G bucket) [] files
      else if shellSimple sh (testCommand G bucket filterPrefix) t then
        readFiles t (basePath G bucket) (withSlash filterPrefix) files
      else readFiles t (basePath G bucket) (dirPrefix filterPrefix) (basename files)

/-- `cls_bucket_list` over the one shard that buckets have: the entries, whether there are more, and
the last entry. Assumption: `open_bucket_index` has succeeded, that is, the directory of the bucket
exists and the line `[ -d root/bucket ]` fits into 256 bytes (a path of at most 248). -/
def clsBucketList (sh : ShellHost) (t : FileTree) (G : Global) (bucket start filterPrefix : Bytes)
    (numEntries : Nat) : Option (DirMap × Bool × Option Bytes) := do
  let dir ← issueBucketListOp sh t G bucket start filterPrefix numEntries
  let m := dir.take numEntries
  some (m, numEntries < dir.length, m.getLast?.map Prod.fst)

/-- `rgw_obj::get_index_key_name` of an object without a namespace. -/
def indexKeyName (name : Bytes) : Bytes := if name.head? = some 95 then ascii "_" ++ name else name

def findStr (pat : Bytes) : Bytes → Option Nat
  | [] => if pat = [] then some 0 else none
  | c :: s => if pat <+: c :: s then some 0 else (findStr pat s).map (· + 1)

/-- `find` of the delimiter in a name, behind the prefix. -/
def delimPos (delim name : Bytes) (start : Nat) : Option Nat :=
  if delim = [] then none else (findStr delim (name.drop start)).map (· + start)

structure Params where
  keyPrefix : Bytes
  delim : Bytes
  marker : Bytes
  endMarker : Bytes := []

/-- The delimiter with its character replaced by the next one. -/
def biggerThanDelim (delim : Bytes) : Option Bytes :=
  if delim = [] then some [] else ((decodeUtf8 delim).bind fun val => encodeUtf8 (val + 1)).map cstr

/-- A marker that points at a common prefix is moved behind everything it stands for. -/
def startMarker (params : Params) (bigger : Bytes) : Bytes :=
  let name := indexKeyName params.marker
  match delimPos params.delim name params.keyPrefix.length with
  | none => name
  | some pos => name.take pos ++ bigger

structure Found where
  count : Nat := 0
  truncated : Bool := true
  skipAfterDelim : Bytes := []
  nextMarker : Bytes := []
  result : List Bytes := []
  commonPrefixes : List (Bytes × Bool) := []
  deriving DecidableEq

/-- The entry `name`, which lies behind the prefix and in the namespace: it is a common prefix or a
result, and the flag says that the loop is left. -/
def addName (params : Params) (max : Nat) (bigger name : Bytes) (found : Found) : Found × Bool :=
  match delimPos params.delim name params.keyPrefix.length with
  | some pos =>
    if name.take (pos + 1) ∈ SortedMap.keys found.commonPrefixes then (found, false)
    else if max ≤ found.count then ({ found with truncated := true }, true)
    else
      let found := { found with
        nextMarker := name.take (pos + 1),
        commonPrefixes := SortedMap.insert (name.take (pos + 1)) true found.commonPrefixes,
        skipAfterDelim := name.take pos ++ bigger,
        count := found.count + 1 }
      (found, false)
  | none =>
    if max ≤ found.count then ({ found with truncated := true }, true)
    else ({ found with result := found.result ++ [name], count := found.count + 1 }, false)

def visitEntry (params : Params) (max : Nat) (bigger key : Bytes) (found : Found) : Found × Bool :=
  match RgwObj.parseRawOid key with
  | none => (found, false)
  | some obj =>
    if obj.ns ≠ [] then (found, false)
    else if params.endMarker ≠ [] ∧ ¬ obj.name < indexKeyName params.endMarker then
      ({ found with truncated := false }, true)
    else
      let found := if found.count < max then { found with nextMarker := obj.name } else found
      if params.keyPrefix <+: obj.name then addName params max bigger obj.name found
      else (found, false)

def visit (params : Params) (max : Nat) (bigger : Bytes) : List Bytes → Found → Found × Bool
  | [], found => (found, false)
  | key :: keys, found =>
    match visitEntry params max bigger key found with
    | (found, true) => (found, true)
    | (found, false) => visit params max bigger keys found

section ListObjects

variable (sh : ShellHost) (t : FileTree) (G : Global) (bucket : Bytes) (params : Params) (max : Nat)

def listLoop (bigger : Bytes) : Nat → Bytes → Found → Option Found
  | 0, _, _ => none
  | fuel + 1, curMarker, found =>
    if found.truncated ∧ found.count ≤ max then
      let curMarker := if curMarker < found.skipAfterDelim then found.skipAfterDelim else curMarker
      match clsBucketList sh t G bucket curMarker (indexKeyName params.keyPrefix)
          (max + 1 - found.count) with
      | none => none
      | some (m, more, last) =>
        match visit params max bigger (m.map Prod.snd) found with
        | (found, true) => some found
        | (found, false) =>
          listLoop bigger fuel (last.getD curMarker) { found with truncated := more }
    else some found

def listObjects (fuel : Nat) : Option (Except Int Found) :=
  if bucket.head? = some 46 then some (.error (-Err.einval))
  else match biggerThanDelim params.delim with
    | none => some (.error (-Err.einval))
    | some bigger =>
      (listLoop sh t G bucket params max bigger fuel (startMarker params bigger) {}).map .ok

end ListObjects

end Listing

end RadosGateway
