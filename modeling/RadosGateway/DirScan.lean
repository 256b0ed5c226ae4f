import RadosGateway.Listing

/-!
# The entries of a directory scan

`issue_bucket_list_op` with the whole entry that it fills in for a line of `ls`: the key, and the
size and the time of the last modification from `stat`. -/

namespace RadosGateway.DirScan

open Text Posix Listing

/-- What `stat` has about a place besides its contents. -/
structure StatHost where
  dirSize : Path → Nat
  mtime : Path → Int

structure DirEnt where
  key : Bytes
  size : Nat
  mtime : Int
  deriving DecidableEq

section

variable (host : StatHost) (t : FileTree)

/-- Whether a path is a directory, its size and its time. -/
def statEnt (path : Bytes) : Option (Bool × Nat × Int) :=
  (t.resolve (cstr path)).bind fun p => (t.node p).map fun
    | .dir => (true, host.dirSize p, host.mtime p)
    | .file data => (false, data.length, host.mtime p)

def addEntry (base head : Bytes) (m : List (Bytes × DirEnt)) (line : Bytes) :
    Option (List (Bytes × DirEnt)) :=
  if 256 ≤ line.length then none
  else match statEnt host t (base ++ head ++ line) with
    | none => some m
    | some (isDir, size, mtime) =>
      if 256 ≤ (fileName line isDir).length then none
      else some (SortedMap.insert (fileName line isDir) ⟨head ++ fileName line isDir, size,
        mtime⟩ m)

def readEntries (base head files : Bytes) : Option (List (Bytes × DirEnt)) := do
  let lines ← readLines (files.splitOn 10)
  lines.foldlM (addEntry host t base head) []

def issueBucketListOp (sh : ShellHost) (G : Global) (bucket _startObj filterPrefix : Bytes)
    (_numEntries : Nat) :
    Option (List (Bytes × DirEnt)) :=
  if 256 ≤ (indexBucket bucket).length ∨ 512 ≤ (lsCommand G bucket filterPrefix).length then none
  else match Listing.shellExecute sh (lsCommand G bucket filterPrefix) t with
    | none => none
    | some files =>
      if files = [] then some []
      else if 512 ≤ (testCommand G bucket filterPrefix).length then none
      else if filterPrefix = [] then readEntries host t (basePath G bucket) [] files
      else if shellSimple sh (testCommand G bucket filterPrefix) t then
        readEntries host t (basePath G bucket) (withSlash filterPrefix) files
      else readEntries host t (basePath G bucket) (dirPrefix filterPrefix) (basename files)

end

end RadosGateway.DirScan
