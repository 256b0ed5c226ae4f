import RadosGateway.DirEntry

/-!
# Merging the shards of a bucket index

`RGWRados::cls_bucket_list` has every shard of the index list its entries and then picks the
smallest entry over all of them, one after another. It keeps an iterator into each answer and a map
from the names they are at to their positions. -/

namespace RadosGateway

open Text

structure ObjEnt where
  key : ObjKey
  ns : Bytes := []
  owner : Bytes
  ownerDisplayName : Bytes
  size : UInt64
  mtime : UTime
  etag : Bytes
  contentType : Bytes
  tag : Bytes
  flags : UInt32
  versionedEpoch : UInt64
  deriving DecidableEq

namespace BucketIndex

def objEnt (dirent : BucketDirEntry) : ObjEnt where
  key := dirent.key
  size := dirent.meta_.size
  mtime := dirent.meta_.mtime
  etag := dirent.meta_.etag
  owner := dirent.meta_.owner
  ownerDisplayName := dirent.meta_.ownerDisplayName
  contentType := dirent.meta_.contentType
  tag := dirent.tag
  flags := dirent.flags.toUInt32
  versionedEpoch := dirent.versionedEpoch

section Merge

variable {D E : Type}

/-- `rgw_cls_list_ret`: the answer of a shard. -/
structure ListRet (D : Type) where
  m : List (Bytes × D) := []
  isTruncated : Bool := false

/-- An iterator of a map as the entries from it on. One that is value-initialised is none of a map,
and its end is another such. -/
abbrev DirIter (D : Type) := Option (List (Bytes × D))

def DirIter.notAtEnd (it : DirIter D) : Bool := it.any fun entries => !entries.isEmpty

structure Merge (D E : Type) where
  vcurrents : List (DirIter D)
  candidates : List (Bytes × Nat)
  m : List (Bytes × E)

/-- `candidates[vcurrents[i]->first] = i`, unless the iterator is at its end. -/
def addCandidate (candidates : List (Bytes × Nat)) (it : DirIter D) (i : Nat) :
    List (Bytes × Nat) :=
  match it with
  | some ((name, _) :: _) => SortedMap.insert name i candidates
  | _ => candidates

def firstCurrents (results : List (ListRet D)) : List (DirIter D) :=
  List.replicate results.length none ++ results.map fun ret => some ret.m

def firstCandidates (vcurrents : List (DirIter D)) : List (Bytes × Nat) :=
  vcurrents.zipIdx.foldl (fun candidates it => addCandidate candidates it.1 it.2) []

/-- The loop, with the number of entries that may still be added. An iterator without an entry
cannot be read. -/
def mergeLoop (ent : D → E) : Nat → Merge D E → Option (Merge D E)
  | 0, s => some s
  | left + 1, s =>
    match s.candidates with
    | [] => some s
    | (_, pos) :: candidates =>
      match s.vcurrents[pos]? with
      | some (some ((name, dirent) :: rest)) =>
        mergeLoop ent left
          { vcurrents := s.vcurrents.set pos (some rest)
            candidates := addCandidate candidates (some rest) pos
            m := SortedMap.insert name (ent dirent) s.m }
      | _ => none

/-- `cls_bucket_list` from the answers on: the entries, whether there are more, and the last entry,
which is left alone if there is none. -/
def clsBucketList (ent : D → E) (numEntries : Nat) (results : List (ListRet D)) :
    Option (List (Bytes × E) × Bool × Option Bytes) := do
  let vcurrents := firstCurrents results
  let s ← mergeLoop ent numEntries
    { vcurrents := vcurrents, candidates := firstCandidates vcurrents, m := [] }
  let isTruncated := results.any ListRet.isTruncated || s.vcurrents.any DirIter.notAtEnd
  some (s.m, isTruncated, s.m.getLast?.map Prod.fst)

end Merge

end BucketIndex

end RadosGateway
