import RadosGateway.Proof.Accounting
import RadosGateway.Proof.AclRoundTrip
import RadosGateway.Proof.GetObjData
import RadosGateway.Proof.KeyListing
import RadosGateway.Proof.Permission
import RadosGateway.Proof.PutRoundTrip
import RadosGateway.Proof.RoundTrip

/-!
# Parts together

A download finds what was uploaded last, a reader works on the stripes that a writer leaves, a
listing on an index in shards, and a policy decides after it was stored as a document. -/

namespace RadosGateway

open List Text

namespace PutProcessor

open GetObjData Transition
open Pieces hiding Chain span

/-- An upload whose last piece does not overrun its stripe, and the size of the pieces it is read
in. -/
structure FittingUpload where
  chunk : Nat
  stripe : Nat
  head : Location
  rand : Bytes
  calls : List Bytes
  maxChunk : Nat
  chunk_pos : 0 < chunk
  chunk_le : chunk ≤ stripe
  maxChunk_pos : 0 < maxChunk
  fits : ¬ Overruns chunk stripe calls

theorem not_overruns_eleven : ¬ Overruns 4 6 [ascii "01234567", ascii "89a"] := by
  rintro ⟨-, j, hlt, hover, -⟩
  have hfirst : ([ascii "01234567", ascii "89a"].dropLast.flatten).length = 8 := by decide
  have hall : ([ascii "01234567", ascii "89a"].flatten).length = 11 := by decide
  rw [lastCut, hfirst] at hlt
  rw [hall] at hover
  omega

/-- Eleven bytes in two calls, with chunks of four and stripes of six. -/
def elevenBytes : FittingUpload where
  chunk := 4
  stripe := 6
  head := ⟨[], ascii "o"⟩
  rand := ascii "r"
  calls := [ascii "01234567", ascii "89a"]
  maxChunk := 4
  chunk_pos := by decide
  chunk_le := by decide
  maxChunk_pos := by decide
  fits := not_overruns_eleven

end PutProcessor

namespace KeyListing

open BucketIndex SortedMap

/-- Keys whose entries lie in the shards of an index, each in the one that its name gives. -/
structure ShardedKeys extends KeySet where
  count : Nat
  shardOf : Bytes → Fin count
  dirent : Bytes → BucketDirEntry
  entry_eq : ∀ k, entry k = objEnt (dirent k)

namespace ShardedKeys

variable (K : ShardedKeys) (start pre : Bytes)

def dirents (p : Bytes → Bool) : List (Bytes × BucketDirEntry) :=
  ((K.behind start pre).filter p).map fun k => (Listing.indexKeyName k, K.dirent k)

/-- A shard lists the first of its entries. -/
def shard (n : Nat) (p : Bytes → Bool) : Shard BucketDirEntry where
  contents := K.dirents start pre p
  ret := ⟨(K.dirents start pre p).take n, n < (K.dirents start pre p).length⟩
  sorted := by
    rw [Sorted, SortedMap.keys, dirents, map_map, pairwise_map]
    exact (K.sorted.sublist (filter_sublist.trans filter_sublist)).imp indexKeyName_lt
  listed := take_prefix ..
  flag := by simp

def shards (n : Nat) : List (Shard BucketDirEntry) :=
  (finRange K.count).map fun i => K.shard start pre n (K.shardOf · = i)

def shardedIndex : ListObjects.Index := fun start pre n _ =>
  (clsBucketList objEnt n ((K.shards start.name pre n).map Shard.ret)).map fun r =>
    ⟨r.1, r.2.1, r.2.2⟩

theorem disjoint_shards (n : Nat) : BucketIndex.Disjoint (K.shards start pre n) := by
  rw [BucketIndex.Disjoint, shards, pairwise_map]
  refine (nodup_finRange _).imp fun hne e he e' he' heq => hne ?_
  obtain ⟨k, hk, rfl⟩ := mem_map.mp he
  obtain ⟨k', hk', rfl⟩ := mem_map.mp he'
  -- Index keys that are the same come from the same key.
  have hparsed := congrArg RgwObj.parseRawOid heq
  rw [parseRawOid_indexKeyName, parseRawOid_indexKeyName] at hparsed
  cases hparsed
  exact (of_decide_eq_true (mem_filter.mp hk).2).symm.trans
    (of_decide_eq_true (mem_filter.mp hk').2)

/-- Whatever shards the entries lie in, the merged answers are those of an index in one piece. -/
theorem shardedIndex_eq_index : K.shardedIndex = K.index := by
  funext start pre n v
  let whole := K.shard start.name pre n fun _ => true
  have hwhole (e) :
      (∃ i ∈ finRange K.count, e ∈ K.dirents start.name pre (K.shardOf · = i)) ↔
        e ∈ whole.contents := by
    simp [whole, shard, dirents]
  obtain ⟨taken, truncated, heq, hsmallest, htruncated⟩ :=
    clsBucketList_spec (n := n) objEnt (K.disjoint_shards start.name pre n)
  simp only [shards, mem_map, exists_exists_and_eq_and] at hsmallest htruncated
  have hfirst := hsmallest.of_take fun i _ => (K.shard start.name pre n (K.shardOf · = i)).sorted
  simp only [shard, hwhole] at hfirst
  obtain rfl := hfirst.unique (whole.sorted.smallest_take n)
  have hflag : truncated = whole.ret.isTruncated := by
    rw [Bool.eq_iff_iff, htruncated, whole.isTruncated_iff]
    constructor
    · rintro ⟨i, hi, e, he, hnot⟩
      exact ⟨e, (hwhole e).mp ⟨i, hi, he⟩, hnot⟩
    · rintro ⟨e, he, hnot⟩
      obtain ⟨i, hi, he⟩ := (hwhole e).mpr he
      exact ⟨i, hi, e, he, hnot⟩
  rw [shardedIndex, heq, hflag]
  simp [KeySet.index, whole, shard, dirents, SortedMap.keys, ← map_take, K.entry_eq, getLast?_map]
  rfl

/-- Four keys, the two that end in a slash in one shard and the others in another; a third one is
empty. -/
def inThreeShards : ShardedKeys where
  keys := [ascii "_a", ascii "a/", ascii "b", ascii "b/"]
  sorted := by decide
  dirent k := (namedEntry (Listing.indexKeyName k)).2
  entry k := objEnt (namedEntry (Listing.indexKeyName k)).2
  key_entry _ _ := rfl
  isVisible_entry k _ := by
    have hflags : (objEnt (namedEntry (Listing.indexKeyName k)).2).flags = 0 := rfl
    rw [ObjEnt.isVisible, hflags]
    rfl
  count := 3
  shardOf k := if k.getLast? = some 47 then 0 else 1
  entry_eq _ := rfl

/-- A page of two of them behind a marker, from the shards and from one index. -/
theorem page_of_shards : inThreeShards.shardedIndex = inThreeShards.index ∧
    ((inThreeShards.shardedIndex ⟨ascii "a", []⟩ [] 2 false).map fun r =>
      (r.entMap.map Prod.fst, r.isTruncated)) =
      some ([ascii "a/", ascii "b"], true) := by
  rw [inThreeShards.shardedIndex_eq_index]
  exact ⟨rfl, by decide +kernel⟩

end ShardedKeys

end KeyListing

namespace AclXml

open AccessControlPolicy

end AclXml

open Posix Transition

/-- Keys that lead to files of their own in a bucket, that the shell takes as they stand and whose
digest fits its buffers, on a host that takes all that is written. -/
structure KeyPlaces where
  G : Global
  chunk_pos : 0 < G.rgwMaxChunkSize
  kernel : Kernel
  full : kernel.Full
  bucket : Bytes
  base : Path
  tree : FileTree
  inPlace : BucketAt G bucket tree base
  keys : Set Bytes
  place : Bytes → Path
  injOn : keys.InjOn place
  resolve : ∀ key ∈ keys, tree.resolve (cstr (G.objectPath bucket key)) = some (place key)
  holdsFile : ∀ key ∈ keys, tree.holdsFile (place key)
  ne_stat : ∀ key ∈ keys, place key ≠ statPlace base
  operand : ∀ key ∈ keys, isOperand (cstr (G.objectPath bucket key)) = true
  quiet : ∀ key ∈ keys, kernel.Quiet (cstr (G.objectPath bucket key))
  fits : ∀ key ∈ keys, ∀ t, Md5Fits kernel t (cstr (G.objectPath bucket key))

namespace KeyPlaces

variable (K : KeyPlaces)

def Asks : StoreRequest → Prop
  | .put req => req.bucket = K.bucket ∧ req.object ∈ K.keys ∧ req.multipart = false
  | .delete req => req.bucket = K.bucket ∧ req.object ∈ K.keys
  | .copy _ => False

/-- What a request does to the contents of the keys. An upload that is refused at once does nothing.
-/
def apply (m : Bytes → Option Bytes) : StoreRequest → Bytes → Option Bytes
  | .put req => if req.early = none then
    Function.update m req.object (some (req.received K.G).1.flatten) else m
  | .delete req => Function.update m req.object none
  | .copy _ => m

structure Holds (m : Bytes → Option Bytes) (t : FileTree) : Prop where
  dirs : FileTree.SameDirs K.tree t
  files : ∀ key ∈ K.keys, readFile t (K.place key) = m key

variable {K} {m : Bytes → Option Bytes} {t : FileTree} {key : Bytes}

theorem Holds.writeStat (h : K.Holds m t) (text : Bytes) :
    K.Holds m (t.writeFile (statPlace K.base) text) where
  dirs := h.dirs.trans (FileTree.sameDirs_writeFile _ _ _)
  files key hkey := by
    have hstat := (K.inPlace.of_sameDirs h.dirs).holdsFile_statPlace
    rw [readFile_writeFile hstat, if_neg (K.ne_stat key hkey), h.files key hkey]

theorem Holds.update (h : K.Holds m t) {t' : FileTree} {content : Option Bytes}
    (hkey : key ∈ K.keys)
    (hdirs : FileTree.SameDirs t t')
    (hfiles : ∀ q, readFile t' q = if q = K.place key then content else readFile t q) :
    K.Holds (Function.update m key content) t' where
  dirs := h.dirs.trans hdirs
  files other hother := by
    rw [hfiles, Function.update_apply]
    simp only [K.injOn.eq_iff hother hkey, h.files other hother]

theorem Holds.resolve (h : K.Holds m t) (hkey : key ∈ K.keys) :
    t.resolve (cstr (K.G.objectPath K.bucket key)) = some (K.place key) :=
  (FileTree.resolve_congr h.dirs _).symm.trans (K.resolve key hkey)

theorem Holds.holdsFile (h : K.Holds m t) (hkey : key ∈ K.keys) : t.holdsFile (K.place key) :=
  (h.dirs.holdsFile_eq _).symm.trans (K.holdsFile key hkey)

theorem Holds.existing_eq (h : K.Holds m t) (hkey : key ∈ K.keys) :
    existing t (cstr (K.G.objectPath K.bucket key)) = (m key).map fun _ => K.place key := by
  rw [existing, h.resolve hkey, ← h.files key hkey]
  rcases hnode : t.node (K.place key) with - | - | bytes
  · simp [readFile, hnode]
  · exact absurd hnode (FileTree.not_dir_of_holdsFile (h.holdsFile hkey))
  · simp [readFile, hnode]

variable {w w' : World}

/-- One request changes the map of keys as it changes the tree. -/
theorem Holds.step {op : StoreRequest} (h : K.Holds m w.tree) (hop : K.Asks op)
    (hstep : op.step K.kernel K.G w = some w') : K.Holds (K.apply m op) w'.tree := by
  have hb := K.inPlace.of_sameDirs h.dirs
  obtain ⟨⟨ret, w'⟩, hexec, rfl⟩ := Option.map_eq_some_iff.mp hstep
  cases op with
  | put req =>
    obtain ⟨hbucket, hkey, hwhole⟩ := hop
    rw [← hbucket] at hb
    cases hearly : req.early with
    | some r =>
      rw [StoreRequest.execute, req.exec_execute_of_early_some K.kernel hb hearly] at hexec
      obtain ⟨info, -, ⟨⟩⟩ := Option.map_eq_some_iff.mp hexec
      rw [apply, if_neg (by simp [hearly])]
      exact h.writeStat _
    | none =>
      rw [StoreRequest.execute, req.exec_execute_of_early_none K.kernel hb hearly] at hexec
      obtain ⟨info, -, ⟨⟩⟩ := Option.map_eq_some_iff.mp hexec
      have htarget : req.target K.G w.tree = some (K.place req.object) :=
        PutRequest.target_eq_some.mpr ⟨by rw [PutRequest.path, hbucket, h.resolve hkey],
          h.holdsFile hkey⟩
      rw [apply, if_pos hearly]
      refine (h.update hkey (req.sameDirs_written K.kernel K.G w.tree) fun q => ?_).writeStat _
      rw [PutRequest.readFile_written, htarget, PutRequest.landed, landed_full (K.full q),
        PutRequest.kept, hwhole]
      simp [eq_comm]
  | delete req =>
    obtain ⟨hbucket, hkey⟩ := hop
    rw [← hbucket] at hb
    have hpath : req.path K.G = cstr (K.G.objectPath K.bucket req.object) := by
      rw [DeleteRequest.path, hbucket]
    cases hcontent : m req.object with
    | none =>
      have hmissing : existing w.tree (req.path K.G) = none := by
        simp [hpath, h.existing_eq hkey, hcontent]
      cases (exec_delete_missing K.kernel hmissing).symm.trans hexec
      rwa [apply, ← hcontent, Function.update_eq_self]
    | some bytes =>
      have hread := (h.files _ hkey).trans hcontent
      have hres : _ = some (K.place req.object) := hpath ▸ h.resolve hkey
      rw [StoreRequest.execute,
        exec_delete_file K.kernel hb (hpath ▸ K.operand _ hkey) hres hread] at hexec
      split_ifs at hexec
      obtain ⟨info, -, ⟨⟩⟩ := Option.map_eq_some_iff.mp hexec
      have hfile : w.tree.node (K.place req.object) ≠ some .dir := by
        simp [readFile_eq_some.mp hread]
      refine (h.update hkey (FileTree.sameDirs_removeTree hfile) fun q => ?_).writeStat _
      rw [readFile, FileTree.node_removeTree_of_ne_dir hfile]
      split_ifs <;> rfl
  | copy req => exact hop.elim

theorem Holds.run {ops : List StoreRequest} (h : K.Holds m w.tree)
    (hrun : Steps (fun w op => op.step K.kernel K.G w) (fun _ => K.Asks) w ops w') :
    K.Holds (ops.foldl K.apply m) w'.tree := by
  induction hrun generalizing m with
  | nil => exact h
  | cons hop hstep _ ih => exact ih (h.step hop hstep)

variable (K)

structure Run where
  uid : Nat
  requests : List StoreRequest
  last : World
  steps : Steps (fun w op => op.step K.kernel K.G w) (fun _ => K.Asks) ⟨uid, K.tree⟩ requests last

def contents (key : Bytes) : Option Bytes := readFile K.tree (K.place key)

end KeyPlaces

namespace Sample

theorem operand_of_mem {key : Bytes} (h : key ∈ ({ascii "k", ascii "s"} : Set Bytes)) :
    md5Operand (cstr (G.objectPath bucket key)) = some (G.objectPath bucket key) := by
  rcases h with rfl | rfl <;> decide

/-- Two keys in the empty bucket. -/
def twoKeys : KeyPlaces where
  G := G
  chunk_pos := by decide
  kernel := kernel
  full := fun _ _ _ => rfl
  bucket := bucket
  base := base
  tree := tree
  inPlace := bucketAt
  keys := {ascii "k", ascii "s"}
  place := (· :: base)
  injOn := fun _ _ _ _ h => (cons.inj h).1
  resolve := by rintro _ (rfl | rfl) <;> decide
  holdsFile := by rintro _ (rfl | rfl) <;> decide
  ne_stat := by rintro _ (rfl | rfl) <;> decide
  operand := by rintro _ (rfl | rfl) <;> decide
  quiet := fun _ h => Kernel.quiet_of_operand _ (operand_of_mem h)
  fits := by
    intro key h t
    have hfits : (md5Line (cstr (G.objectPath bucket key))).length < md5BufSize ∧
        (G.objectPath bucket key).length + 35 < md5BufSize := by
      rcases h with rfl | rfl <;> decide
    exact md5Fits_of_operand _ _ hfits.1 (operand_of_mem h) hfits.2

/-- An upload, one of the other key, a replacement of the first and the removal of the other. -/
def requests : List StoreRequest :=
  [.put (put (ascii "k") [ascii "hello"]), .put (put (ascii "s") [ascii "x"]),
    .put (put (ascii "k") [ascii "hello", ascii "!"]), .delete ⟨bucket, ascii "s", 7⟩]

theorem asks_requests : ∀ op ∈ requests, twoKeys.Asks op := by
  have hk : ascii "k" ∈ twoKeys.keys := .inl rfl
  have hs : ascii "s" ∈ twoKeys.keys := .inr rfl
  intro op hop
  simp only [requests, mem_cons, not_mem_nil, or_false] at hop
  rcases hop with rfl | rfl | rfl | rfl
  · exact ⟨rfl, hk, rfl⟩
  · exact ⟨rfl, hs, rfl⟩
  · exact ⟨rfl, hk, rfl⟩
  · exact ⟨rfl, hs⟩

end Sample

end RadosGateway
