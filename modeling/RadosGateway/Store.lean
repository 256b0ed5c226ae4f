import RadosGateway.BucketStat

/-!
# The store as a set of objects

A bucket is in place when its directory and its `.bucket` directory exist; its objects are the files
below it that are not metadata. The statistics claim to hold sums over the objects.
-/

namespace RadosGateway

open Text Posix

def metaPlace (base : Path) : Path := Global.procBucketPath :: base

def statPlace (base : Path) : Path := Global.procStat :: metaPlace base

/-- The bucket's directory is at `base` and has its metadata directory in it. -/
structure BucketAt (G : Global) (bucket : Bytes) (t : FileTree) (base : Path) : Prop where
  noNul : 0 ∉ G.bucketPath bucket
  fits : (G.statPath bucket).length < FileTree.pathMax
  resolves : t.resolve (G.bucketPath bucket) = some base
  isDir : t.node base = some .dir
  hasMeta : t.node (metaPlace base) = some .dir
  stat_ne_dir : t.node (statPlace base) ≠ some .dir

/-- A place where the bucket keeps an object: strictly below it and not in its metadata. -/
def ObjectPlace (base p : Path) : Prop := base <:+ p ∧ p ≠ base ∧ ¬ metaPlace base <:+ p

instance (base p : Path) : Decidable (ObjectPlace base p) :=
  inferInstanceAs (Decidable (base <:+ p ∧ p ≠ base ∧ ¬ metaPlace base <:+ p))

def objectWeight (f : Bytes → Nat) (base p : Path) : Node → Nat
  | .dir => 0
  | .file bytes => if ObjectPlace base p then f bytes else 0

/-- The sum of `f` over the contents of the bucket's objects. -/
def tally (f : Bytes → Nat) (base : Path) (t : FileTree) : Nat :=
  FileTree.total (objectWeight f base) t

def objectCount (base : Path) (t : FileTree) : Nat := tally (fun _ => 1) base t

def objectBytes (base : Path) (t : FileTree) : Nat := tally List.length base t

def confAt (t : FileTree) (p : Path) : Option (Int × SysInfo) :=
  match t.node p with
  | none => some (-1, SysInfo.zero)
  | some .dir => some (0, SysInfo.zero)
  | some (.file text) => (confText 58 text).map fun r => (r.2, r.1.foldl SysInfo.getParams .zero)

/-- The statistics a reader of the bucket finds; none if reading them is undefined. -/
def readStat (t : FileTree) (base : Path) : Option SysInfo :=
  (confAt t (statPlace base)).map Prod.snd

theorem readStat_of_file {t : FileTree} {base : Path} {text : Bytes}
    (h : readFile t (statPlace base) = some text) : readStat t base = SysInfo.zero.read text := by
  simp only [readStat, confAt, readFile_eq_some.mp h, SysInfo.read, Option.map_map]
  rfl

theorem readStat_congr {t t' : FileTree} {base : Path}
    (h : t'.node (statPlace base) = t.node (statPlace base)) :
    readStat t' base = readStat t base := by
  unfold readStat confAt
  rw [h]

/-! ### A small store

The store the concrete runs of this development start from: one bucket, just created. -/

namespace Sample

theorem length_md5 (_ : Bytes) : (List.replicate 32 (48 : UInt8)).length = 32 := rfl

def kernel : Kernel where
  accept _ _ len := some len
  accept_le := by simp
  dirSize _ := 4096
  md5 _ := List.replicate 32 48
  md5_length := length_md5
  shell _ t := ([], t)

def G : Global := ⟨ascii "/r", 4, 1000, by decide⟩

def bucket : Bytes := ascii "bkt"

def base : Path := [bucket, ascii "r"]

def tree : FileTree :=
  (((FileTree.empty.mkdir [ascii "r"]).mkdir base).mkdir (metaPlace base)).writeFile
    (statPlace base) SysInfo.zero.statText

def world : World := ⟨0, tree⟩

theorem bucketAt : BucketAt G bucket tree base :=
  ⟨by decide, by decide, by decide, by decide, by decide, by decide⟩

end Sample

end RadosGateway
