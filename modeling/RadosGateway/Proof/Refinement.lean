import RadosGateway.Proof.Upload
import RadosGateway.Proof.Effects

/-!
# The store as a map from keys to contents

An upload, a removal and a copy should change what a download returns for one key only. They do so
for keys that lead to different places, neither of them the bucket's statistics, as long as the
download of either gets past its digest; but a copy takes its source away, and the removal of a
directory every key below it.
-/

namespace RadosGateway

open Text Posix Option

inductive StoreRequest where
  | put (req : PutRequest)
  | delete (req : DeleteRequest)
  | copy (req : CopyRequest)

namespace StoreRequest

def bucket : StoreRequest → Bytes
  | put req => req.bucket
  | delete req => req.bucket
  | copy req => req.bucket

def object : StoreRequest → Bytes
  | put req => req.object
  | delete req => req.object
  | copy req => req.object

def path (G : Global) : StoreRequest → Bytes
  | put req => req.path G
  | delete req => req.path G
  | copy req => req.dstPath G

def execute (G : Global) : StoreRequest → Prog Int
  | put req => req.execute G
  | delete req => req.execute G
  | copy req => req.execute G

def expected (G : Global) (t : FileTree) : StoreRequest → Option Bytes
  | put req => some (req.received G).1.flatten
  | delete _ => none
  | copy req => contentOf t (req.srcPath G)

/-- One step of a map from keys to contents, as downloads see it: the key of the operation returns
what is expected of it, and another key that was downloaded before returns the same again. -/
def Refines (k : Kernel) (G : Global) (op : StoreRequest) (w w' : World) (bucket object : Bytes) :
    Prop :=
  (∀ content, returned k G bucket object w = some content →
    returned k G bucket object w' = some content) ∧
  returned k G op.bucket op.object w' = some (op.expected G w.tree)

theorem path_eq (G : Global) (op : StoreRequest) :
    op.path G = cstr (G.objectPath op.bucket op.object) := by
  cases op <;> rfl

/-- Seen from downloads, a request refines the map exactly if the contents of the files do. -/
theorem refines_iff_contentOf {k : Kernel} {G : Global} (hchunk : 0 < G.rgwMaxChunkSize)
    {op : StoreRequest}
    {w w' : World} {bucket object : Bytes} (hquiet : k.Quiet (op.path G))
    (hother : k.Quiet (cstr (G.objectPath bucket object))) :
    op.Refines k G w w' bucket object ↔
      (Digests k w.tree (cstr (G.objectPath bucket object)) →
        Digests k w'.tree (cstr (G.objectPath bucket object)) ∧
          contentOf w'.tree (cstr (G.objectPath bucket object)) =
            contentOf w.tree (cstr (G.objectPath bucket object))) ∧
      Digests k w'.tree (op.path G) ∧ contentOf w'.tree (op.path G) = op.expected G w.tree := by
  rw [path_eq] at hquiet ⊢
  simp only [Refines, returned_eq_some hchunk hquiet, returned_eq_some hchunk hother]
  refine and_congr_left fun _ => ⟨fun h hdigest => h _ ⟨hdigest, rfl⟩, ?_⟩
  rintro h content ⟨hdigest, rfl⟩
  exact h hdigest

end StoreRequest

variable {text other : Bytes} {w w' : World} {ret : Int}

/-- With the same directories, a path has the same content exactly if its file has. -/
theorem contentOf_eq_iff {t t' : FileTree} (hdirs : FileTree.SameDirs t t') (path : Bytes) :
    contentOf t' path = contentOf t path ↔ ∀ r, t.resolve path = some r →
    readFile t' r = readFile t r := by
  cases hres : t.resolve path with
  | none =>
    have hres' : t'.resolve path = none := by rw [← FileTree.resolve_congr hdirs, hres]
    simp [contentOf_of_resolve_none hres, contentOf_of_resolve_none hres']
  | some r =>
    have hres' : t'.resolve path = some r := by rw [← FileTree.resolve_congr hdirs, hres]
    rw [contentOf_of_resolve hres, contentOf_of_resolve hres']
    by_cases hdir : t.node r = some .dir
    · have hdir' := (hdirs r).mp hdir
      simp [hdir, hdir', readFile_eq_none_of_dir]
    · have hdir' : t'.node r ≠ some .dir := fun h => hdir ((hdirs r).mpr h)
      simp [hdir, hdir']

section Put

variable {k : Kernel} {G : Global} {req : PutRequest} {t : FileTree} {base : Path}

def PutRequest.statAfter (k : Kernel) (G : Global) (req : PutRequest) (t : FileTree) (base : Path) :
    Option Bytes :=
  (readStat (req.written k G t) base).map fun info =>
    (info.addObject (req.objSize k G t)).statText

/-- The body ends up in the file of the key: the file was opened, the writes took all of the body,
and the file is not the statistics, unless these come out as the body by chance. An empty body is
also what a directory gives. -/
def PutRequest.Lands (k : Kernel) (G : Global) (req : PutRequest) (t : FileTree) (base : Path) :
    Prop :=
  (∃ p, req.target G t = some p ∧ p ≠ statPlace base ∧
    req.kept t p ++ (req.landed k G t p).1 = (req.received G).1.flatten) ∨
  (req.target G t = some (statPlace base) ∧
    req.statAfter k G t base = some (req.received G).1.flatten) ∨
  ((req.received G).1.flatten = [] ∧ ∃ p, t.resolve (req.path G) = some p ∧ t.node p = some .dir)

def PutRequest.Spares (k : Kernel) (G : Global) (req : PutRequest) (t : FileTree) (base : Path)
    (other : Bytes) : Prop :=
  ∀ r, t.resolve other = some r → (r = statPlace base → readFile t r = req.statAfter k G t base) ∧
    (r ≠ statPlace base → req.target G t = some r →
      readFile t r = some (req.kept t r ++ (req.landed k G t r).1))

theorem readFile_eq_none_of_holdsFile {r : Path} (h : t.holdsFile r = false) :
    readFile t r = none := by
  by_contra hsome
  obtain ⟨bytes, hbytes⟩ := ne_none_iff_exists'.mp hsome
  rw [FileTree.holdsFile_of_file (readFile_eq_some.mp hbytes)] at h
  cases h

theorem PutRequest.target_eq_none_of_dir {r : Path} (hres : t.resolve (req.path G) = some r)
    (hdir : t.node r = some .dir) : req.target G t = none := by
  rw [PutRequest.target, hres, filter_eq_none_iff]
  intro r' hr' hfile
  cases hr'
  exact FileTree.not_dir_of_holdsFile hfile hdir

/-- An upload is found under its path exactly if it lands there. -/
theorem PutRequest.contentOf_after (hb : BucketAt G req.bucket t base)
    (htext : req.statAfter k G t base = some text) :
    contentOf ((req.written k G t).writeFile (statPlace base) text) (req.path G) =
        some (req.received G).1.flatten ↔ req.Lands k G t base := by
  have hdirs : FileTree.SameDirs t ((req.written k G t).writeFile (statPlace base) text) :=
    PutRequest.sameDirs_after
  unfold PutRequest.Lands
  rw [htext]
  cases hres : t.resolve (req.path G) with
  | none =>
    have hres' := hres
    rw [FileTree.resolve_congr hdirs] at hres'
    have htarget : req.target G t = none := by simp [PutRequest.target, hres]
    simp [contentOf_of_resolve_none hres', htarget]
  | some r =>
    have hres' := hres
    rw [FileTree.resolve_congr hdirs] at hres'
    rw [contentOf_of_resolve hres', PutRequest.readFile_after hb]
    by_cases hdir : t.node r = some .dir
    · rw [if_pos ((hdirs r).mp hdir), PutRequest.target_eq_none_of_dir hres hdir]
      constructor
      · intro h
        exact .inr (.inr ⟨(some.inj h).symm, r, rfl, hdir⟩)
      · rintro (⟨p, hp, -⟩ | ⟨hp, -⟩ | ⟨hempty, -⟩)
        · cases hp
        · cases hp
        · rw [hempty]
    · have hdir' : ((req.written k G t).writeFile (statPlace base) text).node r ≠ some .dir :=
        fun h => hdir ((hdirs r).mpr h)
      rw [if_neg hdir']
      cases htarget : req.target G t with
      | some p =>
        obtain rfl : r = p :=
          some.inj (hres.symm.trans (PutRequest.target_eq_some.mp htarget).1)
        by_cases hstat : r = statPlace base
        · simp [hstat, hstat ▸ hdir]
        · simp [hstat, hdir]
      | none =>
        have hfile : t.holdsFile r = false := by simpa [PutRequest.target, hres] using htarget
        have hstat : r ≠ statPlace base := by
          rintro rfl
          rw [hb.holdsFile_statPlace] at hfile
          cases hfile
        simp [hstat, readFile_eq_none_of_holdsFile hfile, hdir]

theorem PutRequest.spares_iff (hb : BucketAt G req.bucket t base)
    (htext : req.statAfter k G t base = some text) :
    contentOf ((req.written k G t).writeFile (statPlace base) text) other = contentOf t other ↔
      req.Spares k G t base other := by
  rw [contentOf_eq_iff PutRequest.sameDirs_after]
  unfold PutRequest.Spares
  rw [htext]
  refine forall₂_congr fun r _ => ?_
  rw [PutRequest.readFile_after hb]
  split_ifs with hstat htarget
  · simp [hstat, eq_comm]
  · simp [hstat, htarget, eq_comm]
  · simp [hstat, htarget]

end Put

section Delete

variable {k : Kernel} {G : Global} {req : DeleteRequest} {base : Path}

/-- There is nothing to remove, or the path is one plain operand and the bucket stays in its place.
-/
def DeleteRequest.Regular (G : Global) (req : DeleteRequest) (t : FileTree) (base : Path) : Prop :=
  existing t (req.path G) = none ∨
    isOperand (req.path G) = true ∧ BucketAt G req.bucket (rmTree t (req.path G)) base

/-- What the path leads to is gone: `rm` refuses a path that ends in dots, nothing removes the root,
and the statistics are written anew. -/
def DeleteRequest.Removes (G : Global) (req : DeleteRequest) (t : FileTree) (base : Path) : Prop :=
  existing t (req.path G) = none ∨
    endsInDots (req.path G) = false ∧ t.resolve (req.path G) ≠ some [] ∧
      t.resolve (req.path G) ≠ some (statPlace base)

def DeleteRequest.statAfter (k : Kernel) (G : Global) (req : DeleteRequest) (t : FileTree)
    (base : Path) :
    Option Bytes :=
  (statSize k t (req.path G)).bind fun size =>
    (readStat (rmTree t (req.path G)) base).map fun info =>
      (info.removeObject (UInt64.ofNat size)).statText

/-- The other path still leads where it led, and not to the statistics, unless these come out as
they were. -/
def DeleteRequest.Spares (k : Kernel) (G : Global) (req : DeleteRequest) (t : FileTree)
    (base : Path)
    (other : Bytes) : Prop :=
  existing t (req.path G) = none ∨
    ((rmTree t (req.path G)).resolve other = some (statPlace base) →
      contentOf t other = req.statAfter k G t base) ∧
    ((rmTree t (req.path G)).resolve other ≠ some (statPlace base) →
      ∀ r, existing t other = some r → existing (rmTree t (req.path G)) other = some r)

/-- The statistics written back after a removal are all that a path can see of it. -/
theorem contentOf_writeStat {t : FileTree} {bucket : Bytes} (hb : BucketAt G bucket t base)
    (text path : Bytes) :
    contentOf (t.writeFile (statPlace base) text) path =
      if t.resolve path = some (statPlace base) then some text else contentOf t path := by
  have hdirs := FileTree.sameDirs_writeFile t (statPlace base) text
  split_ifs with hstat
  · refine contentOf_of_file ((FileTree.resolve_congr hdirs path).symm.trans hstat) ?_
    rw [readFile_writeFile hb.holdsFile_statPlace, if_pos rfl]
  · refine (contentOf_eq_iff hdirs path).mpr fun r hr => ?_
    have hne : r ≠ statPlace base := by
      rintro rfl
      exact hstat hr
    rw [readFile_writeFile hb.holdsFile_statPlace, if_neg hne]

theorem DeleteRequest.exec_regular (hexec : exec k (req.execute G) w = some (ret, w'))
    (hfound : existing w.tree (req.path G) ≠ none) (hoperand : isOperand (req.path G) = true)
    (hb : BucketAt G req.bucket (rmTree w.tree (req.path G)) base) :
    ∃ text, req.statAfter k G w.tree base = some text ∧
      w'.tree = (rmTree w.tree (req.path G)).writeFile (statPlace base) text := by
  obtain ⟨size, hsize⟩ := ne_none_iff_exists'.mp fun hnone =>
    hfound ((statSize_eq_none_iff k w.tree (req.path G)).mp hnone)
  rw [exec_delete k hb hoperand hsize] at hexec
  split_ifs at hexec
  obtain ⟨info, hinfo, hexec⟩ := map_eq_some_iff.mp hexec
  obtain ⟨-, rfl⟩ := Prod.mk.inj hexec
  exact ⟨_, by simp [DeleteRequest.statAfter, hsize, hinfo], rfl⟩

theorem DeleteRequest.spares_iff (hexec : exec k (req.execute G) w = some (ret, w'))
    (hregular : req.Regular G w.tree base) (other : Bytes) :
    contentOf w'.tree other = contentOf w.tree other ↔ req.Spares k G w.tree base other := by
  unfold DeleteRequest.Spares
  by_cases hfound : existing w.tree (req.path G) = none
  · rw [exec_delete_missing k hfound] at hexec
    obtain ⟨-, rfl⟩ : 0 = ret ∧ w = w' := by simpa using hexec
    simp [hfound]
  · obtain ⟨hoperand, hb⟩ := hregular.resolve_left hfound
    obtain ⟨text, htext, htree⟩ := DeleteRequest.exec_regular hexec hfound hoperand hb
    rw [htree, contentOf_writeStat hb, htext]
    split_ifs with hstat
    · simp [hfound, hstat, eq_comm]
    · simp [hfound, hstat, (rmTree_within w.tree (req.path G)).contentOf_eq_iff]

/-- The path is free after the removal, or leads to a place that is not there. -/
theorem contentOf_rmTree_eq_none_iff {t : FileTree} {path : Bytes}
    (hfound : existing t path ≠ none) :
    contentOf (rmTree t path) path = none ↔ endsInDots path = false ∧ t.resolve path ≠ some [] := by
  obtain ⟨p, hp⟩ := ne_none_iff_exists'.mp hfound
  obtain ⟨hres, hnode⟩ := existing_eq_some.mp hp
  have hsome : contentOf t path ≠ none := by simp [contentOf, hp]
  unfold rmTree
  split_ifs with hdots
  · simp [hdots, hsome]
  · simp only [hdots, hres, ne_eq, some.injEq, true_and]
    by_cases hroot : p = []
    · have hsame : t.removeTree p = t := by
        ext q
        simp [FileTree.node_removeTree, hroot]
      rw [hsame]
      simp [hsome, hroot]
    · have hgone : existing (t.removeTree p) path = none := by
        by_contra hleft
        obtain ⟨q, hq⟩ := ne_none_iff_exists'.mp hleft
        have hwithin := rmTree_within t path
        rw [rmTree, if_neg hdots, hres] at hwithin
        obtain rfl : q = p := some.inj ((hwithin.existing_eq hq).symm.trans hp)
        have hq' := (existing_eq_some.mp hq).2
        simp [FileTree.node_removeTree, hroot] at hq'
      simp [contentOf, hgone, hroot]

/-- A removal takes the path away exactly if `rm` is given it. -/
theorem DeleteRequest.removes_iff (hexec : exec k (req.execute G) w = some (ret, w'))
    (hb : BucketAt G req.bucket w.tree base) (hregular : req.Regular G w.tree base) :
    contentOf w'.tree (req.path G) = none ↔ req.Removes G w.tree base := by
  unfold DeleteRequest.Removes
  by_cases hfound : existing w.tree (req.path G) = none
  · rw [exec_delete_missing k hfound] at hexec
    obtain ⟨-, rfl⟩ : 0 = ret ∧ w = w' := by simpa using hexec
    simp [hfound, contentOf]
  · obtain ⟨hoperand, hb'⟩ := hregular.resolve_left hfound
    obtain ⟨text, -, htree⟩ := DeleteRequest.exec_regular hexec hfound hoperand hb'
    rw [htree, contentOf_writeStat hb']
    by_cases hstat : w.tree.resolve (req.path G) = some (statPlace base)
    · -- the statistics are a file, so that removing them keeps every path
      have hdots : ¬ endsInDots (req.path G) = true :=
        fun h => hb.stat_ne_dir (dir_of_endsInDots h hstat)
      have hkept : (rmTree w.tree (req.path G)).resolve (req.path G) = some (statPlace base) := by
        rw [rmTree, if_neg hdots, hstat,
          ← FileTree.resolve_congr (FileTree.sameDirs_removeTree hb.stat_ne_dir), hstat]
      simp [hkept, hstat, hfound]
    · have hkept : (rmTree w.tree (req.path G)).resolve (req.path G) ≠ some (statPlace base) :=
        fun h => hstat ((rmTree_within _ _).resolve_eq h)
      rw [if_neg hkept, contentOf_rmTree_eq_none_iff hfound]
      simp [hfound, hstat]

end Delete

section Copy

variable {k : Kernel} {G : Global} {req : CopyRequest}

/-- The source is a file. -/
def CopyRequest.Regular (G : Global) (req : CopyRequest) (t : FileTree) : Prop :=
  ∃ p, t.resolve (req.srcPath G) = some p ∧ (readFile t p).isSome

/-- The other path is not the source, and if it is the destination it held the same before. -/
def CopyRequest.Spares (G : Global) (req : CopyRequest) (t : FileTree) (other : Bytes) : Prop :=
  t.resolve (req.srcPath G) = t.resolve (req.dstPath G) ∨
    t.resolve other ≠ t.resolve (req.srcPath G) ∧
      (t.resolve other = t.resolve (req.dstPath G) →
        contentOf t other = contentOf t (req.srcPath G))

/-- A copy that succeeds renames its source. -/
theorem CopyRequest.tree_after (hexec : exec k (req.execute G) w = some (ret, w')) (hret : 0 ≤ ret)
    {p : Path} {bytes : Bytes} (hres : w.tree.resolve (req.srcPath G) = some p)
    (hread : readFile w.tree p = some bytes) :
    ∃ q, w.tree.resolve (req.dstPath G) = some q ∧ ((p = q ∧ w'.tree = w.tree) ∨
        (p ≠ q ∧ w.tree.node q ≠ some .dir ∧ w.tree.movable p q = true ∧
          w'.tree = w.tree.move p q)) := by
  cases htimes : req.timesParse with
  | false =>
    obtain ⟨rfl, -⟩ : -Err.einval = ret ∧ w = w' := by
      simpa [CopyRequest.execute, htimes] using hexec
    exact absurd hret (by decide)
  | true =>
    rw [exec_copy k htimes] at hexec
    obtain ⟨hret', rfl⟩ := Prod.mk.inj (some.inj hexec)
    rcases hrename : renameTree w.tree (req.srcPath G) (req.dstPath G) with ⟨- | e, t'⟩
    · exact renameTree_of_file hres hread hrename
    · rw [hrename, elim_some] at hret'
      have hpos := Errno.code_pos e
      omega

theorem readFile_move {t : FileTree} {p q : Path} {bytes : Bytes} (hmovable : t.movable p q = true)
    (hread : readFile t p = some bytes) (hq : t.node q ≠ some .dir) (r : Path) :
    readFile (t.move p q) r = if r = q then some bytes else if r = p then none
      else readFile t r := by
  have hfile : t.node p ≠ some .dir := by simp [readFile_eq_some.mp hread]
  unfold readFile
  rw [FileTree.node_move_of_ne_dir hmovable hfile hq, readFile_eq_some.mp hread]
  split_ifs <;> rfl

theorem CopyRequest.copied (hexec : exec k (req.execute G) w = some (ret, w')) (hret : 0 ≤ ret)
    (hregular : req.Regular G w.tree) :
    contentOf w'.tree (req.dstPath G) = contentOf w.tree (req.srcPath G) := by
  obtain ⟨p, hres, hsome⟩ := hregular
  obtain ⟨bytes, hread⟩ := isSome_iff_exists.mp hsome
  obtain ⟨q, hdst, ⟨rfl, htree⟩ | ⟨hne, hq, hmovable, htree⟩⟩ :=
    CopyRequest.tree_after hexec hret hres hread
  · rw [htree, contentOf_of_resolve hdst, contentOf_of_resolve hres]
  · have hfile : w.tree.node p ≠ some .dir := by simp [readFile_eq_some.mp hread]
    rw [FileTree.resolve_congr (FileTree.sameDirs_move hmovable hfile hq)] at hdst
    rw [htree, contentOf_of_file hres hread]
    exact contentOf_of_file hdst (by rw [readFile_move hmovable hread hq, if_pos rfl])

/-- What a rename does to other paths. -/
theorem CopyRequest.spares_iff (hexec : exec k (req.execute G) w = some (ret, w')) (hret : 0 ≤ ret)
    (hregular : req.Regular G w.tree) (other : Bytes) :
    contentOf w'.tree other = contentOf w.tree other ↔ req.Spares G w.tree other := by
  obtain ⟨p, hres, hsome⟩ := hregular
  obtain ⟨bytes, hread⟩ := isSome_iff_exists.mp hsome
  obtain ⟨q, hdst, ⟨rfl, htree⟩ | ⟨hne, hq, hmovable, htree⟩⟩ :=
    CopyRequest.tree_after hexec hret hres hread
  · simp [htree, CopyRequest.Spares, hres, hdst]
  · have hfile : w.tree.node p ≠ some .dir := by simp [readFile_eq_some.mp hread]
    rw [htree, contentOf_eq_iff (FileTree.sameDirs_move hmovable hfile hq)]
    simp only [CopyRequest.Spares, hres, hdst, some.injEq, hne, false_or,
      contentOf_of_file hres hread]
    constructor
    · intro hsame
      refine ⟨fun hother => ?_, fun hother => ?_⟩
      · have hp := hsame p hother
        rw [readFile_move hmovable hread hq, if_neg hne, if_pos rfl, hread] at hp
        cases hp
      · have hold := hsame q hother
        rw [readFile_move hmovable hread hq, if_pos rfl] at hold
        exact contentOf_of_file hother hold.symm
    · rintro ⟨hother, hother'⟩ r hr
      rw [readFile_move hmovable hread hq]
      split_ifs with hrq hrp
      · have hold := hother' (hrq ▸ hr)
        rwa [contentOf_of_resolve hr, if_neg (hrq ▸ hq), eq_comm] at hold
      · exact absurd (hrp ▸ hr) hother
      · rfl

end Copy

namespace Sample

/-- The sample bucket with one object in it. -/
def besides : World := ⟨0, tree.writeFile (ascii "s" :: base) (ascii "x")⟩

theorem besides_bucketAt : BucketAt G bucket besides.tree base :=
  bucketAt.of_sameDirs (FileTree.sameDirs_writeFile tree (ascii "s" :: base) (ascii "x"))

theorem operand_k : md5Operand (cstr (G.objectPath bucket (ascii "k"))) =
    some (G.objectPath bucket (ascii "k")) := by decide

theorem operand_s : md5Operand (cstr (G.objectPath bucket (ascii "s"))) =
    some (G.objectPath bucket (ascii "s")) := by decide

end Sample

namespace StoreRequest

/-- A removal takes one plain operand and leaves the bucket in place, and a copy is one of a file.
-/
def Regular (G : Global) (t : FileTree) (base : Path) : StoreRequest → Prop
  | put _ => True
  | delete req => req.Regular G t base
  | copy req => req.Regular G t

def Lands (k : Kernel) (G : Global) (t : FileTree) (base : Path) : StoreRequest → Prop
  | put req => req.Lands k G t base
  | delete req => req.Removes G t base
  | copy _ => True

def Spares (k : Kernel) (G : Global) (t : FileTree) (base : Path) (other : Bytes) :
    StoreRequest → Prop
  | put req => req.Spares k G t base other
  | delete req => req.Spares k G t base other
  | copy req => req.Spares G t other

/-- The operation lands, its key can be downloaded afterwards, and another key that could be
downloaded before is spared and still can. -/
structure Meets (k : Kernel) (G : Global) (op : StoreRequest) (t t' : FileTree) (base : Path)
    (other : Bytes) : Prop where
  lands : op.Lands k G t base
  digest : Digests k t' (op.path G)
  spares : Digests k t other → Digests k t' other ∧ op.Spares k G t base other

/-- What each request that succeeds leaves under its path. -/
theorem contentOf_of_success {k : Kernel} {G : Global} {op : StoreRequest} {base : Path}
    (hb : BucketAt G op.bucket w.tree base) (hexec : exec k (op.execute G) w = some (ret, w'))
    (hret : 0 ≤ ret) (hregular : op.Regular G w.tree base) :
    (contentOf w'.tree (op.path G) = op.expected G w.tree ↔ op.Lands k G w.tree base) ∧
      ∀ other, contentOf w'.tree other = contentOf w.tree other ↔
      op.Spares k G w.tree base other := by
  cases op with
  | put req =>
    obtain ⟨hearly, -⟩ := PutRequest.early_of_success k hb hexec hret
    have hput := (PutRequest.exec_execute_of_early_none k hb hearly).symm.trans hexec
    obtain ⟨info, hinfo, hput⟩ := map_eq_some_iff.mp hput
    obtain ⟨-, rfl⟩ := Prod.mk.inj hput
    have htext : req.statAfter k G w.tree base =
        some (info.addObject (req.objSize k G w.tree)).statText := by
      simp [PutRequest.statAfter, hinfo]
    exact ⟨PutRequest.contentOf_after hb htext, fun _ => PutRequest.spares_iff hb htext⟩
  | delete req =>
    exact ⟨DeleteRequest.removes_iff hexec hb hregular, DeleteRequest.spares_iff hexec hregular⟩
  | copy req =>
    exact ⟨iff_of_true (CopyRequest.copied hexec hret hregular) trivial,
      CopyRequest.spares_iff hexec hret hregular⟩

def sampleCopy : StoreRequest :=
  copy { srcBucket := Sample.bucket, srcObject := ascii "s", bucket := Sample.bucket,
         object := ascii "d", auid := 7 }

end StoreRequest

end RadosGateway
