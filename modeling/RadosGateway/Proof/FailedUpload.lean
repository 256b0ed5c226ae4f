import RadosGateway.Proof.Upload
import RadosGateway.Proof.Download

/-!
# Uploads that fail

Every error exit of an upload leads to the label `done`, which counts one more object, so an upload
that reports an error leaves a trace. The one exception is an upload to the statistics file of the
numbers that were there, less what `done` adds.
-/

namespace RadosGateway

open Text Posix Option

def Unchanged (G : Global) (base : Path) (t t' : FileTree) : Prop :=
  (∀ bucket object, contentOf t' (cstr (G.objectPath bucket object)) =
    contentOf t (cstr (G.objectPath bucket object))) ∧
  (readStat t' base).map (fun info => (info.numEntries, info.totalSize)) =
    (readStat t base).map fun info => (info.numEntries, info.totalSize)

theorem not_unchanged_of_readStat {G : Global} {base : Path} {t t' : FileTree} {info : SysInfo}
    {size : UInt64} (h : readStat t base = some info)
    (h' : readFile t' (statPlace base) = some (info.addObject size).statText) :
    ¬ Unchanged G base t t' := by
  rintro ⟨-, hnumbers⟩
  rw [readStat_of_file h', h, SysInfo.read_statText] at hnumbers
  simp only [map_some, some.injEq, Prod.mk.injEq, SysInfo.narrowed, SysInfo.addObject] at hnumbers
  exact SysInfo.narrow_add_one_ne info.numEntries hnumbers.1

def PutRequest.Unnoticed (k : Kernel) (G : Global) (req : PutRequest) (t : FileTree) (base : Path) :
    Prop :=
  req.early = none ∧ req.target G t = some (statPlace base) ∧ ∃ info, SysInfo.zero.read
        (req.kept t (statPlace base) ++ (req.landed k G t (statPlace base)).1) = some info ∧
      readFile t (statPlace base) = some (info.addObject (req.objSize k G t)).statText

/-- An upload, and so a failed one, changes nothing exactly when it is one to the statistics file
that leaves there what `done` turns back into the old content. -/
theorem failed_put_unchanged_iff {k : Kernel} {G : Global} {req : PutRequest} {w w' : World}
    {base : Path} {ret : Int} (hb : BucketAt G req.bucket w.tree base)
    (hput : exec k (req.execute G) w = some (ret, w')) :
    Unchanged G base w.tree w'.tree ↔ req.Unnoticed k G w.tree base := by
  cases hearly : req.early with
  | some r =>
    rw [PutRequest.exec_execute_of_early_some k hb hearly] at hput
    obtain ⟨info, hinfo, hput⟩ := map_eq_some_iff.mp hput
    obtain ⟨-, rfl⟩ := Prod.mk.inj hput
    have hstat : readFile (w.tree.writeFile (statPlace base) (info.addObject 0).statText)
        (statPlace base) = some (info.addObject 0).statText := by
      rw [readFile_writeFile hb.holdsFile_statPlace, if_pos rfl]
    constructor
    · intro h
      exact absurd h (not_unchanged_of_readStat hinfo hstat)
    · rintro ⟨hnone, -⟩
      rw [hearly] at hnone
      cases hnone
  | none =>
    rw [PutRequest.exec_execute_of_early_none k hb hearly] at hput
    obtain ⟨info, hinfo, hput⟩ := map_eq_some_iff.mp hput
    obtain ⟨-, rfl⟩ := Prod.mk.inj hput
    have hstat : readFile ((req.written k G w.tree).writeFile (statPlace base)
        (info.addObject (req.objSize k G w.tree)).statText) (statPlace base) =
          some (info.addObject (req.objSize k G w.tree)).statText := by
      rw [PutRequest.readFile_after hb, if_pos rfl]
    by_cases htarget : req.target G w.tree = some (statPlace base)
    · have hresolve := (PutRequest.target_eq_some.mp htarget).1
      have hleft : readFile (req.written k G w.tree) (statPlace base) =
          some (req.kept w.tree (statPlace base) ++
            (req.landed k G w.tree (statPlace base)).1) := by
        rw [PutRequest.readFile_written, if_pos htarget]
      rw [readStat_of_file hleft] at hinfo
      constructor
      · rintro ⟨hcontent, -⟩
        -- the download of this very key shows the statistics file
        refine ⟨hearly, htarget, info, hinfo, ?_⟩
        have hresolve' := hresolve
        rw [FileTree.resolve_congr PutRequest.sameDirs_after] at hresolve'
        have hsame : contentOf _ (req.path G) = contentOf w.tree (req.path G) :=
          hcontent req.bucket req.object
        rw [contentOf_of_resolve hresolve, if_neg hb.stat_ne_dir,
          contentOf_of_file hresolve' hstat] at hsame
        exact hsame.symm
      · rintro ⟨-, -, info', hinfo', hold⟩
        obtain rfl : info' = info := some.inj (hinfo'.symm.trans hinfo)
        have hback : (req.written k G w.tree).writeFile (statPlace base)
            (info'.addObject (req.objSize k G w.tree)).statText = w.tree := by
          simp only [PutRequest.written, htarget, FileTree.writeFile_writeFile]
          exact writeFile_content (readFile_eq_some.mp hold)
        rw [hback]
        exact ⟨fun _ _ => rfl, rfl⟩
    · have hbefore : readStat w.tree base = some info := by
        rw [← hinfo]
        exact (readStat_congr (PutRequest.node_written_of_ne htarget)).symm
      constructor
      · intro h
        exact absurd h (not_unchanged_of_readStat hbefore hstat)
      · rintro ⟨-, htarget', -⟩
        exact absurd htarget' htarget

/-- An upload of five bytes whose connection breaks after three of them. -/
def Sample.brokenOff : PutRequest where
  bucket := Sample.bucket
  object := ascii "k"
  auid := 7
  length := some (ascii "5")
  input := [.data (ascii "hel"), .fail (-5) (by decide)]

/-- The general condition, for this upload. -/
theorem failed_put_brokenOff :
    ∃ w', exec Sample.kernel (Sample.brokenOff.execute Sample.G) Sample.world =
        some (-5, w') ∧ (Unchanged Sample.G Sample.base Sample.tree w'.tree ↔
        Sample.brokenOff.Unnoticed Sample.kernel Sample.G Sample.tree Sample.base) := by
  have hret : (exec Sample.kernel (Sample.brokenOff.execute Sample.G) Sample.world).map Prod.fst =
      some (-5) := by decide
  obtain ⟨⟨ret, w'⟩, hput, rfl⟩ := map_eq_some_iff.mp hret
  exact ⟨w', hput, failed_put_unchanged_iff Sample.bucketAt hput⟩

/-- The key had no object before it and has three bytes after it, and the empty bucket counts one
object. -/
theorem failed_put_counted :
    ∃ w', exec Sample.kernel (Sample.brokenOff.execute Sample.G) Sample.world =
        some (-5, w') ∧ contentOf Sample.tree (Sample.brokenOff.path Sample.G) = none ∧
      contentOf w'.tree (Sample.brokenOff.path Sample.G) = some (ascii "hel") ∧
      ¬ Unchanged Sample.G Sample.base Sample.tree w'.tree := by
  have hrun : (exec Sample.kernel (Sample.brokenOff.execute Sample.G) Sample.world).map
      (fun r => (r.1, contentOf r.2.tree (Sample.brokenOff.path Sample.G),
        (readStat r.2.tree Sample.base).map fun info => (info.numEntries, info.totalSize))) =
          some (-5, some (ascii "hel"), some (1, 0)) := by decide
  have hbefore : (readStat Sample.tree Sample.base).map (fun info =>
      (info.numEntries, info.totalSize)) = some (0, 0) := by decide
  obtain ⟨⟨ret, w'⟩, hput, hafter⟩ := map_eq_some_iff.mp hrun
  obtain ⟨rfl, hafter⟩ := Prod.mk.inj hafter
  obtain ⟨hcontent, hnumbers⟩ := Prod.mk.inj hafter
  refine ⟨w', hput, by decide, hcontent, ?_⟩
  rintro ⟨-, hsame⟩
  rw [hnumbers, hbefore] at hsame
  exact absurd hsame (by decide)

end RadosGateway
