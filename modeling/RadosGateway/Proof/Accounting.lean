import RadosGateway.Base.Run
import RadosGateway.Proof.Refinement

/-!
# The statistics of a bucket

Every upload adds one to the statistics, whatever became of it, and every removal of something that
exists takes one away. They are right when every upload makes a new file in the bucket of the size
that is counted, and every removal takes away one file of the bucket.
-/

namespace RadosGateway

open Text Posix Option

section Tally

variable {f : Bytes → Nat} {base p : Path} {t : FileTree}

theorem not_objectPlace_statPlace (base : Path) : ¬ ObjectPlace base (statPlace base) := by
  rintro ⟨-, -, hmeta⟩
  exact hmeta (List.suffix_cons _ _)

theorem tally_writeFile_of_not_objectPlace (h : ¬ ObjectPlace base p) (bytes : Bytes) :
    tally f base (t.writeFile p bytes) = tally f base t := by
  by_cases hfile : t.holdsFile p
  · have htotal := FileTree.total_writeFile (objectWeight f base) hfile bytes
    have hold : (t.node p).elim 0 (objectWeight f base p) = 0 := by
      rcases t.node p with - | - | bytes' <;> simp [objectWeight, h]
    have hnew : objectWeight f base p (.file bytes) = 0 := by simp [objectWeight, h]
    unfold tally
    omega
  · simp [FileTree.writeFile, hfile]

theorem tally_writeFile_new (h : ObjectPlace base p) (hfile : t.holdsFile p)
    (hnew : t.node p = none) (bytes : Bytes) :
    tally f base (t.writeFile p bytes) = tally f base t + f bytes := by
  have htotal := FileTree.total_writeFile (objectWeight f base) hfile bytes
  rw [hnew, elim_none, objectWeight, if_pos h] at htotal
  exact htotal

theorem tally_removeTree_file (h : ObjectPlace base p) {bytes : Bytes}
    (hnode : t.node p = some (.file bytes)) :
    tally f base (t.removeTree p) + f bytes = tally f base t := by
  have htotal := FileTree.total_removeTree_of_file (objectWeight f base) hnode
  rw [objectWeight, if_pos h] at htotal
  exact htotal

theorem tally_of_objectCount_eq_zero (h : objectCount base t = 0) : tally f base t = 0 := by
  unfold objectCount tally FileTree.total at h
  unfold tally FileTree.total
  rw [Finset.sum_eq_zero_iff] at h ⊢
  intro p hp
  have hzero := h p hp
  rcases hnode : t.node p with - | - | bytes
  · rfl
  · rfl
  · rw [hnode] at hzero
    have hplace : ¬ ObjectPlace base p := by
      intro hplace
      simp [objectWeight, hplace] at hzero
    simp [objectWeight, hplace]

end Tally

structure Accounted (G : Global) (bucket : Bytes) (base : Path) (t : FileTree) : Prop where
  inPlace : BucketAt G bucket t base
  stat : ∃ info, readStat t base = some info ∧ info.numEntries.toNat = objectCount base t ∧
    info.totalSize.toNat = objectBytes base t
  count_lt : objectCount base t < 2 ^ 31
  bytes_lt : objectBytes base t < 2 ^ 31

def PutRequest.CountsRight (k : Kernel) (G : Global) (base : Path) (req : PutRequest)
    (t : FileTree) : Prop :=
  req.early = none ∧ ∃ p, req.target G t = some p ∧ ObjectPlace base p ∧ t.node p = none ∧
      (req.landed k G t p).1.length = (req.ended k G t).getD 0 ∧
      objectCount base t + 1 < 2 ^ 31 ∧
      objectBytes base t + (req.landed k G t p).1.length < 2 ^ 31

def DeleteRequest.CountsRight (G : Global) (base : Path) (req : DeleteRequest) (t : FileTree) :
    Prop :=
  existing t (req.path G) = none ∨ isOperand (req.path G) = true ∧
      ∃ p, t.resolve (req.path G) = some p ∧ (readFile t p).isSome ∧ ObjectPlace base p

variable {info : SysInfo}

theorem SysInfo.narrowed_toNat (hentries : info.numEntries.toNat < 2 ^ 31)
    (hsize : info.totalSize.toNat < 2 ^ 31) :
    info.narrowed.numEntries.toNat = info.numEntries.toNat ∧
      info.narrowed.totalSize.toNat = info.totalSize.toNat := by
  simp only [SysInfo.narrowed]
  rw [SysInfo.narrow_of_lt hentries, SysInfo.narrow_of_lt hsize]
  exact ⟨rfl, rfl⟩

variable {G : Global} {bucket : Bytes}

theorem readStat_writeFile {base : Path} {t : FileTree} (hb : BucketAt G bucket t base)
    (info : SysInfo) :
    readStat (t.writeFile (statPlace base) info.statText) base = some info.narrowed := by
  rw [← SysInfo.read_statText SysInfo.zero info]
  apply readStat_of_file
  rw [readFile_writeFile hb.holdsFile_statPlace, if_pos rfl]

theorem Accounted.of_writeFile {base : Path} {t : FileTree} (hb : BucketAt G bucket t base)
    (hcount : info.numEntries.toNat = objectCount base t)
    (hbytes : info.totalSize.toNat = objectBytes base t) (hcount_lt : objectCount base t < 2 ^ 31)
    (hbytes_lt : objectBytes base t < 2 ^ 31) :
    Accounted G bucket base (t.writeFile (statPlace base) info.statText) := by
  have hsame : ∀ f, tally f base (t.writeFile (statPlace base) info.statText) = tally f base t :=
    fun f => tally_writeFile_of_not_objectPlace (not_objectPlace_statPlace base) _
  have hread := readStat_writeFile hb info
  obtain ⟨hnarrowCount, hnarrowBytes⟩ : info.narrowed.numEntries.toNat = info.numEntries.toNat ∧
      info.narrowed.totalSize.toNat = info.totalSize.toNat :=
    SysInfo.narrowed_toNat (by omega) (by omega)
  refine ⟨hb.of_sameDirs (FileTree.sameDirs_writeFile t _ _), ⟨info.narrowed, hread, ?_, ?_⟩,
    ?_, ?_⟩
  · rw [hnarrowCount, hcount]
    exact (hsame _).symm
  · rw [hnarrowBytes, hbytes]
    exact (hsame _).symm
  · exact (hsame _).trans_lt hcount_lt
  · exact (hsame _).trans_lt hbytes_lt

variable {w w' : World} {k : Kernel} {ret : Int}

/-- Step lemma of uploads. -/
theorem Accounted.put {base : Path} {req : PutRequest} (h : Accounted G req.bucket base w.tree)
    (hok : req.CountsRight k G base w.tree)
    (hexec : exec k (req.execute G) w = some (ret, w')) : Accounted G req.bucket base w'.tree := by
  obtain ⟨hearly, p, htarget, hplace, hnew, hlength, hcount_lt, hbytes_lt⟩ := hok
  obtain ⟨info, hinfo, hcount, hbytes⟩ := h.stat
  rw [PutRequest.exec_execute_of_early_none k h.inPlace hearly] at hexec
  obtain ⟨info', hinfo', hexec⟩ := map_eq_some_iff.mp hexec
  obtain ⟨-, rfl⟩ := Prod.mk.inj hexec
  have hstat : statPlace base ≠ p := by
    rintro rfl
    exact not_objectPlace_statPlace base hplace
  have hkept : req.kept w.tree p = [] := by simp [PutRequest.kept, bytesAt, hnew]
  have hwritten : req.written k G w.tree = w.tree.writeFile p (req.landed k G w.tree p).1 := by
    simp [PutRequest.written, htarget, hkept]
  obtain rfl : info' = info := by
    rw [readStat_congr (PutRequest.node_written_of_ne (by simp [htarget, hstat.symm]))] at hinfo'
    exact some.inj (hinfo'.symm.trans hinfo)
  have htally : ∀ f, tally f base (req.written k G w.tree) =
      tally f base w.tree + f (req.landed k G w.tree p).1 := by
    intro f
    rw [hwritten]
    exact tally_writeFile_new hplace (PutRequest.holdsFile_of_target htarget) hnew _
  have hsize : (req.objSize k G w.tree).toNat = (req.landed k G w.tree p).1.length := by
    rw [PutRequest.objSize, ← hlength, UInt64.toNat_ofNat']
    omega
  have hcount' : objectCount base (req.written k G w.tree) = objectCount base w.tree + 1 :=
    htally fun _ => 1
  have hbytes' : objectBytes base (req.written k G w.tree) =
      objectBytes base w.tree + (req.landed k G w.tree p).1.length := htally List.length
  apply Accounted.of_writeFile
    (h.inPlace.of_sameDirs (PutRequest.sameDirs_written k G req w.tree))
  · rw [SysInfo.addObject, UInt64.toNat_add, hcount']
    simp only [UInt64.toNat_one]
    omega
  · rw [SysInfo.addObject, UInt64.toNat_add, hbytes', hsize]
    omega
  · omega
  · omega

/-- Step lemma of removals. -/
theorem Accounted.delete {base : Path} {req : DeleteRequest}
    (h : Accounted G req.bucket base w.tree) (hok : req.CountsRight G base w.tree)
    (hexec : exec k (req.execute G) w = some (ret, w')) : Accounted G req.bucket base w'.tree := by
  rcases hok with hmissing | ⟨hoperand, p, hres, hsome, hplace⟩
  · rw [exec_delete_missing k hmissing] at hexec
    obtain ⟨-, rfl⟩ := Prod.mk.inj (some.inj hexec)
    exact h
  · obtain ⟨bytes, hread⟩ := isSome_iff_exists.mp hsome
    obtain ⟨info, hinfo, hcount, hbytes⟩ := h.stat
    have hfile := readFile_eq_some.mp hread
    have hdir : w.tree.node p ≠ some .dir := by simp [hfile]
    rw [exec_delete_file k h.inPlace hoperand hres hread] at hexec
    split_ifs at hexec
    obtain ⟨info', hinfo', hexec⟩ := map_eq_some_iff.mp hexec
    obtain ⟨-, rfl⟩ := Prod.mk.inj hexec
    have hstat : statPlace base ≠ p := by
      rintro rfl
      exact not_objectPlace_statPlace base hplace
    obtain rfl : info' = info := by
      have hsame : (w.tree.removeTree p).node (statPlace base) = w.tree.node (statPlace base) := by
        rw [FileTree.node_removeTree_of_ne_dir hdir, if_neg hstat]
      rw [readStat_congr hsame] at hinfo'
      exact some.inj (hinfo'.symm.trans hinfo)
    have hcount' : objectCount base (w.tree.removeTree p) + 1 = objectCount base w.tree :=
      tally_removeTree_file hplace hfile
    have hbytes' : objectBytes base (w.tree.removeTree p) + bytes.length =
        objectBytes base w.tree := tally_removeTree_file hplace hfile
    have hcount_lt := h.count_lt
    have hbytes_lt := h.bytes_lt
    apply Accounted.of_writeFile
      (h.inPlace.of_sameDirs (FileTree.sameDirs_removeTree hdir))
    · rw [SysInfo.removeObject, UInt64.toNat_sub]
      simp only [UInt64.toNat_one]
      omega
    · rw [SysInfo.removeObject, UInt64.toNat_sub, UInt64.toNat_ofNat']
      omega
    · omega
    · omega

namespace StoreRequest

def step (k : Kernel) (G : Global) (w : World) (op : StoreRequest) : Option World :=
  (exec k (op.execute G) w).map Prod.snd

def CountsRight (k : Kernel) (G : Global) (bucket : Bytes) (base : Path) (w : World) :
    StoreRequest → Prop
  | put req => req.bucket = bucket ∧ req.CountsRight k G base w.tree
  | delete req => req.bucket = bucket ∧ req.CountsRight G base w.tree
  | copy _ => False

end StoreRequest

theorem Accounted.step {base : Path} {op : StoreRequest} (h : Accounted G bucket base w.tree)
    (hok : op.CountsRight k G bucket base w) (hstep : op.step k G w = some w') :
    Accounted G bucket base w'.tree := by
  obtain ⟨⟨ret, w₁⟩, hexec, rfl⟩ := map_eq_some_iff.mp hstep
  cases op with
  | put req =>
    obtain ⟨rfl, hok⟩ := hok
    exact h.put hok hexec
  | delete req =>
    obtain ⟨rfl, hok⟩ := hok
    exact h.delete hok hexec
  | copy req => exact hok.elim

def Sample.firstPut : StoreRequest := .put (Sample.put (ascii "k") [ascii "hello"])

def Sample.secondPut : StoreRequest := .put (Sample.put (ascii "s") [ascii "x", ascii "yz"])

def Sample.firstGone : StoreRequest := .delete ⟨Sample.bucket, ascii "k", 7⟩

def Sample.afterFirst : World :=
  (Sample.firstPut.step Sample.kernel Sample.G Sample.world).get (by decide)

def Sample.afterSecond : World :=
  (Sample.secondPut.step Sample.kernel Sample.G Sample.afterFirst).get (by decide)

end RadosGateway
