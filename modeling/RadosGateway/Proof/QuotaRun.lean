import RadosGateway.Proof.Accounting

/-!
# Quotas along a run

The number of entries is never less than the number of objects, since every upload is counted, so
the limit on objects holds wherever the check is made. -/

namespace RadosGateway

open Text Posix Option

def roundedKb (bytes : Bytes) : Nat := (roundedObjsizeKb (UInt64.ofNat bytes.length)).toNat

theorem toNat_roundedObjsizeKb {n : Nat} (h : n < 2 ^ 63) :
    (roundedObjsizeKb (UInt64.ofNat n)).toNat = (n + 4095) / 4096 * 4 := by
  have hmask : (~~~4095 : UInt64).toNat = 2 ^ 64 - 2 ^ 12 := by decide
  have hkb : (1024 : UInt64).toNat = 1024 := by decide
  have hadd : (UInt64.ofNat n + 4095).toNat = n + 4095 := by
    change (n % 2 ^ 64 + 4095) % 2 ^ 64 = n + 4095
    omega
  rw [roundedObjsizeKb, UInt64.toNat_div, UInt64.toNat_and, hmask,
    and_two_pow_sub_two_pow (by omega) (UInt64.toNat_lt _), hadd, hkb]
  omega

theorem roundedKb_le {bytes : Bytes} {n : Nat} (hle : bytes.length ≤ n) (hn : n < 2 ^ 63) :
    roundedKb bytes ≤ (roundedObjsizeKb (UInt64.ofNat n)).toNat := by
  rw [roundedKb, toNat_roundedObjsizeKb (by omega), toNat_roundedObjsizeKb hn]
  omega

def SysInfo.storedKb (info : SysInfo) : Nat := (accumulateRawStats info).numKbRounded.toNat

theorem SysInfo.storedKb_lt (info : SysInfo) : info.storedKb < 2 ^ 54 := by
  have hkb : (1024 : UInt64).toNat = 1024 := by decide
  have hlt := UInt64.toNat_lt (info.totalSizeRounded + 1023)
  simp only [SysInfo.storedKb, accumulateRawStats, UInt64.toNat_div, hkb]
  omega

theorem bucketCheck_of_quotaVerdict {q : Quotas} {info : SysInfo} {size : UInt64}
    (henabled : q.bucket.enabled = true) (h : 0 ≤ quotaVerdict q info size) :
    0 ≤ q.bucket.check (accumulateRawStats info) 1 (roundedObjsizeKb size) := by
  by_contra hneg
  have hany : q.anyEnabled = true := by simp [Quotas.anyEnabled, henabled]
  rw [quotaVerdict, if_pos hany, Quotas.verdict, if_pos ⟨henabled, not_le.mp hneg⟩] at h
  exact hneg h

/-- What a check that passes says of the statistics. -/
theorem limits_of_check {quota : QuotaInfo} {info : SysInfo} {n : Nat}
    (henabled : quota.enabled = true)
    (hobjects : 0 ≤ quota.maxObjects) (hsize : 0 ≤ quota.maxSizeKb)
    (hentries : info.numEntries.toNat + 1 < 2 ^ 31) (hn : n < 2 ^ 63)
    (h : 0 ≤ quota.check (accumulateRawStats info) 1 (roundedObjsizeKb (UInt64.ofNat n))) :
    info.numEntries.toNat + 1 ≤ quota.maxObjects.toNatClampNeg ∧
      info.storedKb + (roundedObjsizeKb (UInt64.ofNat n)).toNat ≤
        quota.maxSizeKb.toNatClampNeg := by
  have hquota : ¬ 0 ≤ -Err.quotaExceeded := by decide
  unfold QuotaInfo.check at h
  rw [henabled] at h
  split_ifs at h with hdisabled hmany hlarge
  · cases hdisabled
  · exact absurd h hquota
  · exact absurd h hquota
  · simp only [QuotaInfo.exceedsObjects, hobjects, decide_true, Bool.true_and,
      decide_eq_true_eq, UInt64.lt_iff_toNat_lt, not_lt, UInt64.toNat_add,
      Int64.toNat_toUInt64_of_le hobjects] at hmany
    simp only [QuotaInfo.exceedsSize, hsize, decide_true, Bool.true_and,
      decide_eq_true_eq, UInt64.lt_iff_toNat_lt, not_lt, UInt64.toNat_add,
      Int64.toNat_toUInt64_of_le hsize] at hlarge
    have hstored := info.storedKb_lt
    have hrounded := toNat_roundedObjsizeKb hn
    have hone : (1 : UInt64).toNat = 1 := by decide
    change (info.numEntries.toNat + (1 : UInt64).toNat) % 2 ^ 64 ≤ _ at hmany
    change (info.storedKb + _) % 2 ^ 64 ≤ _ at hlarge
    constructor
    · omega
    · omega

section Adds

variable {f : Bytes → Nat} {base p : Path} {t : FileTree}

theorem tally_removeTree_le (hdir : t.node p ≠ some .dir) :
    tally f base (t.removeTree p) ≤ tally f base t := by
  have hoff := FileTree.total_of_eq_off (p := p) (objectWeight f base) fun q hq =>
    (FileTree.node_removeTree_of_ne_dir hdir q).trans (if_neg hq)
  rw [FileTree.node_removeTree_of_ne_dir hdir, if_pos rfl, elim_none] at hoff
  unfold tally
  omega

theorem tally_writeFile_le (hfile : t.holdsFile p) (bytes : Bytes) :
    tally f base (t.writeFile p bytes) ≤ tally f base (t.removeTree p) + f bytes := by
  have hdir := FileTree.not_dir_of_holdsFile hfile
  have hsame : ∀ q, q ≠ p → (t.writeFile p bytes).node q = (t.removeTree p).node q := by
    intro q hq
    rw [FileTree.node_writeFile_of_ne hq, FileTree.node_removeTree_of_ne_dir hdir, if_neg hq]
  have hoff := FileTree.total_of_eq_off (objectWeight f base) hsame
  have hweight : objectWeight f base p (.file bytes) ≤ f bytes := by
    unfold objectWeight
    split_ifs
    · exact le_refl _
    · exact Nat.zero_le _
  rw [FileTree.node_writeFile_self hfile, FileTree.node_removeTree_of_ne_dir hdir, if_pos rfl,
    elim_none, elim_some] at hoff
  unfold tally
  omega

theorem objectCount_writeFile_le (hfile : t.holdsFile p) (bytes : Bytes) :
    objectCount base (t.writeFile p bytes) ≤ objectCount base t + 1 :=
  (tally_writeFile_le hfile bytes).trans
    (Nat.add_le_add_right (tally_removeTree_le (FileTree.not_dir_of_holdsFile hfile)) 1)

theorem length_landed_le (accept : Nat → Nat → Option Nat) (offset : Nat) (cs : List Bytes) :
    (landed accept offset cs).1.length ≤ cs.flatten.length := by
  induction cs generalizing offset with
  | nil => simp [landed]
  | cons data rest ih =>
    simp only [landed]
    cases accept offset data.length with
    | none => simp
    | some n =>
      have hrest := ih (offset + n)
      simp only [List.length_append, List.length_take, List.flatten_cons]
      omega

theorem PutRequest.written_of_target {k : Kernel} {G : Global} {req : PutRequest}
    (hsingle : req.multipart = false) (htarget : req.target G t = some p) :
    req.written k G t = t.writeFile p (req.landed k G t p).1 := by
  simp [PutRequest.written, htarget, PutRequest.kept, hsingle]

end Adds

structure PutRequest.ChecksRight (k : Kernel) (G : Global) (base : Path) (quota : QuotaInfo)
    (req : PutRequest) (t : FileTree) : Prop where
  bucketQuota : req.quotas.bucket = quota
  single : req.multipart = false
  entries_lt : ∀ info, readStat t base = some info → info.numEntries.toNat + 1 < 2 ^ 31
  length_lt : (req.received G).1.flatten.length < 2 ^ 63
  covered : req.early = none → ∃ p, req.target G t = some p ∧ p ≠ statPlace base ∧
    (req.landed k G t p).2 = true ∧ ((req.received G).2 = none →
      ∀ info, readStat t base = some info →
        tally roundedKb base (t.removeTree p) ≤ info.storedKb)

structure CountedUp (G : Global) (bucket : Bytes) (base : Path) (t : FileTree) : Prop where
  inPlace : BucketAt G bucket t base
  stat : ∃ info, readStat t base = some info ∧ objectCount base t ≤ info.numEntries.toNat

theorem CountedUp.of_writeFile {G : Global} {bucket : Bytes} {base : Path} {t : FileTree}
    {info : SysInfo} {size : UInt64} (hb : BucketAt G bucket t base)
    (hcount : objectCount base t ≤ info.numEntries.toNat + 1)
    (hlt : info.numEntries.toNat + 1 < 2 ^ 31) :
    CountedUp G bucket base (t.writeFile (statPlace base) (info.addObject size).statText) := by
  refine ⟨hb.of_sameDirs (FileTree.sameDirs_writeFile t _ _), _, readStat_writeFile hb _, ?_⟩
  have hadd : (info.numEntries + 1).toNat = info.numEntries.toNat + 1 := by
    rw [UInt64.toNat_add, UInt64.toNat_one]
    omega
  have hnarrow : (info.addObject size).narrowed.numEntries = info.numEntries + 1 :=
    SysInfo.narrow_of_lt (hadd.trans_lt hlt)
  have hsame : objectCount base (t.writeFile (statPlace base) (info.addObject size).statText) =
      objectCount base t := tally_writeFile_of_not_objectPlace (not_objectPlace_statPlace base) _
  rw [hnarrow, hadd, hsame]
  exact hcount

theorem PutRequest.exec_execute_of_target {k : Kernel} {G : Global} {base p : Path}
    {req : PutRequest} {w : World} {info : SysInfo} (hb : BucketAt G req.bucket w.tree base)
    (hinfo : readStat w.tree base = some info) (hearly : req.early = none)
    (hsingle : req.multipart = false) (htarget : req.target G w.tree = some p)
    (hstat : p ≠ statPlace base) :
    exec k (req.execute G) w = some (req.ret k G w.tree info, ⟨w.fsuid,
      (w.tree.writeFile p (req.landed k G w.tree p).1).writeFile (statPlace base)
        (info.addObject (req.objSize k G w.tree)).statText⟩) := by
  have hsame : readStat (req.written k G w.tree) base = some info := by
    rw [readStat_congr (PutRequest.node_written_of_ne (by simp [htarget, hstat])), hinfo]
  rw [PutRequest.exec_execute_of_early_none k hb hearly, hsame,
    PutRequest.written_of_target hsingle htarget]
  rfl

/-- Step lemma: the statistics count at least the objects that are there. -/
theorem CountedUp.put {k : Kernel} {G : Global} {base : Path} {quota : QuotaInfo}
    {req : PutRequest} {w w' : World} {ret : Int} (h : CountedUp G req.bucket base w.tree)
    (hok : req.ChecksRight k G base quota w.tree)
    (hexec : exec k (req.execute G) w = some (ret, w')) :
    CountedUp G req.bucket base w'.tree := by
  obtain ⟨info, hinfo, hcount⟩ := h.stat
  have hlt := hok.entries_lt info hinfo
  cases hearly : req.early with
  | some r =>
    rw [PutRequest.exec_execute_of_early_some k h.inPlace hearly, hinfo] at hexec
    obtain ⟨-, rfl⟩ := Prod.mk.inj (some.inj hexec)
    exact CountedUp.of_writeFile h.inPlace (by omega) hlt
  | none =>
    obtain ⟨p, htarget, hstat, -⟩ := hok.covered hearly
    rw [PutRequest.exec_execute_of_target h.inPlace hinfo hearly hok.single htarget hstat]
      at hexec
    obtain ⟨-, rfl⟩ := Prod.mk.inj (some.inj hexec)
    have hadds : objectCount base (w.tree.writeFile p (req.landed k G w.tree p).1) ≤
        objectCount base w.tree + 1 :=
      objectCount_writeFile_le (PutRequest.holdsFile_of_target htarget) _
    exact CountedUp.of_writeFile (h.inPlace.of_sameDirs (FileTree.sameDirs_writeFile _ _ _))
      (by omega) hlt

/-- An upload that passes its check is within the quota. -/
theorem CountedUp.within_quota {k : Kernel} {G : Global} {base : Path} {quota : QuotaInfo}
    {req : PutRequest} {w w' : World} {ret : Int} (h : CountedUp G req.bucket base w.tree)
    (henabled : quota.enabled = true) (hobjects : 0 ≤ quota.maxObjects)
    (hsize : 0 ≤ quota.maxSizeKb) (hok : req.ChecksRight k G base quota w.tree)
    (hexec : exec k (req.execute G) w = some (ret, w')) (hret : 0 ≤ ret) :
    objectCount base w'.tree ≤ quota.maxObjects.toNatClampNeg ∧
      tally roundedKb base w'.tree ≤ quota.maxSizeKb.toNatClampNeg := by
  obtain ⟨info, hinfo, hcount⟩ := h.stat
  obtain ⟨hearly, hended⟩ := PutRequest.early_of_success k h.inPlace hexec hret
  obtain ⟨p, htarget, hstat, hcomplete, hcovered⟩ := hok.covered hearly
  have hnone := hended p htarget hcomplete
  have hfile := PutRequest.holdsFile_of_target htarget
  rw [PutRequest.exec_execute_of_target h.inPlace hinfo hearly hok.single htarget hstat] at hexec
  cases hexec
  have hverdict : req.ret k G w.tree info = quotaVerdict req.quotas info
      (UInt64.ofNat (req.received G).1.flatten.length) := by
    simp [PutRequest.ret, PutRequest.objSize, PutRequest.ended, htarget, hcomplete, hnone]
  rw [hverdict] at hret
  have hcheck := bucketCheck_of_quotaVerdict (by rw [hok.bucketQuota]; exact henabled) hret
  rw [hok.bucketQuota] at hcheck
  obtain ⟨hroom, hroomKb⟩ := limits_of_check henabled hobjects hsize (hok.entries_lt info hinfo)
    hok.length_lt hcheck
  have hkb : roundedKb (req.landed k G w.tree p).1 ≤ _ :=
    roundedKb_le (length_landed_le _ _ _) hok.length_lt
  have htally : ∀ f, tally f base ((w.tree.writeFile p (req.landed k G w.tree p).1).writeFile
      (statPlace base) (info.addObject (req.objSize k G w.tree)).statText) ≤
        tally f base (w.tree.removeTree p) + f (req.landed k G w.tree p).1 := by
    intro f
    rw [tally_writeFile_of_not_objectPlace (not_objectPlace_statPlace base)]
    exact tally_writeFile_le hfile _
  constructor
  · calc objectCount base _
        ≤ tally (fun _ => 1) base (w.tree.removeTree p) + 1 := htally fun _ => 1
      _ ≤ objectCount base w.tree + 1 :=
        Nat.add_le_add_right (tally_removeTree_le (FileTree.not_dir_of_holdsFile hfile)) 1
      _ ≤ info.numEntries.toNat + 1 := Nat.add_le_add_right hcount 1
      _ ≤ quota.maxObjects.toNatClampNeg := hroom
  · calc tally roundedKb base _
        ≤ tally roundedKb base (w.tree.removeTree p) + roundedKb (req.landed k G w.tree p).1 :=
        htally roundedKb
      _ ≤ info.storedKb + _ := Nat.add_le_add (hcovered hnone info hinfo) hkb
      _ ≤ quota.maxSizeKb.toNatClampNeg := hroomKb

/-- In every run of uploads, each checked right, from an empty bucket with all-zero statistics: an
upload that reports success leaves the bucket within its quota. -/
theorem quota_of_run {k : Kernel} {G : Global} {bucket : Bytes} {base : Path} {quota : QuotaInfo}
    {w₀ w w' : World} {reqs : List PutRequest} {req : PutRequest} {ret : Int}
    (hb : BucketAt G bucket w₀.tree base) (hstat : readStat w₀.tree base = some SysInfo.zero)
    (hempty : objectCount base w₀.tree = 0) (henabled : quota.enabled = true)
    (hobjects : 0 ≤ quota.maxObjects) (hsize : 0 ≤ quota.maxSizeKb)
    (hrun : Transition.Steps (fun w (req : PutRequest) => (exec k (req.execute G) w).map Prod.snd)
      (fun w req => req.bucket = bucket ∧ req.ChecksRight k G base quota w.tree) w₀ reqs w)
    (hbucket : req.bucket = bucket) (hok : req.ChecksRight k G base quota w.tree)
    (hexec : exec k (req.execute G) w = some (ret, w')) (hret : 0 ≤ ret) :
    objectCount base w'.tree ≤ quota.maxObjects.toNatClampNeg ∧
      tally roundedKb base w'.tree ≤ quota.maxSizeKb.toNatClampNeg := by
  have hstep : ∀ {w w' : World} {req : PutRequest}, CountedUp G bucket base w.tree →
      req.bucket = bucket ∧ req.ChecksRight k G base quota w.tree →
      (exec k (req.execute G) w).map Prod.snd = some w' → CountedUp G bucket base w'.tree := by
    rintro w w' req h ⟨rfl, hok⟩ hstep
    obtain ⟨⟨ret, w₁⟩, hexec, rfl⟩ := map_eq_some_iff.mp hstep
    exact h.put hok hexec
  have hstart : CountedUp G bucket base w₀.tree := ⟨hb, SysInfo.zero, hstat, hempty.le⟩
  have hend : CountedUp G bucket base w.tree :=
    hrun.invariant (I := fun w => CountedUp G bucket base w.tree) hstep hstart
  subst hbucket
  exact hend.within_quota henabled hobjects hsize hok hexec hret

def Sample.quota : QuotaInfo := ⟨4, 2, true⟩

def Sample.limitedPut (object : Bytes) (segs : List Bytes) : PutRequest :=
  { Sample.put object segs with quotas := { bucket := Sample.quota } }

/-- The sample bucket with an empty object in it. -/
def Sample.afterEmpty : World :=
  ((exec Sample.kernel ((Sample.limitedPut (ascii "s") []).execute Sample.G) Sample.world).map
    Prod.snd).get (by decide)

theorem Sample.readStat_world : readStat Sample.world.tree Sample.base = some SysInfo.zero := by
  decide

theorem Sample.readStat_afterEmpty :
    readStat Sample.afterEmpty.tree Sample.base = some { SysInfo.zero with numEntries := 1 } := by
  decide

/-- An upload to a bucket that has one object already. -/
theorem quota_of_second_upload :
    ∃ w', exec Sample.kernel ((Sample.limitedPut (ascii "k") [ascii "hello"]).execute Sample.G)
        Sample.afterEmpty = some (0, w') ∧
      objectCount Sample.base w'.tree ≤ 2 ∧ tally roundedKb Sample.base w'.tree ≤ 4 := by
  have hret : (exec Sample.kernel ((Sample.limitedPut (ascii "k") [ascii "hello"]).execute Sample.G)
      Sample.afterEmpty).map Prod.fst = some 0 := by decide
  obtain ⟨⟨ret, w'⟩, hexec, rfl⟩ := map_eq_some_iff.mp hret
  have hfirst : (Sample.limitedPut (ascii "s") []).ChecksRight Sample.kernel Sample.G Sample.base
    Sample.quota
      Sample.world.tree := by
    refine ⟨rfl, rfl, ?_, by decide, fun _ => ⟨ascii "s" :: Sample.base, by decide, by decide,
      by decide, fun _ => ?_⟩⟩
    all_goals
      intro info h
      rw [some.inj (h.symm.trans Sample.readStat_world)]
      decide
  have hsecond : (Sample.limitedPut (ascii "k") [ascii "hello"]).ChecksRight Sample.kernel Sample.G
    Sample.base
      Sample.quota Sample.afterEmpty.tree := by
    refine ⟨rfl, rfl, ?_, by decide, fun _ => ⟨ascii "k" :: Sample.base, by decide, by decide,
      by decide, fun _ => ?_⟩⟩
    all_goals
      intro info h
      rw [some.inj (h.symm.trans Sample.readStat_afterEmpty)]
      decide
  have hstep : (exec Sample.kernel ((Sample.limitedPut (ascii "s") []).execute Sample.G)
    Sample.world).map Prod.snd =
      some Sample.afterEmpty := (some_get _).symm
  exact ⟨w', hexec, quota_of_run Sample.bucketAt Sample.readStat_world (by decide) rfl (by decide)
    (by decide)
    (.single ⟨rfl, hfirst⟩ hstep) (rfl : (Sample.limitedPut (ascii "k") [ascii "hello"]).bucket =
      Sample.bucket)
    hsecond hexec (le_refl _)⟩

/-- Two uploads of four rounded kilobytes each pass a limit of four. -/
theorem quota_size_ignored :
    ((exec Sample.kernel ((Sample.limitedPut (ascii "k") [ascii "hello"]).execute Sample.G)
        Sample.world).bind fun r =>
      (exec Sample.kernel ((Sample.limitedPut (ascii "l") [ascii "hello"]).execute Sample.G)
        r.2).map fun r' => (r.1, r'.1, tally roundedKb Sample.base r'.2.tree)) =
      some (0, 0, 8) := by
  decide

end RadosGateway
