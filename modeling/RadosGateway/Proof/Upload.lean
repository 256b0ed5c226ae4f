import RadosGateway.Proof.Stat

/-!
# What an upload leaves behind

The loop of `RGWPutObj::execute` mixes three things: what the client hands over, how much of it the
file system takes, and when the loop stops. -/

namespace RadosGateway

open Text Posix Option

variable {input input' : List Segment} {length : Option Bytes} {r : Int} {data : Bytes} {ofs : Nat}

def chunks (G : Global) (length : Option Bytes) : Nat → Nat → List Segment → List Bytes × Option Int
  | 0, _, _ => ([], none)
  | fuel + 1, ofs, input =>
    match getData G length ofs input with
    | (.error r, _) => ([], some r)
    | (.ok data, input) =>
      if data = [] then ([], none)
      else
        let rest := chunks G length fuel (ofs + data.length) input
        (data :: rest.1, rest.2)

def PutRequest.received (G : Global) (req : PutRequest) : List Bytes × Option Int :=
  chunks G req.length (inputFuel req.input) 0 req.input

theorem inputFuel_data_cons (bytes : Bytes) (rest : List Segment) :
    inputFuel (.data bytes :: rest) = bytes.length + 1 + inputFuel rest := by
  simp only [inputFuel, List.map_cons, List.sum_cons]
  omega

theorem inputFuel_readInput_lt {n : Nat} (h : readInput n input = (.ok data, input'))
    (hdata : data ≠ []) :
    inputFuel input' < inputFuel input := by
  cases input with
  | nil =>
    obtain ⟨rfl, -⟩ : [] = data ∧ _ := by simpa [readInput] using h
    exact absurd rfl hdata
  | cons s rest =>
    cases s with
    | fail r hneg => simp [readInput] at h
    | data bytes =>
      obtain ⟨rfl, rfl⟩ : bytes.take n = data ∧ _ := by simpa [readInput] using h
      have hn : n ≠ 0 := by
        rintro rfl
        simp at hdata
      rw [inputFuel_data_cons]
      split_ifs with hle
      · omega
      · rw [inputFuel_data_cons, List.length_drop]
        omega

theorem getData_ok_cases {G : Global} (h : getData G length ofs input = (.ok data, input')) :
    (readSize G length ofs = 0 ∧ data = [] ∧ input' = input) ∨
      (readSize G length ofs ≠ 0 ∧
        readInput (readSize G length ofs) input = (.ok data, input')) := by
  simp only [getData] at h
  split at h
  · simp at h
  · rename_i data' input'' hread
    split_ifs at h with hlarge
    · simp at h
    · obtain ⟨rfl, rfl⟩ : data' = data ∧ input'' = input' := by simpa using h
      by_cases hcl : readSize G length ofs = 0
      · obtain ⟨rfl, rfl⟩ : [] = data' ∧ input = input'' := by simpa [hcl] using hread
        exact .inl ⟨hcl, rfl, rfl⟩
      · rw [if_neg hcl] at hread
        exact .inr ⟨hcl, hread⟩

theorem inputFuel_getData_lt {G : Global} (h : getData G length ofs input = (.ok data, input'))
    (hdata : data ≠ []) :
    inputFuel input' < inputFuel input := by
  rcases getData_ok_cases h with ⟨-, hnil, -⟩ | ⟨-, hread⟩
  · exact absurd hnil hdata
  · exact inputFuel_readInput_lt hread hdata

def landed (accept : Nat → Nat → Option Nat) (offset : Nat) : List Bytes → Bytes × Bool
  | [] => ([], true)
  | data :: rest =>
    match accept offset data.length with
    | none => ([], false)
    | some n => (data.take n ++ (landed accept (offset + n) rest).1,
      (landed accept (offset + n) rest).2)

def loopResult (ofs : Nat) (cs : List Bytes × Option Int) (complete : Bool) : Int × Option Nat :=
  if complete then
    match cs.2 with
    | none => (0, some (ofs + cs.1.flatten.length))
    | some r => (r, none)
  else (0, none)

/-- A block is written behind what is there. -/
theorem writeTree_append {k : Kernel} {t : FileTree} {p : Path} {content data : Bytes}
    {multipart : Bool} {pos : Nat}
    (hnode : t.node p = some (.file content)) (hpos : multipart = false → pos = content.length) :
    writeTree k t p (if multipart then none else some pos) data =
      match k.accept p content.length data.length with
      | none => (none, t)
      | some n => (some n, t.writeFile p (content ++ data.take n)) := by
  have hbytes : bytesAt t p = content := by simp [bytesAt, hnode]
  have hoffset : (if multipart then none else some pos).getD content.length = content.length := by
    cases multipart with
    | true => rfl
    | false => exact hpos rfl
  unfold writeTree
  dsimp only
  rw [hbytes, hoffset]
  cases k.accept p content.length data.length with
  | none => rfl
  | some n => simp only [hnode, overwrite_length]

theorem writeFile_content {t : FileTree} {p : Path} {content : Bytes}
    (hnode : t.node p = some (.file content)) : t.writeFile p content = t := by
  refine FileTree.ext fun q => ?_
  rw [FileTree.node_writeFile (FileTree.holdsFile_of_file hnode)]
  split_ifs with hq
  · rw [hq, hnode]
  · rfl

theorem loopResult_cons (ofs : Nat) (data : Bytes) (cs : List Bytes × Option Int)
    (complete : Bool) :
    loopResult ofs (data :: cs.1, cs.2) complete = loopResult (ofs + data.length) cs complete := by
  unfold loopResult
  cases cs.2 <;> simp [add_assoc]

theorem length_take_of_accept {k : Kernel} {p : Path} {offset n : Nat} {data : Bytes}
    (h : k.accept p offset data.length = some n) : (data.take n).length = n :=
  List.length_take_of_le (k.accept_le h)

/-- The loop of an upload in closed form. -/
theorem exec_putLoop (k : Kernel) (G : Global) (req : PutRequest) {p : Path} {fuel ofs pos : Nat}
    {input : List Segment} {w : World} {content : Bytes}
    (hnode : w.tree.node p = some (.file content)) (hfuel : inputFuel input ≤ fuel)
    (hpos : req.multipart = false → pos = content.length) :
    exec k (putLoop G req p fuel ofs pos input) w =
      some (loopResult ofs (chunks G req.length fuel ofs input)
          (landed (k.accept p) content.length (chunks G req.length fuel ofs input).1).2,
        { w with tree := w.tree.writeFile p (content ++
          (landed (k.accept p) content.length (chunks G req.length fuel ofs input).1).1) }) := by
  induction fuel generalizing ofs pos input w content with
  | zero =>
    simp [inputFuel] at hfuel
  | succ fuel ih =>
    simp only [putLoop, chunks]
    rcases hget : getData G req.length ofs input with ⟨r | data, input'⟩
    · simp [loopResult, landed, writeFile_content hnode]
    · by_cases hdata : data = []
      · simp [hdata, loopResult, landed, writeFile_content hnode]
      · simp only [hdata, if_false, exec_writeFd_bind]
        rw [writeTree_append hnode hpos]
        cases haccept : k.accept p content.length data.length with
        | none => simp [landed, haccept, loopResult, writeFile_content hnode]
        | some n =>
          have hn := length_take_of_accept haccept
          have hnode' : (w.tree.writeFile p (content ++ data.take n)).node p =
              some (.file (content ++ data.take n)) :=
            FileTree.node_writeFile_self (FileTree.holdsFile_of_file hnode) _
          have hlt := inputFuel_getData_lt hget hdata
          have hpos' : req.multipart = false → pos + n = (content ++ data.take n).length := by
            intro hm
            rw [List.length_append, hn, hpos hm]
          have hrun : exec k (putLoop G req p fuel (ofs + data.length) (pos + n) input')
              ⟨w.fsuid, w.tree.writeFile p (content ++ data.take n)⟩ = _ :=
            ih hnode' (by omega) hpos'
          rw [List.length_append, hn, FileTree.writeFile_writeFile, List.append_assoc] at hrun
          simp only [hrun, landed, haccept, loopResult_cons]

def PutRequest.target (G : Global) (req : PutRequest) (t : FileTree) : Option Path :=
  (t.resolve (req.path G)).filter (t.holdsFile ·)

def PutRequest.kept (req : PutRequest) (t : FileTree) (p : Path) : Bytes :=
  if req.multipart then bytesAt t p else []

def PutRequest.landed (k : Kernel) (G : Global) (req : PutRequest) (t : FileTree) (p : Path) :
    Bytes × Bool :=
  RadosGateway.landed (k.accept p) (req.kept t p).length (req.received G).1

structure Uploaded where
  ret : Int
  objSize : UInt64
  tree : FileTree

variable {u : Uploaded}

def quotaVerdict (q : Quotas) (info : SysInfo) (size : UInt64) : Int :=
  if q.anyEnabled then q.verdict (accumulateRawStats info) {} 1 (roundedObjsizeKb size) else 0

def PutRequest.finish (G : Global) (req : PutRequest) (complete : Bool) (t : FileTree)
    (base : Path) : Option Uploaded :=
  if complete then
    match (req.received G).2 with
    | some r => some ⟨r, 0, t⟩
    | none =>
      let size := UInt64.ofNat (req.received G).1.flatten.length
      if req.quotas.anyEnabled then
        (readStat t base).map fun info => ⟨quotaVerdict req.quotas info size, size, t⟩
      else some ⟨0, size, t⟩
  else some ⟨0, 0, t⟩

def PutRequest.uploaded (k : Kernel) (G : Global) (req : PutRequest) (t : FileTree) (base : Path) :
    Option Uploaded :=
  match req.early with
  | some r => some ⟨r, 0, t⟩
  | none =>
    match req.target G t with
    | none => some ⟨0, 0, t⟩
    | some p =>
      req.finish G (req.landed k G t p).2
        (t.writeFile p (req.kept t p ++ (req.landed k G t p).1)) base

section Execute

variable {G : Global} {bucket : Bytes} {req : PutRequest} {t : FileTree} {base p : Path}
  (k : Kernel) {w : World}

theorem PutRequest.target_eq_some : req.target G t = some p ↔ t.resolve (req.path G) = some p ∧
    t.holdsFile p := by
  simp [PutRequest.target, filter_eq_some_iff]

theorem openTree_of_target (h : req.target G t = some p) :
    openTree t (req.path G) (if req.multipart then .creatAppend else .creatTrunc) =
      some (p, t.writeFile p (req.kept t p)) := by
  obtain ⟨hres, hfile⟩ := PutRequest.target_eq_some.mp h
  cases hm : req.multipart <;> simp [openTree, hres, hfile, PutRequest.kept, hm]

theorem openTree_of_target_none (h : req.target G t = none) :
    openTree t (req.path G) (if req.multipart then .creatAppend else .creatTrunc) = none := by
  cases hres : t.resolve (req.path G) with
  | none => simp [openTree, hres]
  | some p =>
    have hfile : t.holdsFile p = false := by simpa [PutRequest.target, hres] using h
    cases hm : req.multipart <;> simp [openTree, hres, hfile]

theorem exec_checkQuota (h : BucketAt G bucket w.tree base) (q : Quotas) (size : UInt64) :
    exec k (checkQuota G q bucket size) w =
      if q.anyEnabled then (readStat w.tree base).map fun info => (quotaVerdict q info size, w)
        else some (0, w) := by
  unfold checkQuota
  split_ifs with hany
  · rw [exec_bind, exec_parseConf k h.resolve_statPath, readStat]
    cases confAt w.tree (statPlace base) with
    | none => rfl
    | some r => simp [quotaVerdict, hany]
  · rfl

theorem PutRequest.holdsFile_of_target (h : req.target G t = some p) : t.holdsFile p :=
  (PutRequest.target_eq_some.mp h).2

/-- An upload that finds the place for its file. -/
theorem exec_upload_of_target (hearly : req.early = none) (htarget : req.target G w.tree = some p)
    (hb : BucketAt G req.bucket w.tree base) :
    exec k (req.upload G) w = (req.finish G (req.landed k G w.tree p).2
        (w.tree.writeFile p (req.kept w.tree p ++ (req.landed k G w.tree p).1)) base).map
        fun u => (⟨u.ret, u.objSize, w.fsuid⟩, ⟨uidT req.auid, u.tree⟩) := by
  have hfile := PutRequest.holdsFile_of_target htarget
  have hnode := FileTree.node_writeFile_self hfile (req.kept w.tree p)
  have hpos : req.multipart = false → 0 = (req.kept w.tree p).length := by
    intro hm
    simp [PutRequest.kept, hm]
  have hloop : exec k (putLoop G req p (inputFuel req.input) 0 0 req.input)
      ⟨uidT req.auid, w.tree.writeFile p (req.kept w.tree p)⟩ = _ :=
    exec_putLoop k G req hnode (le_refl (inputFuel req.input)) hpos
  rw [FileTree.writeFile_writeFile] at hloop
  change _ = some (loopResult 0 (req.received G) (req.landed k G w.tree p).2,
    World.mk _ (w.tree.writeFile p (_ ++ (req.landed k G w.tree p).1))) at hloop
  have hb' := hb.of_sameDirs
    (FileTree.sameDirs_writeFile w.tree p (req.kept w.tree p ++ (req.landed k G w.tree p).1))
  simp only [PutRequest.upload, hearly, exec_setfsuid_bind, exec_openFile_bind,
    openTree_of_target htarget, exec_chmod_bind]
  rw [exec_bind, hloop, bind_some]
  dsimp only
  unfold PutRequest.finish loopResult
  cases (req.landed k G w.tree p).2 with
  | false => rfl
  | true =>
    cases hended : (req.received G).2 with
    | some r => rfl
    | none =>
      simp only [if_true, zero_add]
      rw [exec_bind, exec_checkQuota k hb']
      split_ifs
      · cases readStat (w.tree.writeFile p _) base <;> rfl
      · rfl

/-- An upload in closed form. -/
theorem exec_upload (hb : BucketAt G req.bucket w.tree base) :
    exec k (req.upload G) w = (req.uploaded k G w.tree base).map fun u =>
      (⟨u.ret, u.objSize, if req.early.isSome then 0 else w.fsuid⟩,
        ⟨if req.early.isSome then w.fsuid else uidT req.auid, u.tree⟩) := by
  cases hearly : req.early with
  | some r => simp [PutRequest.upload, PutRequest.uploaded, hearly]
  | none =>
    cases htarget : req.target G w.tree with
    | none =>
      simp only [PutRequest.upload, PutRequest.uploaded, hearly, htarget, exec_setfsuid_bind,
        exec_openFile_bind, openTree_of_target_none htarget]
      rfl
    | some p =>
      rw [exec_upload_of_target k hearly htarget hb]
      simp [PutRequest.uploaded, hearly, htarget]

theorem PutRequest.finish_tree {complete : Bool} (h : req.finish G complete t base = some u) :
    u.tree = t := by
  unfold PutRequest.finish at h
  cases complete with
  | false => simp [← some.inj h]
  | true =>
    cases hended : (req.received G).2 with
    | some r =>
      simp only [if_true, hended, some.injEq] at h
      rw [← h]
    | none =>
      simp only [if_true, hended] at h
      split_ifs at h
      · obtain ⟨info, -, rfl⟩ := map_eq_some_iff.mp h
        rfl
      · rw [← some.inj h]

theorem PutRequest.sameDirs_uploaded {k : Kernel}
    (h : req.uploaded k G t base = some u) : FileTree.SameDirs t u.tree := by
  unfold PutRequest.uploaded at h
  cases hearly : req.early with
  | some r =>
    simp only [hearly, some.injEq] at h
    rw [← h]
    exact .refl t
  | none =>
    simp only [hearly] at h
    cases htarget : req.target G t with
    | none =>
      simp only [htarget, some.injEq] at h
      rw [← h]
      exact .refl t
    | some p =>
      simp only [htarget] at h
      rw [PutRequest.finish_tree h]
      exact FileTree.sameDirs_writeFile t p _

/-- The whole request: the upload, then the statistics. -/
theorem exec_execute (hb : BucketAt G req.bucket w.tree base) :
    exec k (req.execute G) w = (req.uploaded k G w.tree base).bind fun u =>
      (readStat u.tree base).map fun info =>
        (u.ret, ⟨if req.early.isSome then 0 else w.fsuid,
          u.tree.writeFile (statPlace base) (info.addObject u.objSize).statText⟩) := by
  unfold PutRequest.execute
  rw [exec_bind, exec_upload k hb]
  cases hu : req.uploaded k G w.tree base with
  | none => rfl
  | some u =>
    have hb' := hb.of_sameDirs (PutRequest.sameDirs_uploaded hu)
    simp only [map_some, bind_some]
    rw [exec_bind, exec_updateStat k hb']
    cases readStat u.tree base with
    | none => rfl
    | some info => rfl

theorem PutRequest.early_neg (h : req.early = some r) : r < 0 := by
  unfold PutRequest.early at h
  split_ifs at h with hobject hparams
  · rw [← some.inj h]
    decide
  · rw [← some.inj h]
    exact hparams

theorem getData_neg (h : getData G length ofs input = (.error r, input')) : r < 0 := by
  simp only [getData] at h
  split at h
  · rename_i r' input'' hread
    obtain ⟨rfl, -⟩ : r' = r ∧ input'' = input' := by simpa using h
    split_ifs at hread
    · simp at hread
    · cases input with
      | nil => simp [readInput] at hread
      | cons s rest =>
        cases s with
        | data bytes => simp [readInput] at hread
        | fail r'' hneg =>
          obtain ⟨rfl, -⟩ : r'' = r' ∧ rest = input'' := by simpa [readInput] using hread
          exact hneg
  · split_ifs at h
    · obtain ⟨rfl, -⟩ : -Err.tooLarge = r ∧ _ := by simpa using h
      decide
    · simp at h

theorem chunks_neg {fuel ofs : Nat} {input : List Segment}
    (h : (chunks G length fuel ofs input).2 = some r) : r < 0 := by
  induction fuel generalizing ofs input with
  | zero => simp [chunks] at h
  | succ fuel ih =>
    simp only [chunks] at h
    rcases hget : getData G length ofs input with ⟨r' | data, input'⟩
    · simp only [hget] at h
      rw [← some.inj h]
      exact getData_neg hget
    · simp only [hget] at h
      split_ifs at h
      exact ih h

/-! ### The outcome of a request

Behind the first checks a request always runs to its end, provided the statistics it finds then can
be read. -/

def PutRequest.written (k : Kernel) (G : Global) (req : PutRequest) (t : FileTree) : FileTree :=
  match req.target G t with
  | none => t
  | some p => t.writeFile p (req.kept t p ++ (req.landed k G t p).1)

def PutRequest.ended (k : Kernel) (G : Global) (req : PutRequest) (t : FileTree) : Option Nat :=
  (req.target G t).bind fun p =>
    if (req.landed k G t p).2 ∧ (req.received G).2 = none then
      some (req.received G).1.flatten.length
    else none

def PutRequest.objSize (k : Kernel) (G : Global) (req : PutRequest) (t : FileTree) : UInt64 :=
  UInt64.ofNat ((req.ended k G t).getD 0)

def PutRequest.ret (k : Kernel) (G : Global) (req : PutRequest) (t : FileTree) (info : SysInfo) :
    Int :=
  match req.target G t with
  | none => 0
  | some p =>
    if (req.landed k G t p).2 then
      (req.received G).2.getD (quotaVerdict req.quotas info (req.objSize k G t))
    else 0

theorem PutRequest.sameDirs_written (k : Kernel) (G : Global) (req : PutRequest) (t : FileTree) :
    FileTree.SameDirs t (req.written k G t) := by
  unfold PutRequest.written
  cases req.target G t with
  | none => exact .refl t
  | some p => exact FileTree.sameDirs_writeFile t p _

theorem PutRequest.uploaded_of_early_none (hearly : req.early = none) (k : Kernel) {info : SysInfo}
    (hinfo : readStat (req.written k G t) base = some info) : req.uploaded k G t base =
      some ⟨req.ret k G t info, req.objSize k G t, req.written k G t⟩ := by
  cases htarget : req.target G t with
  | none =>
    simp [PutRequest.uploaded, hearly, htarget, PutRequest.ret, PutRequest.objSize,
      PutRequest.ended, PutRequest.written]
  | some p =>
    have hwritten : req.written k G t = t.writeFile p (req.kept t p ++ (req.landed k G t p).1) := by
      simp [PutRequest.written, htarget]
    have hbind : req.ended k G t = if (req.landed k G t p).2 ∧ (req.received G).2 = none then
        some (req.received G).1.flatten.length else none := by
      simp [PutRequest.ended, htarget]
    simp only [PutRequest.uploaded, hearly, htarget, PutRequest.finish, PutRequest.ret,
      PutRequest.objSize, hbind, ← hwritten, hinfo]
    cases (req.landed k G t p).2 with
    | false => rfl
    | true =>
      cases (req.received G).2 with
      | some r => rfl
      | none =>
        cases hany : req.quotas.anyEnabled with
        | true => simp
        | false => simp [quotaVerdict, hany]

theorem PutRequest.tree_uploaded {k : Kernel} (hearly : req.early = none)
    (hu : req.uploaded k G t base = some u) : u.tree = req.written k G t := by
  simp only [PutRequest.uploaded, hearly] at hu
  cases htarget : req.target G t with
  | none =>
    simp only [htarget, some.injEq] at hu
    simp [PutRequest.written, htarget, ← hu]
  | some p =>
    simp only [htarget] at hu
    simpa [PutRequest.written, htarget] using PutRequest.finish_tree hu

section

variable (hb : BucketAt G req.bucket w.tree base)
include hb

theorem PutRequest.exec_execute_of_early_none (hearly : req.early = none) :
    exec k (req.execute G) w = (readStat (req.written k G w.tree) base).map fun info =>
      (req.ret k G w.tree info, ⟨w.fsuid, (req.written k G w.tree).writeFile (statPlace base)
        (info.addObject (req.objSize k G w.tree)).statText⟩) := by
  rw [exec_execute k hb, hearly]
  cases hinfo : readStat (req.written k G w.tree) base with
  | some info =>
    rw [PutRequest.uploaded_of_early_none hearly k hinfo, bind_some]
    simp [hinfo]
  | none =>
    cases hu : req.uploaded k G w.tree base with
    | none => rfl
    | some u =>
      rw [bind_some, PutRequest.tree_uploaded hearly hu, hinfo]
      rfl

theorem PutRequest.exec_execute_of_early_some (hearly : req.early = some r) :
    exec k (req.execute G) w = (readStat w.tree base).map fun info =>
      (r, ⟨0, w.tree.writeFile (statPlace base) (info.addObject 0).statText⟩) := by
  rw [exec_execute k hb, PutRequest.uploaded, hearly]
  rfl

/-- A request that succeeds was not refused early. -/
theorem PutRequest.early_of_success {w' : World} {ret : Int}
    (h : exec k (req.execute G) w = some (ret, w')) (hret : 0 ≤ ret) :
    req.early = none ∧ ∀ p, req.target G w.tree = some p →
      (req.landed k G w.tree p).2 = true → (req.received G).2 = none := by
  cases hearly : req.early with
  | some r =>
    rw [PutRequest.exec_execute_of_early_some k hb hearly] at h
    obtain ⟨info, -, h⟩ := map_eq_some_iff.mp h
    obtain ⟨rfl, -⟩ := Prod.mk.inj h
    exact absurd hret (not_le.mpr (PutRequest.early_neg hearly))
  | none =>
    refine ⟨rfl, fun p htarget hcomplete => ?_⟩
    rw [PutRequest.exec_execute_of_early_none k hb hearly] at h
    obtain ⟨info, -, h⟩ := map_eq_some_iff.mp h
    obtain ⟨rfl, -⟩ := Prod.mk.inj h
    cases hended : (req.received G).2 with
    | none => rfl
    | some r =>
      simp only [PutRequest.ret, htarget, hcomplete, if_true, hended, getD_some] at hret
      exact absurd hret (not_le.mpr (chunks_neg hended))

end

end Execute

section After

variable {k : Kernel} {G : Global} {req : PutRequest} {t : FileTree} {base : Path} {text : Bytes}

theorem PutRequest.node_written_of_ne {q : Path} (h : req.target G t ≠ some q) :
    (req.written k G t).node q = t.node q := by
  unfold PutRequest.written
  cases htarget : req.target G t with
  | none => rfl
  | some p =>
    have hne : q ≠ p := by
      rintro rfl
      exact h htarget
    exact FileTree.node_writeFile_of_ne hne _

theorem PutRequest.readFile_written (q : Path) : readFile (req.written k G t) q =
      if req.target G t = some q then some (req.kept t q ++ (req.landed k G t q).1)
        else readFile t q := by
  unfold PutRequest.written
  cases htarget : req.target G t with
  | none => simp
  | some p =>
    simp only [readFile_writeFile (PutRequest.holdsFile_of_target htarget), some.injEq]
    by_cases hq : q = p
    · simp [hq]
    · rw [if_neg hq, if_neg (Ne.symm hq)]

theorem PutRequest.readFile_after (hb : BucketAt G req.bucket t base) (q : Path) :
    readFile ((req.written k G t).writeFile (statPlace base) text) q = if q = statPlace base then
      some text
      else if req.target G t = some q then some (req.kept t q ++ (req.landed k G t q).1)
        else readFile t q := by
  have hstat := (hb.of_sameDirs (PutRequest.sameDirs_written k G req t)).holdsFile_statPlace
  rw [readFile_writeFile hstat, PutRequest.readFile_written]

theorem PutRequest.sameDirs_after :
    FileTree.SameDirs t ((req.written k G t).writeFile (statPlace base) text) :=
  (PutRequest.sameDirs_written k G req t).trans (FileTree.sameDirs_writeFile _ _ _)

theorem PutRequest.target_of_file {q : Path} (hres : t.resolve (req.path G) = some q)
    {bytes : Bytes} (hread : readFile t q = some bytes) : req.target G t = some q :=
  PutRequest.target_eq_some.mpr ⟨hres, FileTree.holdsFile_of_file (readFile_eq_some.mp hread)⟩

end After

def Sample.put (object : Bytes) (segs : List Bytes) : PutRequest where
  bucket := Sample.bucket
  object := object
  auid := 7
  length := some (decimal segs.flatten.length)
  input := segs.map .data

end RadosGateway
