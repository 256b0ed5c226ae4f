import RadosGateway.Proof.Effects
import RadosGateway.Proof.Upload
import RadosGateway.Workers

/-!
# Requests in several threads

Each upload or removal reads and writes its own file and leaves the directories as they are. What
they share is the statistics of their bucket. -/

namespace RadosGateway

open Text Posix Proc Option

structure Apart {n : Nat} (G : Global) (bucket : Bytes) (base : Path) (ws : Fin n → Worker)
    (t : FileTree) : Prop where
  bucket_eq : ∀ i, (ws i).bucket = bucket
  ne_stat : ∀ i, t.resolve ((ws i).path G) ≠ some (statPlace base)
  distinct : ∀ i j p, t.resolve ((ws i).path G) = some p →
    t.resolve ((ws j).path G) = some p → i = j
  removable : ∀ i req, ws i = .delete req → ∀ p node, t.resolve (req.path G) = some p →
    t.node p = some node →
      node ≠ .dir ∧ isOperand (req.path G) = true ∧ (req.path G).length + 7 < scmdSize

def Steady (base : Path) (t₀ t : FileTree) : Prop :=
  FileTree.SameDirs t₀ t ∧ (readStat t base).isSome

def ownFile {n : Nat} (G : Global) (ws : Fin n → Worker) (t₀ : FileTree) (i : Fin n)
    (t : FileTree) : Option Node :=
  (t₀.resolve ((ws i).path G)).bind t.node

def others {n : Nat} (G : Global) (base : Path) (ws : Fin n → Worker) (t₀ : FileTree) (i : Fin n)
    (t : FileTree) : Option Node × ({j // j ≠ i} → Option Node) :=
  (t.node (statPlace base), fun j => ownFile G ws t₀ j t)

section Parts

variable {k : Kernel} {G : Global} {bucket : Bytes} {base p : Path} {n : Nat} {ws : Fin n → Worker}
  {t₀ t t' : FileTree} {i : Fin n}

theorem ownFile_of_resolve (hres : t₀.resolve ((ws i).path G) = some p) :
    ownFile G ws t₀ i t = t.node p := by
  rw [ownFile, hres, bind_some]

/-- A worker that touches its own file keeps what the others have. -/
theorem Apart.keeps_others (hap : Apart G bucket base ws t₀)
    (hres : t₀.resolve ((ws i).path G) = some p) (ht : Steady base t₀ t)
    (hdirs : FileTree.SameDirs t t') (hoff : ∀ q, q ≠ p → t'.node q = t.node q) :
    Keeps (Steady base t₀) (others G base ws t₀ i) t t' := by
  have hstat : t'.node (statPlace base) = t.node (statPlace base) := by
    apply hoff
    rintro rfl
    exact hap.ne_stat i hres
  refine ⟨⟨ht.1.trans hdirs, ?_⟩, Prod.ext hstat (funext fun j => ?_)⟩
  · rw [readStat_congr hstat]
    exact ht.2
  · change ownFile G ws t₀ j t' = ownFile G ws t₀ j t
    cases hj : t₀.resolve ((ws j).path G) with
    | none => simp [ownFile, hj]
    | some q =>
      rw [ownFile_of_resolve hj, ownFile_of_resolve hj]
      apply hoff
      rintro rfl
      exact j.2 (hap.distinct j i q hj hres)

/-- The file of statistics is nobody's own. -/
theorem Apart.keeps_files (hap : Apart G bucket base ws t₀) (hb : BucketAt G bucket t₀ base)
    (ht : Steady base t₀ t) {text : Bytes} (htext : (SysInfo.zero.read text).isSome) :
    Keeps (Steady base t₀)
    (fun t j => ownFile G ws t₀ j t) t (t.writeFile (statPlace base) text) := by
  have hfile := (hb.of_sameDirs ht.1).holdsFile_statPlace
  refine ⟨⟨ht.1.trans (FileTree.sameDirs_writeFile t _ _), ?_⟩, funext fun j => ?_⟩
  · rw [readStat_of_file (by rw [readFile_writeFile hfile, if_pos rfl])]
    exact htext
  · change ownFile G ws t₀ j _ = ownFile G ws t₀ j t
    cases hj : t₀.resolve ((ws j).path G) with
    | none => simp [ownFile, hj]
    | some q =>
      rw [ownFile_of_resolve hj, ownFile_of_resolve hj]
      apply FileTree.node_writeFile_of_ne
      rintro rfl
      exact hap.ne_stat j hj

end Parts

def statOf : Option Node → Option SysInfo
  | some (.file text) => SysInfo.zero.read text
  | _ => some SysInfo.zero

theorem readStat_eq_statOf (t : FileTree) (base : Path) :
    readStat t base = statOf (t.node (statPlace base)) := by
  rcases hnode : t.node (statPlace base) with - | - | text
  · simp [readStat, confAt, hnode, statOf]
  · simp [readStat, confAt, hnode, statOf]
  · exact readStat_of_file (readFile_eq_some.mpr hnode)

section Update

variable {k : Kernel} {G : Global} {bucket : Bytes} {base : Path} {n : Nat} {ws : Fin n → Worker}
  {t₀ t : FileTree} {l : Nat} {X Y : Type} {mine : FileTree → X} {theirs : FileTree → Y}

/-- Reading the statistics in the middle of other requests. -/
theorem safe_parseConf (hb : BucketAt G bucket t₀ base) {R : SysInfo → Prop}
    (hR : ∀ t', Keeps (Steady base t₀) mine t t' → ∀ info, statOf (t'.node (statPlace base)) =
      some info → R info) :
    (parseConf (G.statPath bucket) .zero).Safe (answerShared k) (Steady base t₀) mine theirs
      (fun r _ => R r.2) l t := by
  refine Safe.perform_bind fun t₁ ht₁ => ?_
  have hres := (hb.of_sameDirs ht₁.1.1).resolve_statPath
  cases hnode : t₁.node (statPlace base) with
  | none =>
    have hopen : openTree t₁ (cstr (G.statPath bucket)) .rdonly = none := by
      simp [openTree, hres, hnode]
    have hzero : R SysInfo.zero := hR t₁ ht₁ _ (by rw [hnode]; rfl)
    simp only [answerShared, answer, hopen]
    exact ⟨.refl ht₁.1, Safe.pure fun _ _ => hzero⟩
  | some node =>
    have hopen : openTree t₁ (cstr (G.statPath bucket)) .rdonly = some (statPlace base, t₁) := by
      simp [openTree, hres, hnode]
    simp only [answerShared, answer, hopen]
    refine ⟨.refl ht₁.1, Safe.perform_bind fun t₂ ht₂ => ⟨.refl ht₂.1, ?_⟩⟩
    have hread := hR t₂ (ht₁.trans ht₂)
    have hsome := ht₂.1.2
    rw [readStat_eq_statOf] at hsome
    rcases hnode₂ : t₂.node (statPlace base) with - | - | text
    · rw [hnode₂] at hread
      simp only [answerShared, answer, readFile, hnode₂]
      exact Safe.pure fun _ _ => hread _ rfl
    · rw [hnode₂] at hread
      simp only [answerShared, answer, readFile, hnode₂]
      exact Safe.pure fun _ _ => hread _ rfl
    · rw [hnode₂] at hread hsome
      obtain ⟨info, hinfo⟩ := isSome_iff_exists.mp hsome
      obtain ⟨⟨assigns, r⟩, hconf, rfl⟩ := map_eq_some_iff.mp hinfo
      simp only [answerShared, answer, readFile, hnode₂, hconf]
      exact Safe.pure fun _ _ => hread _ hinfo

/-- Writing them back, inside of the critical section. -/
theorem safe_updateStat (hap : Apart G bucket base ws t₀) (hb : BucketAt G bucket t₀ base)
    (ht : Steady base t₀ t) {info : SysInfo} (hinfo : statOf (t.node (statPlace base)) = some info)
    (f : SysInfo → SysInfo) :
    (updateStat G bucket f).Safe (answerShared k) (Steady base t₀)
    (fun t => t.node (statPlace base))
      (fun t j => ownFile G ws t₀ j t)
      (fun _ t => statOf (t.node (statPlace base)) = some (f info).narrowed) l t := by
  have hread : (parseConf (G.statPath bucket) .zero).Safe (answerShared k) (Steady base t₀)
      (fun t => t.node (statPlace base)) (fun t j => ownFile G ws t₀ j t)
      (fun r _ => r.2 = info) l t := by
    apply safe_parseConf (R := fun info' => info' = info) hb
    intro t' ht' info' hinfo'
    have hcell : t'.node (statPlace base) = t.node (statPlace base) := ht'.2
    rw [hcell, hinfo] at hinfo'
    exact (some.inj hinfo').symm
  refine hread.bind ht fun r l₁ t₁ ht₁ hr => ?_
  subst hr
  refine Safe.perform_bind fun t₂ ht₂ => ?_
  have hb₂ := hb.of_sameDirs ht₂.1.1
  have hopen : openTree t₂ (cstr (G.statPath bucket)) .creatTrunc =
      some (statPlace base, t₂.writeFile (statPlace base) []) := by
    simp [openTree, hb₂.resolve_statPath, hb₂.holdsFile_statPlace]
  simp only [answerShared, answer, hopen]
  refine ⟨hap.keeps_files hb ht₂.1 (by decide), Safe.perform_bind fun t₃ ht₃ => ?_⟩
  have hempty : t₃.node (statPlace base) = some (.file []) :=
    ht₃.2.trans (FileTree.node_writeFile_self hb₂.holdsFile_statPlace [])
  have hfile := (hb.of_sameDirs ht₃.1.1).holdsFile_statPlace
  have hputs : fputsTree t₃ (statPlace base) (f r.2).statText =
      t₃.writeFile (statPlace base) (f r.2).statText := by
    simp [fputsTree, hempty, overwrite]
  simp only [answerShared, answer, hputs]
  refine ⟨hap.keeps_files hb ht₃.1 (by rw [SysInfo.read_statText]; rfl), Safe.pure fun t₄ ht₄ => ?_⟩
  have hcell : t₄.node (statPlace base) = some (.file (f r.2).statText) :=
    ht₄.2.trans (FileTree.node_writeFile_self hfile _)
  rw [hcell]
  exact SysInfo.read_statText _ _

end Update

def Worker.update (k : Kernel) (G : Global) (t : FileTree) : Worker → Option (SysInfo → SysInfo)
  | put req => some (SysInfo.addObject (if req.early.isSome then 0 else req.objSize k G t))
  | delete req =>
    (statSize k t (req.path G)).map fun size => SysInfo.removeObject (UInt64.ofNat size)

section Before

variable {k : Kernel} {G : Global} {bucket : Bytes} {base p : Path} {n : Nat} {ws : Fin n → Worker}
  {t₀ t : FileTree} {i : Fin n} {l : Nat}

/-- The loop of an upload writes its own file only. -/
theorem safe_putLoop (hap : Apart G bucket base ws t₀) (hres : t₀.resolve ((ws i).path G) = some p)
    (req : PutRequest) {fuel ofs pos : Nat} {input : List Segment} {content : Bytes}
    (hnode : t.node p = some (.file content)) (hfuel : inputFuel input ≤ fuel)
    (hpos : req.multipart = false → pos = content.length) :
    (putLoop G req p fuel ofs pos input).Safe (answerShared k) (Steady base t₀) (ownFile G ws t₀ i)
      (others G base ws t₀ i) (fun r _ => r = loopResult ofs (chunks G req.length fuel ofs input)
        (landed (k.accept p) content.length (chunks G req.length fuel ofs input).1).2) l t := by
  induction fuel generalizing ofs pos input t content l with
  | zero => simp [inputFuel] at hfuel
  | succ fuel ih =>
    simp only [putLoop, chunks]
    rcases hget : getData G req.length ofs input with ⟨r | data, input'⟩
    · exact Safe.pure fun _ _ => by simp [loopResult, landed]
    · by_cases hdata : data = []
      · simp only [hdata, if_true]
        exact Safe.pure fun _ _ => by simp [loopResult, landed]
      · simp only [hdata, if_false]
        refine Safe.perform_bind fun t₁ ht₁ => ?_
        have hnode₁ : t₁.node p = some (.file content) := by
          rw [← ownFile_of_resolve hres, ht₁.2, ownFile_of_resolve hres, hnode]
        simp only [answerShared, answer, writeTree_append hnode₁ hpos]
        cases haccept : k.accept p content.length data.length with
        | none =>
          exact ⟨.refl ht₁.1, Safe.pure fun _ _ => by simp [landed, haccept, loopResult]⟩
        | some n =>
          have hfile := FileTree.holdsFile_of_file hnode₁
          have hn := length_take_of_accept haccept
          have hlt := inputFuel_getData_lt hget hdata
          have hpos' : req.multipart = false → pos + n = (content ++ data.take n).length := by
            intro hm
            rw [List.length_append, hn, hpos hm]
          refine ⟨hap.keeps_others hres ht₁.1 (FileTree.sameDirs_writeFile t₁ p _)
            (fun q hq => FileTree.node_writeFile_of_ne hq _), ?_⟩
          refine (ih (FileTree.node_writeFile_self hfile (content ++ data.take n)) (by omega)
            hpos').mono fun r _ hr => ?_
          rw [hr, List.length_append, hn]
          simp only [landed, haccept, loopResult_cons]

theorem safe_checkQuota (hb : BucketAt G bucket t₀ base) (q : Quotas) (size : UInt64) {X Y : Type}
    {mine : FileTree → X} {theirs : FileTree → Y} (ht : Steady base t₀ t) :
    (checkQuota G q bucket size).Safe (answerShared k)
    (Steady base t₀) mine theirs (fun _ _ => True) l t := by
  have hread : (parseConf (G.statPath bucket) .zero).Safe (answerShared k) (Steady base t₀) mine
      theirs (fun _ _ => True) l t :=
    safe_parseConf (R := fun _ => True) hb fun _ _ _ _ => trivial
  unfold checkQuota
  split_ifs
  · exact hread.bind ht fun _ _ _ _ _ => Safe.pure fun _ _ => trivial
  · exact Safe.pure fun _ _ => trivial

theorem PutRequest.target_congr (req : PutRequest) (h : FileTree.SameDirs t₀ t) :
    req.target G t = req.target G t₀ := by
  unfold PutRequest.target
  rw [← FileTree.resolve_congr h]
  cases t₀.resolve (req.path G) with
  | none => rfl
  | some p => simp [Option.filter, h.holdsFile_eq p]

theorem safe_upload (hap : Apart G bucket base ws t₀) (hb : BucketAt G bucket t₀ base)
    {req : PutRequest} (hput : ws i = .put req)
    (hown : ownFile G ws t₀ i t = ownFile G ws t₀ i t₀) :
    (req.upload G).Safe (answerShared k) (Steady base t₀) (ownFile G ws t₀ i)
    (others G base ws t₀ i)
      (fun exit _ => exit.objSize = if req.early.isSome then 0 else req.objSize k G t₀) l t := by
  have hbucket : req.bucket = bucket := by
    have hi := hap.bucket_eq i
    rwa [hput] at hi
  unfold PutRequest.upload
  cases hearly : req.early with
  | some r => exact Safe.pure fun _ _ => rfl
  | none =>
    refine Safe.perform_bind fun t₁ ht₁ => ⟨.refl ht₁.1, Safe.perform_bind fun t₂ ht₂ => ?_⟩
    have htarget₂ : req.target G t₂ = req.target G t₀ := req.target_congr ht₂.1.1
    cases htarget : req.target G t₀ with
    | none =>
      simp only [answerShared, answer, openTree_of_target_none (htarget₂.trans htarget)]
      refine ⟨.refl ht₂.1, Safe.pure fun _ _ => ?_⟩
      simp [PutRequest.objSize, PutRequest.ended, htarget]
    | some p =>
      have hres : t₀.resolve ((ws i).path G) = some p := by
        rw [hput]
        exact (PutRequest.target_eq_some.mp htarget).1
      have hfile₂ := PutRequest.holdsFile_of_target (htarget₂.trans htarget)
      have hnode₂ : t₂.node p = t₀.node p := by
        have hown₂ := (ht₁.trans ht₂).2.trans hown
        rwa [ownFile_of_resolve hres, ownFile_of_resolve hres] at hown₂
      have hkept : req.kept t₂ p = req.kept t₀ p := by
        simp only [PutRequest.kept, bytesAt, hnode₂]
      have hpos : req.multipart = false → 0 = (req.kept t₀ p).length := by
        intro hm
        simp [PutRequest.kept, hm]
      simp only [answerShared, answer, openTree_of_target (htarget₂.trans htarget)]
      refine ⟨hap.keeps_others hres ht₂.1 (FileTree.sameDirs_writeFile t₂ p _)
        (fun q hq => FileTree.node_writeFile_of_ne hq _), ?_⟩
      refine Safe.perform_bind fun t₃ ht₃ => ⟨.refl ht₃.1, ?_⟩
      have hnode₃ : t₃.node p = some (.file (req.kept t₀ p)) := by
        rw [← ownFile_of_resolve hres, ht₃.2, ownFile_of_resolve hres, ← hkept]
        exact FileTree.node_writeFile_self hfile₂ _
      refine (safe_putLoop hap hres req hnode₃ (le_refl _) hpos).bind ht₃.1
        fun r l₄ t₄ ht₄ hr => ?_
      have hloop : r = loopResult 0 (req.received G) (req.landed k G t₀ p).2 := hr
      have hsize : req.objSize k G t₀ = UInt64.ofNat
          ((if (req.landed k G t₀ p).2 ∧ (req.received G).2 = none then
            some (req.received G).1.flatten.length else none).getD 0) := by
        simp [PutRequest.objSize, PutRequest.ended, htarget]
      rw [hloop, hsize, loopResult]
      cases (req.landed k G t₀ p).2 with
      | false => exact Safe.pure fun _ _ => by simp
      | true =>
        cases (req.received G).2 with
        | some r => exact Safe.pure fun _ _ => by simp
        | none =>
          rw [hbucket]
          exact (safe_checkQuota hb _ _ ht₄).bind ht₄ fun _ _ _ _ _ =>
            Safe.pure fun _ _ => by simp

theorem statSize_congr (h : FileTree.SameDirs t₀ t) {path : Bytes}
    (hown : (t₀.resolve path).bind t.node = (t₀.resolve path).bind t₀.node) :
    statSize k t path = statSize k t₀ path := by
  unfold statSize
  rw [← FileTree.resolve_congr h]
  cases hres : t₀.resolve path with
  | none => rfl
  | some p =>
    rw [hres, bind_some, bind_some] at hown
    rw [bind_some, bind_some, hown]

/-- Every worker touches its own file and the statistics. -/
theorem safe_handle (hap : Apart G bucket base ws t₀) (hb : BucketAt G bucket t₀ base)
    (ht : Steady base t₀ t) (hown : ownFile G ws t₀ i t = ownFile G ws t₀ i t₀) :
    ((ws i).handle G).Safe (answerShared k) (Steady base t₀) (ownFile G ws t₀ i)
      (others G base ws t₀ i) (fun e _ => e.update = (ws i).update k G t₀) l t := by
  cases hw : ws i with
  | put req =>
    refine (safe_upload hap hb hw hown).bind ht fun exit l₁ t₁ ht₁ hexit => ?_
    refine Safe.pure fun _ _ => ?_
    rw [hexit]
    rfl
  | delete req =>
    refine Safe.perform_bind fun t₁ ht₁ => ⟨.refl ht₁.1, Safe.perform_bind fun t₂ ht₂ => ?_⟩
    have hown₂ := (ht₁.trans ht₂).2.trans hown
    have hpath : (ws i).path G = req.path G := by rw [hw]; rfl
    have hsize₂ : statSize k t₂ (req.path G) = statSize k t₀ (req.path G) := by
      apply statSize_congr ht₂.1.1
      rw [← hpath]
      exact hown₂
    simp only [answerShared, answer, hsize₂]
    refine ⟨.refl ht₂.1, ?_⟩
    cases hsize : statSize k t₀ (req.path G) with
    | none =>
      refine Safe.pure fun _ _ => ?_
      simp [Worker.update, hsize]
    | some size =>
      obtain ⟨p, hres, hnode⟩ := bind_eq_some_iff.mp hsize
      obtain ⟨node, hnode, -⟩ := map_eq_some_iff.mp hnode
      obtain ⟨hdir, hoperand, hfits⟩ := hap.removable i req hw p node hres hnode
      have hline : ¬ scmdSize ≤ (rmLine (req.path G)).length := by
        rw [length_rmLine]
        exact Nat.not_le.mpr hfits
      simp only [monCommandRm, hline, if_false]
      refine Safe.perform_bind fun t₃ ht₃ => ?_
      have hresi : t₀.resolve ((ws i).path G) = some p := by rw [hpath, hres]
      have hnode₃ : t₃.node p = some node := by
        have hown₃ := ht₃.2.trans hown₂
        rwa [ownFile_of_resolve hresi, ownFile_of_resolve hresi, hnode] at hown₃
      have hdir₃ : t₃.node p ≠ some .dir := by
        rw [hnode₃]
        simpa using hdir
      have hrm : rmTree t₃ (req.path G) = t₃.removeTree p := by
        cases node with
        | dir => exact absurd rfl hdir
        | file bytes =>
          exact rmTree_of_file ((FileTree.resolve_congr ht₃.1.1 _).symm.trans hres)
            (readFile_eq_some.mpr hnode₃)
      simp only [answerShared, answer, runLine_rmLine hoperand, hrm]
      refine ⟨hap.keeps_others hresi ht₃.1 (FileTree.sameDirs_removeTree hdir₃)
        (fun q hq => (FileTree.node_removeTree_of_ne_dir hdir₃ q).trans (if_neg hq)), ?_⟩
      refine Safe.pure fun _ _ => ?_
      simp [Worker.update, hsize]

end Before

def Worker.effect (k : Kernel) (G : Global) (t : FileTree) (w : Worker) (info : SysInfo) :
    SysInfo :=
  match w.update k G t with
  | none => info
  | some f => (f info).narrowed

/-- The workers are disciplined threads: what they share is the file of statistics. -/
theorem disciplined {k : Kernel} {G : Global} {bucket : Bytes} {base : Path} {n : Nat}
    {ws : Fin n → Worker} {t₀ : FileTree} (hap : Apart G bucket base ws t₀)
    (hb : BucketAt G bucket t₀ base) :
    Disciplined (answerShared k) (fun i => (ws i).task G) (Steady base t₀) (ownFile G ws t₀)
      (fun t => t.node (statPlace base)) statOf (fun i => (ws i).effect k G t₀)
      (fun i e => e.update = (ws i).update k G t₀) t₀ where
  before := fun i l t ht hown => safe_handle hap hb ht hown
  skip := by
    intro i e hgood hcritical info
    have hnone : e.update = none := map_eq_none_iff.mp hcritical
    rw [Worker.effect, ← hgood, hnone]
  critical := by
    intro i e p l t info hgood hcritical ht hinfo
    obtain ⟨f, hf, rfl⟩ := map_eq_some_iff.mp hcritical
    have heffect : (ws i).effect k G t₀ info = (f info).narrowed := by
      rw [Worker.effect, ← hgood, hf]
    rw [hap.bucket_eq i, heffect]
    exact safe_updateStat hap hb ht hinfo f
  after := by
    intro i e l t ht
    exact Safe.perform_bind fun t₁ ht₁ => ⟨.refl ht₁.1, Safe.pure fun _ _ => trivial⟩

/-- Workers one after another, as a fold. -/
theorem serial_eq_foldlM (k : Kernel) (G : Global) {n : Nat} (ws : Fin n → Worker)
    (order : List (Fin n)) (w : World) :
    order.foldlM (fun x i => (((ws i).task G).program.run (answerShared k) x).map Prod.snd)
    (w.fsuid, w.tree) =
      (Workers.serial k G ws order w).map fun w => (w.fsuid, w.tree) := by
  induction order generalizing w with
  | nil => rfl
  | cons i order ih =>
    have hsame : ∀ (c : Sys) (w : World), answerShared k c (w.fsuid, w.tree) =
        ((answer k c w).1, ((answer k c w).2.fsuid, (answer k c w).2.tree)) := fun _ _ => rfl
    have hrun : ((ws i).task G).program.run (answerShared k) (w.fsuid, w.tree) =
        (exec k ((ws i).execute G) w).map (Prod.map id fun w => (w.fsuid, w.tree)) := by
      rw [Worker.program_task]
      exact run_map (answer k) hsame _ w
    unfold Workers.serial at ih ⊢
    rw [List.foldlM_cons, List.foldlM_cons, hrun]
    cases exec k ((ws i).execute G) w with
    | none => rfl
    | some r => exact ih r.2

/-- If no request starts to update the statistics while another is doing it, then the statistics are
in the end what they are after the same requests one after another, in some order. -/
theorem no_lost_update {k : Kernel} {G : Global} {bucket : Bytes} {base : Path} {n : Nat}
    {ws : Fin n → Worker} {uid : Fin n → Nat} {w : World} {schedule : List (Fin n)}
    {P : Workers n} (hb : BucketAt G bucket w.tree base) (hstat : (readStat w.tree base).isSome)
    (hap : Apart G bucket base ws w.tree)
    (hrun : Transition.Steps (Workers.step k G ws) (Workers.Exclusive G ws)
      (Workers.start G ws uid w.tree) schedule P) (hfinished : P.Finished) :
    ∃ order : List (Fin n), order.Nodup ∧ (∀ i, i ∈ order) ∧ ∃ w',
      Workers.serial k G ws order w = some w' ∧
        ∃ info, readStat P.shared base = some info ∧ readStat w'.tree base = some info := by
  obtain ⟨info, hinfo⟩ := isSome_iff_exists.mp hstat
  rw [readStat_eq_statOf] at hinfo
  obtain ⟨order, hnodup, hall, hserial⟩ := (disciplined (k := k) hap hb).exists_serial
    ⟨.refl w.tree, hstat⟩ hinfo hrun hfinished
  obtain ⟨x, hx, info', hshared, hend⟩ := hserial w.fsuid
  rw [serial_eq_foldlM] at hx
  obtain ⟨w', hw', rfl⟩ := map_eq_some_iff.mp hx
  refine ⟨order, hnodup, hall, w', hw', info', ?_, ?_⟩
  · rw [readStat_eq_statOf, hshared]
  · rw [readStat_eq_statOf, hend]

def Sample.workers : Fin 2 → Worker :=
  ![.put (Sample.put (ascii "k") [ascii "hello"]), .put (Sample.put (ascii "l") [ascii "hi"])]

/-- The two uploads mixed, with one update of the statistics after the other. -/
theorem no_lost_update_sample : ∃ P : Workers 2, P.Finished ∧ ∃ order : List (Fin 2), order.Nodup ∧
    (∀ i, i ∈ order) ∧
      ∃ w', Workers.serial Sample.kernel Sample.G Sample.workers order Sample.world = some w' ∧
        ∃ info, readStat P.shared Sample.base = some info ∧
        readStat w'.tree Sample.base = some info := by
  have hsome : ([0, 1, 0, 1, 0, 1, 0, 1, 0, 0, 0, 0, 0, 0, 0, 1, 1, 1, 1, 1, 1, 1, 0].foldlM
      (fun (P : Workers 2) i => if P.Exclusive Sample.G Sample.workers i then
        P.step Sample.kernel Sample.G Sample.workers i else none)
      (Workers.start Sample.G Sample.workers (fun _ => 0) Sample.world.tree)).map
        (fun P => decide P.Finished) = some true := by decide
  obtain ⟨P, hP, hfinished⟩ := map_eq_some_iff.mp hsome
  have hne : Sample.world.tree.resolve ((Sample.workers 0).path Sample.G) ≠
      Sample.world.tree.resolve ((Sample.workers 1).path Sample.G) := by decide
  have hap : Apart Sample.G Sample.bucket Sample.base Sample.workers Sample.world.tree := by
    refine ⟨by decide, by decide, ?_, ?_⟩
    · intro i j p hi hj
      fin_cases i <;> fin_cases j
      · rfl
      · exact absurd (hi.trans hj.symm) hne
      · exact absurd (hj.trans hi.symm) hne
      · rfl
    · intro i req hreq
      fin_cases i <;> cases hreq
  exact ⟨P, of_decide_eq_true hfinished, no_lost_update Sample.bucketAt (by decide) hap
    (.of_foldlM hP) (of_decide_eq_true hfinished)⟩

/-- Both uploads read the statistics before one of them writes: one object is counted, while either
order of the uploads counts two. -/
theorem update_lost :
    ((List.replicate 8 (0 : Fin 2) ++ List.replicate 11 1 ++ List.replicate 4 0).foldlM
      (Workers.step Sample.kernel Sample.G Sample.workers)
      (Workers.start Sample.G Sample.workers (fun _ => 0) Sample.world.tree)).map
        (fun P : Workers 2 =>
          (decide P.Finished, (readStat P.shared Sample.base).map SysInfo.numEntries)) =
      some (true, some 1) ∧ ∀ order : List (Fin 2), order.Nodup → (∀ i, i ∈ order) →
      (Workers.serial Sample.kernel Sample.G Sample.workers order Sample.world).map
        (fun w => (readStat w.tree Sample.base).map SysInfo.numEntries) = some (some 2) := by
  refine ⟨by decide, fun order hnodup hall => ?_⟩
  have hserial : ∀ order ∈ (List.finRange 2).permutations',
      (Workers.serial Sample.kernel Sample.G Sample.workers order Sample.world).map
        (fun w => (readStat w.tree Sample.base).map SysInfo.numEntries) = some (some 2) := by decide
  apply hserial
  rw [List.mem_permutations']
  exact (List.perm_ext_iff_of_nodup hnodup (List.nodup_finRange 2)).mpr fun i => by simp [hall i]

end RadosGateway
