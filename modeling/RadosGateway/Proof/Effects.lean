import RadosGateway.Proof.Removal
import RadosGateway.Proof.Stat
import RadosGateway.Proof.Download

/-!
# What a removal and a copy leave behind

A removal whose path is a plain operand takes away what the path leads to, a file or a directory
with everything below it, and counts one object down. A copy moves its file. -/

namespace RadosGateway

open Text Posix

theorem walk_of_empty {t : FileTree} {cur p : Path} {cs : List Bytes} (hcs : ∀ c ∈ cs, c = [])
    (h : t.walk cur cs = some p) : p = cur := by
  induction cs with
  | nil => simpa [FileTree.walk] using h.symm
  | cons c cs ih =>
    obtain ⟨rfl, hrest⟩ := List.forall_mem_cons.mp hcs
    simp only [FileTree.walk] at h
    split_ifs at h
    exact ih hrest (by simpa [lexStep] using h)

theorem components_of_lastName {s name : Bytes} (h : lastName s = some name) :
    ∃ front back, components s = front ++ name :: back ∧ ∀ c ∈ back, c = [] := by
  have hfind : (components s).reverse.find? (· ≠ []) = some name := by
    rw [← List.head?_filter, List.filter_reverse, List.head?_reverse]
    exact h
  obtain ⟨-, back, front, hsplit, hback⟩ := List.find?_eq_some_iff_append.mp hfind
  refine ⟨front.reverse, back.reverse, ?_, ?_⟩
  · have hrev := congrArg List.reverse hsplit
    simpa using hrev
  · intro c hc
    simpa using hback c (List.mem_reverse.mp hc)

/-- A path that ends in dots is one of a directory. -/
theorem dir_of_endsInDots {t : FileTree} {s : Bytes} {p : Path} (hdots : endsInDots s = true)
    (h : t.resolve s = some p) : t.node p = some .dir := by
  simp only [endsInDots, Bool.or_eq_true, decide_eq_true_eq] at hdots
  obtain ⟨name, hlast, hname⟩ : ∃ name, lastName s = some name ∧ (name = dot ∨ name = dotdot) := by
    rcases hdots with hdot | hdotdot
    · exact ⟨dot, hdot, .inl rfl⟩
    · exact ⟨dotdot, hdotdot, .inr rfl⟩
  obtain ⟨front, back, hcomponents, hback⟩ := components_of_lastName hlast
  unfold FileTree.resolve at h
  split_ifs at h
  rw [hcomponents, FileTree.walk_append] at h
  obtain ⟨cur, -, h⟩ := Option.bind_eq_some_iff.mp h
  simp only [FileTree.walk] at h
  split_ifs at h with hdir
  rw [walk_of_empty hback h]
  rcases hname with rfl | rfl
  · simpa [lexStep] using hdir.1
  · have hstep : lexStep cur dotdot = cur.tail := by simp [lexStep, dot, dotdot]
    rw [hstep]
    cases cur with
    | nil => exact t.root
    | cons c cur =>
      have hsome : (t.node (c :: cur)).isSome := by simp [hdir.1]
      exact t.parent hsome

theorem rmTree_of_file {t : FileTree} {path bytes : Bytes} {p : Path}
    (hres : t.resolve path = some p) (hread : readFile t p = some bytes) :
    rmTree t path = t.removeTree p := by
  have hdots : ¬ endsInDots path = true := by
    intro hdots
    have hdir := dir_of_endsInDots hdots hres
    rw [readFile_eq_some.mp hread] at hdir
    cases hdir
  rw [rmTree, if_neg hdots, hres]

/-- A removal takes places away and adds none: what still leads somewhere leads where it led. -/
def Within (u t : FileTree) : Prop := ∀ q, (u.node q).isSome → t.node q = u.node q

theorem rmTree_within (t : FileTree) (path : Bytes) : Within (rmTree t path) t := by
  intro q hq
  unfold rmTree at hq ⊢
  split_ifs at hq ⊢ with hdots
  · rfl
  · cases hres : t.resolve path with
    | none => rfl
    | some p =>
      simp only [hres, FileTree.node_removeTree] at hq ⊢
      split_ifs at hq ⊢ with hbelow
      · cases hq
      · rfl

theorem Within.walk_eq {t u : FileTree} (h : Within u t) {cur q : Path} {cs : List Bytes}
    (hwalk : u.walk cur cs = some q) : t.walk cur cs = some q := by
  induction cs generalizing cur with
  | nil => exact hwalk
  | cons c cs ih =>
    simp only [FileTree.walk] at hwalk ⊢
    split_ifs at hwalk with hdir
    have hdir' : t.node cur = some .dir := by rw [h cur (by simp [hdir.1]), hdir.1]
    rw [if_pos ⟨hdir', hdir.2⟩]
    exact ih hwalk

theorem Within.resolve_eq {t u : FileTree} (h : Within u t) {s : Bytes} {q : Path}
    (hres : u.resolve s = some q) : t.resolve s = some q := by
  unfold FileTree.resolve at hres ⊢
  split_ifs at hres ⊢
  exact h.walk_eq hres

theorem Within.existing_eq {t u : FileTree} (h : Within u t) {s : Bytes} {q : Path}
    (hfound : existing u s = some q) : existing t s = some q := by
  obtain ⟨hres, hnode⟩ := existing_eq_some.mp hfound
  exact existing_eq_some.mpr ⟨h.resolve_eq hres, h q hnode ▸ hnode⟩

/-- What a path leads to keeps its content exactly if the path still leads there. -/
theorem Within.contentOf_eq_iff {t u : FileTree} (h : Within u t) (s : Bytes) :
    contentOf u s = contentOf t s ↔ ∀ r, existing t s = some r → existing u s = some r := by
  constructor
  · intro hsame r hfound
    have hsome : existing u s ≠ none := by
      intro hnone
      simp [contentOf, hnone, hfound] at hsame
    obtain ⟨q, hq⟩ := Option.ne_none_iff_exists'.mp hsome
    rw [hq, ← h.existing_eq hq, hfound]
  · intro hkept
    cases hfound : existing t s with
    | none =>
      have hnone : existing u s = none := by
        by_contra hsome
        obtain ⟨q, hq⟩ := Option.ne_none_iff_exists'.mp hsome
        rw [h.existing_eq hq] at hfound
        cases hfound
      simp [contentOf, hfound, hnone]
    | some r =>
      have hr := hkept r hfound
      have hnode := h r (existing_eq_some.mp hr).2
      simp [contentOf, hfound, hr, readFile, hnode]

section Delete

variable (k : Kernel) {G : Global} {req : DeleteRequest} {w : World} {base p : Path} {bytes : Bytes}

theorem statSize_eq_none_iff (t : FileTree) (path : Bytes) :
    statSize k t path = none ↔ existing t path = none := by
  unfold statSize existing
  cases t.resolve path with
  | none => simp
  | some p => rcases hnode : t.node p with - | - | bytes <;> simp [hnode]

theorem exec_delete_missing (h : existing w.tree (req.path G) = none) :
    exec k (req.execute G) w = some (0, w) := by
  have hsize := (statSize_eq_none_iff k w.tree (req.path G)).mpr h
  simp only [DeleteRequest.execute, exec_setfsuid_bind, exec_statFile_bind, hsize]
  rfl

/-- A removal of one plain operand, while the bucket stays in its place. -/
theorem exec_delete (hb : BucketAt G req.bucket (rmTree w.tree (req.path G)) base)
    (hoperand : isOperand (req.path G) = true) {size : Nat}
    (hsize : statSize k w.tree (req.path G) = some size) : exec k (req.execute G) w =
      if scmdSize ≤ (req.path G).length + 7 then none
      else (readStat (rmTree w.tree (req.path G)) base).map fun info =>
        (0, ⟨w.fsuid, (rmTree w.tree (req.path G)).writeFile (statPlace base)
          (info.removeObject (UInt64.ofNat size)).statText⟩) := by
  simp only [DeleteRequest.execute, exec_setfsuid_bind, exec_statFile_bind, hsize]
  rw [exec_bind]
  split_ifs with hlong
  · rw [← length_rmLine] at hlong
    simp [monCommandRm, hlong]
  · rw [← length_rmLine] at hlong
    rw [exec_monCommandRm (Nat.not_le.mp hlong) hoperand, Option.bind_some, exec_bind,
      exec_updateStat k hb]
    cases readStat (rmTree w.tree (req.path G)) base <;> rfl

/-- A removal of a file. -/
theorem exec_delete_file (hb : BucketAt G req.bucket w.tree base)
    (hoperand : isOperand (req.path G) = true) (hres : w.tree.resolve (req.path G) = some p)
    (hread : readFile w.tree p = some bytes) : exec k (req.execute G) w =
      if scmdSize ≤ (req.path G).length + 7 then none
        else (readStat (w.tree.removeTree p) base).map fun info =>
        (0, ⟨w.fsuid, (w.tree.removeTree p).writeFile (statPlace base)
          (info.removeObject (UInt64.ofNat bytes.length)).statText⟩) := by
  have hfile := readFile_eq_some.mp hread
  have hsize : statSize k w.tree (req.path G) = some bytes.length := by
    simp [statSize, hres, hfile]
  have hdirs : FileTree.SameDirs w.tree (w.tree.removeTree p) :=
    FileTree.sameDirs_removeTree (by simp [hfile])
  have hrm := rmTree_of_file hres hread
  have hb' : BucketAt G req.bucket (rmTree w.tree (req.path G)) base := by
    rw [hrm]
    exact hb.of_sameDirs hdirs
  rw [exec_delete k hb' hoperand hsize, hrm]

end Delete

theorem exec_copy (k : Kernel) {G : Global} {req : CopyRequest} {w : World}
    (htimes : req.timesParse = true) :
    exec k (req.execute G) w =
      some ((renameTree w.tree (req.srcPath G) (req.dstPath G)).1.elim 0 fun e => -e.code,
        ⟨w.fsuid, (renameTree w.tree (req.srcPath G) (req.dstPath G)).2⟩) := by
  simp only [CopyRequest.execute, htimes, Bool.not_true, Bool.false_eq_true, if_false,
    exec_setfsuid_bind, exec_renameFile_bind]
  cases (renameTree w.tree (req.srcPath G) (req.dstPath G)).1 <;> rfl

theorem Errno.code_pos (e : Errno) : 0 < e.code := by
  cases e <;> decide

/-- A rename that succeeds on a file moves it, or leaves it where both paths are one. -/
theorem renameTree_of_file {t t' : FileTree} {src dst bytes : Bytes} {p : Path}
    (hres : t.resolve src = some p) (hread : readFile t p = some bytes)
    (h : renameTree t src dst = (none, t')) :
    ∃ q, t.resolve dst = some q ∧ ((p = q ∧ t' = t) ∨
        (p ≠ q ∧ t.node q ≠ some .dir ∧ t.movable p q = true ∧ t' = t.move p q)) := by
  have hfile := readFile_eq_some.mp hread
  have hdir : t.node p ≠ some .dir := by simp [hfile]
  simp only [renameTree, hres, renameTarget, if_neg hdir] at h
  cases hdst : t.resolve dst with
  | none => simp [hdst] at h
  | some q =>
    refine ⟨q, rfl, ?_⟩
    simp only [hdst] at h
    split_ifs at h with hbusy hmissing hsame hinside hisdir hnotdir hmovable
    · simp only [Prod.mk.injEq, reduceCtorEq, false_and] at h
    · simp only [Prod.mk.injEq, reduceCtorEq, false_and] at h
    · exact .inl ⟨hsame, (Prod.mk.inj h).2.symm⟩
    · simp only [Prod.mk.injEq, reduceCtorEq, false_and] at h
    · simp only [Prod.mk.injEq, reduceCtorEq, false_and] at h
    · simp only [Prod.mk.injEq, reduceCtorEq, false_and] at h
    · refine .inr ⟨hsame, ?_, hmovable, (Prod.mk.inj h).2.symm⟩
      exact fun hq => hisdir ⟨hdir, hq⟩
    · simp only [Prod.mk.injEq, reduceCtorEq, false_and] at h

end RadosGateway
