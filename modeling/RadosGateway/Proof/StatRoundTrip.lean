import RadosGateway.Proof.Stat

/-!
# Writing the statistics and reading them back

A number is printed with 64 bits and read with 32, and widened with its sign. It comes back when its
upper half repeats its bit 31, and then any number of times.
-/

namespace RadosGateway

open Text Posix Option

namespace SysInfo

def Int32Like (n : UInt64) : Prop := n.toNat < 2 ^ 31 ∨ 2 ^ 64 - 2 ^ 31 ≤ n.toNat

instance (n : UInt64) : Decidable (Int32Like n) := inferInstanceAs (Decidable (_ ∨ _))

theorem narrow_eq_self_iff (n : UInt64) : narrow n = n ↔ Int32Like n := by
  have hlt := n.toNat_lt
  rw [← UInt64.toNat_inj, narrow, signed, toI32_toI64, toNat_widen, toI32, Int.bmod_def, Int32Like]
  split_ifs <;> omega

theorem narrowed_eq_self_iff (info : SysInfo) : info.narrowed = info ↔
      Int32Like info.totalSize ∧ Int32Like info.totalSizeRounded ∧ Int32Like info.numEntries := by
  obtain ⟨size, rounded, entries⟩ := info
  rw [narrowed, SysInfo.mk.injEq, narrow_eq_self_iff, narrow_eq_self_iff, narrow_eq_self_iff]

def rewrite (path : Bytes) : Nat → SysInfo → Prog SysInfo
  | 0, info => pure info
  | n + 1, info => do
      let _ ← syncStat path info
      let r ← parseConf path .zero
      rewrite path n r.2

variable (k : Kernel) {w : World} {path : Bytes} {p : Path}

theorem confAt_statText {t : FileTree} (hfile : t.holdsFile p) (info : SysInfo) :
    confAt (t.writeFile p info.statText) p = some (0, info.narrowed) := by
  have hread := read_statText .zero info
  rw [read, confText_statText, map_some, some.injEq] at hread
  rw [confAt, FileTree.node_writeFile_self hfile]
  simp only [confText_statText, map_some, hread]

theorem exec_rewrite_succ (hres : w.tree.resolve (cstr path) = some p) (hfile : w.tree.holdsFile p)
    (n : Nat) (info : SysInfo) : exec k (rewrite path (n + 1) info) w =
      exec k (rewrite path n info.narrowed)
    { w with tree := w.tree.writeFile p info.statText } := by
  have hdirs : FileTree.SameDirs w.tree (w.tree.writeFile p info.statText) :=
    FileTree.sameDirs_writeFile w.tree p info.statText
  have hres' : (w.tree.writeFile p info.statText).resolve (cstr path) = some p := by
    rw [← FileTree.resolve_congr hdirs, hres]
  rw [rewrite, exec_bind, exec_syncStat k hres hfile, bind_some, exec_bind, exec_parseConf k hres',
    confAt_statText hfile]
  rfl

theorem exec_rewrite_of_narrowed (hres : w.tree.resolve (cstr path) = some p)
    (hfile : w.tree.holdsFile p)
    {info : SysInfo} (hinfo : info.narrowed = info) (n : Nat) :
    (exec k (rewrite path n info) w).map Prod.fst = some info := by
  induction n generalizing w with
  | zero => rfl
  | succ n ih =>
    have hdirs : FileTree.SameDirs w.tree (w.tree.writeFile p info.statText) :=
      FileTree.sameDirs_writeFile w.tree p info.statText
    rw [exec_rewrite_succ k hres hfile, hinfo]
    refine ih ?_ ?_
    · rw [← FileTree.resolve_congr hdirs, hres]
    · rw [← hdirs.holdsFile_eq, hfile]

/-- Statistics that are written and read back stay what they are, however often, iff every one of
them is a 32-bit number with a sign. -/
theorem rewrite_eq_self_iff (hres : w.tree.resolve (cstr path) = some p)
    (hfile : w.tree.holdsFile p)
    (info : SysInfo) : (∀ n, (exec k (rewrite path n info) w).map Prod.fst = some info) ↔
      Int32Like info.totalSize ∧ Int32Like info.totalSizeRounded ∧ Int32Like info.numEntries := by
  rw [← narrowed_eq_self_iff]
  refine ⟨fun h => ?_, exec_rewrite_of_narrowed k hres hfile⟩
  have hone := h 1
  rw [exec_rewrite_succ k hres hfile] at hone
  exact some.inj hone

/-- The largest numbers that are kept. -/
theorem rewrite_large :
    (exec Sample.kernel (rewrite (ascii "/r/bkt/.bucket/stat") 3 ⟨2147483647, 2147483647, 7⟩)
      Sample.world).map Prod.fst = some ⟨2147483647, 2147483647, 7⟩ :=
  (rewrite_eq_self_iff Sample.kernel (w := Sample.world) (p := statPlace Sample.base)
    (by decide) (by decide) _).mpr (by decide) 3

/-- Two gigabytes come back as a negative number. -/
theorem two_gigabytes_lost :
    (exec Sample.kernel (rewrite (ascii "/r/bkt/.bucket/stat") 1 ⟨2147483648, 0,
      1⟩) Sample.world).map
      Prod.fst ≠ some ⟨2147483648, 0, 1⟩ := by
  rw [exec_rewrite_succ Sample.kernel (w := Sample.world) (p := statPlace Sample.base) (by decide)
    (by decide)]
  decide

end SysInfo

end RadosGateway
