import RadosGateway.SystemRead
import RadosGateway.Store

/-!
# What a system read appends

Every turn of the loop reads the same block, so the output is the part of the file asked for only
when that part consists of whole blocks that are all the same.
-/

namespace RadosGateway

open Text Posix List

section Periodic

variable {α : Type*}

theorem length_flatten_replicate (b : List α) (n : Nat) :
    (List.replicate n b).flatten.length = n * b.length := by
  simp

theorem getElem?_flatten_replicate (b : List α) (n i : Nat) :
    (List.replicate n b).flatten[i]? = if i < n * b.length then b[i % b.length]? else none := by
  induction n generalizing i with
  | zero => simp
  | succ n ih =>
    rw [replicate_succ, flatten_cons]
    by_cases hi : i < b.length
    · have hlt : i < (n + 1) * b.length := by
        calc i < b.length := hi
          _ ≤ (n + 1) * b.length := Nat.le_mul_of_pos_left _ n.succ_pos
      rw [getElem?_append_left hi, Nat.mod_eq_of_lt hi, if_pos hlt]
    · have hsub : i - b.length < n * b.length ↔ i < (n + 1) * b.length := by
        rw [Nat.succ_mul]
        omega
      rw [getElem?_append_right (by omega), ih, ← Nat.mod_eq_sub_mod (by omega)]
      simp only [hsub]

theorem eq_flatten_replicate_iff {l b : List α} {n : Nat} (hb : b <+: l ∨ n = 0) :
    l = (List.replicate n b).flatten ↔
      l.length = n * b.length ∧ ∀ i < l.length, l[i]? = l[i % b.length]? := by
  have hprefix (hpos : 0 < n * b.length) (i : Nat) : l[i % b.length]? = b[i % b.length]? := by
    have hlt : i % b.length < b.length := Nat.mod_lt i (Nat.pos_of_mul_pos_left hpos)
    rcases hb with ⟨t, rfl⟩ | rfl
    · exact getElem?_append_left hlt
    · omega
  constructor
  · intro h
    have hlen : l.length = n * b.length := by rw [h, length_flatten_replicate]
    refine ⟨hlen, fun i hi => ?_⟩
    have hcopy : l[i]? = b[i % b.length]? := by
      rw [h, getElem?_flatten_replicate, if_pos (by omega)]
    rw [hcopy, hprefix (by omega)]
  · rintro ⟨hlen, hper⟩
    apply ext_getElem?
    intro i
    rw [getElem?_flatten_replicate]
    by_cases hi : i < l.length
    · rw [if_pos (by omega), hper i hi, hprefix (by omega)]
    · rw [if_neg (by omega), getElem?_eq_none (by omega)]

end Periodic

theorem Block.fill_fill (buf : Block) (data : Bytes) :
    (buf.fill data).fill data = buf.fill data := by
  apply Subtype.ext
  have h := buf.2
  simp only [Block.fill]
  congr 1
  rcases Nat.le_total data.length blockSize with hle | hle
  · rw [take_of_length_le hle, drop_left]
  · rw [drop_of_length_le (by simp; omega), drop_of_length_le (by omega)]

theorem Block.fill_full (buf : Block) {data : Bytes} (h : data.length = blockSize) :
    (buf.fill data).1 = data := by
  have hbuf := buf.2
  simp only [Block.fill]
  rw [take_of_length_le (by omega), drop_of_length_le (by omega), append_nil]

namespace ReadOperation

def blocks (left : Int) : Nat := (left + 1023).toNat / blockSize

theorem blocks_of_nonpos {left : Int} (h : left ≤ 0) : blocks left = 0 := by
  simp only [blocks, blockSize]
  omega

theorem blocks_of_pos {left : Int} (h : 0 < left) :
    blocks left = blocks (left - blockSize) + 1 := by
  simp only [blocks, blockSize]
  omega

theorem toI64_neg {n : UInt64} (h : 2 ^ 63 ≤ n.toNat) : toI64 n.toNat < 0 := by
  have hlt := n.toNat_lt
  unfold toI64
  rw [Int.bmod_def]
  split_ifs <;> omega

variable (k : Kernel) {w : World} {p : Path} {bytes : Bytes} (off len : UInt64)

/-- Every turn reads at the same offset: the first block, again and again. -/
theorem exec_readBlocks (hread : readFile w.tree p = some bytes) (hoff : off.toNat < 2 ^ 63)
    (left : Int) (buf : Block) (ret : Int) (out : Bytes) :
    ∃ ret', exec k (readBlocks p off left buf ret out) w =
      some ((out ++ (List.replicate (blocks left)
        (buf.fill ((bytes.drop off.toNat).take blockSize)).1).flatten, ret'), w) := by
  have hpos : ¬ toI64 off.toNat < 0 := by
    rw [toI64_of_lt hoff]
    omega
  -- the number of turns left; behind the first turn the buffer holds what the next one reads
  induction hn : blocks left generalizing left buf ret out with
  | zero =>
    have hdone : ¬ 0 < left := fun h => by rw [blocks_of_pos h] at hn; omega
    rw [readBlocks, if_neg hdone]
    exact ⟨ret, by simp⟩
  | succ n ih =>
    have hmore : 0 < left := by
      by_contra h
      rw [blocks_of_nonpos (by omega)] at hn
      omega
    have hnext : blocks (left - blockSize) = n := by
      rw [blocks_of_pos hmore] at hn
      omega
    obtain ⟨ret', hrest⟩ := ih (left - blockSize) (buf.fill ((bytes.drop off.toNat).take blockSize))
      ((bytes.drop off.toNat).take blockSize).length
      (out ++ (buf.fill ((bytes.drop off.toNat).take blockSize)).1) hnext
    refine ⟨ret', ?_⟩
    rw [readBlocks, if_pos hmore, preadBlock, if_neg hpos, exec_preadFd_bind, hread]
    rw [Block.fill_fill] at hrest
    simp only [Option.map_some]
    rw [hrest, replicate_succ, flatten_cons, append_assoc]

theorem exec_readBlocks_of_le (hoff : 2 ^ 63 ≤ off.toNat) (left : Int) (buf : Block) (ret : Int)
    (out : Bytes) : ∃ ret', exec k (readBlocks p off left buf ret out) w =
      some ((out, ret'), w) := by
  rw [readBlocks, preadBlock, if_pos (toI64_neg hoff)]
  split_ifs
  · exact ⟨-1, rfl⟩
  · exact ⟨ret, rfl⟩

def Sample.buf : Block := ⟨List.replicate blockSize 0, length_replicate⟩

def Sample.oneBlock : World := ⟨0, Sample.tree.writeFile (ascii "k" :: Sample.base) Sample.buf.1⟩

def InEqualBlocks (bytes : Bytes) (off len : Nat) : Prop :=
  2 ^ 63 ≤ off ∨ min len bytes.length = 0 ∨
    (blockSize ∣ min len bytes.length ∧ off + min len bytes.length ≤ bytes.length ∧
      ∀ i < min len bytes.length, bytes[off + i]? = bytes[off + i % blockSize]?)

/-- A read that finds its file. -/
theorem exec_statAndRead (op : ReadOperation) (buf : Block) (out : Bytes)
    (hres : w.tree.resolve (cstr op.fullPath) = some p) (hread : readFile w.tree p = some bytes)
    (hsize : bytes.length < 2 ^ 63) : exec k (op.statAndRead off len buf out) w =
      exec k (readBlocks p off (min len.toNat bytes.length : Nat) buf (-1) out >>= fun r =>
        pure r.1) w := by
  have hnode : w.tree.node p = some (.file bytes) := readFile_eq_some.mp hread
  have hstat : statSize k w.tree (cstr op.fullPath) = some bytes.length := by
    simp [statSize, hres, hnode]
  have hopen : openTree w.tree (cstr op.fullPath) .rdonly = some (p, w.tree) := by
    simp [openTree, hres, hnode]
  have hnat : (UInt64.ofNat bytes.length).toNat = bytes.length :=
    UInt64.toNat_ofNat_of_lt' (by rw [UInt64.size]; omega)
  have hleft : toI64 (if len > UInt64.ofNat bytes.length then UInt64.ofNat bytes.length
    else len).toNat =
      (min len.toNat bytes.length : Nat) := by
    have hmin : (if len > UInt64.ofNat bytes.length then UInt64.ofNat bytes.length else len).toNat =
        min len.toNat bytes.length := by
      simp only [gt_iff_lt, UInt64.lt_iff_toNat_lt, apply_ite UInt64.toNat, hnat]
      split_ifs <;> omega
    rw [hmin]
    exact toI64_of_lt (by omega)
  unfold statAndRead stat read
  simp only [bind_assoc, exec_statFile_bind, hstat, pure_bind, hleft, exec_openFile_bind, hopen]

theorem getElem?_asked (bytes : Bytes) (off : Nat) {len i : Nat} (h : i < len) :
    ((bytes.drop off).take len)[i]? = bytes[off + i]? := by
  rw [getElem?_take_of_lt h, getElem?_drop]

/-- Copies of one block are what was asked for in these cases only. -/
theorem copies_eq_asked_iff (buf : Block) (bytes : Bytes) (off len : Nat) :
    (List.replicate (blocks (min len bytes.length : Nat))
        (buf.fill ((bytes.drop off).take blockSize)).1).flatten = (bytes.drop off).take len ↔
      min len bytes.length = 0 ∨
      (blockSize ∣ min len bytes.length ∧ off + min len bytes.length ≤ bytes.length ∧
          ∀ i < min len bytes.length, bytes[off + i]? = bytes[off + i % blockSize]?) := by
  set n := min len bytes.length with hn
  have hasked : ((bytes.drop off).take len).length = min len (bytes.length - off) := by simp
  rcases Nat.eq_zero_or_pos n with hzero | hpos
  · have hnil : (bytes.drop off).take len = [] := eq_nil_of_length_eq_zero (by omega)
    rw [hnil, hzero]
    simp [blocks, blockSize]
  · have hturns : n ≤ blocks n * blockSize ∧ (blockSize ∣ n ↔ blocks n * blockSize = n) := by
      simp only [blocks, blockSize, Nat.dvd_iff_mod_eq_zero]
      omega
    by_cases hwhole : blockSize ∣ n ∧ off + n ≤ bytes.length
    · obtain ⟨hdvd, hinside⟩ := hwhole
      have hlen : ((bytes.drop off).take len).length = n := by omega
      have hfull : ((bytes.drop off).take blockSize).length = blockSize := by
        have hle := Nat.le_of_dvd hpos hdvd
        simp only [length_take, length_drop]
        omega
      have hprefix : (bytes.drop off).take blockSize <+: (bytes.drop off).take len := by
        apply take_prefix_take_left
        have hle := Nat.le_of_dvd hpos hdvd
        omega
      rw [Block.fill_full _ hfull, eq_comm, eq_flatten_replicate_iff (.inl hprefix), hfull, hlen,
        or_iff_right (by omega)]
      simp only [hturns.2.mp hdvd, hdvd, hinside, true_and]
      refine forall₂_congr fun i hi => ?_
      have hmod : i % blockSize ≤ i := Nat.mod_le i blockSize
      rw [getElem?_asked bytes off (by omega), getElem?_asked bytes off (by omega)]
    · -- the output is longer than the part asked for
      refine iff_of_false (fun heq => hwhole ?_) fun h => ?_
      · have hlen := congrArg List.length heq
        rw [length_flatten_replicate, (buf.fill _).2, hasked] at hlen
        rw [hturns.2]
        omega
      · rcases h with h | ⟨hdvd, hinside, -⟩
        · omega
        · exact hwhole ⟨hdvd, hinside⟩

/-- The read appends the part of the file asked for, and nothing else, exactly when that part is
made of equal whole blocks or there is nothing to read. -/
theorem appends_asked_iff (op : ReadOperation) (buf : Block) (out : Bytes)
    (hres : w.tree.resolve (cstr op.fullPath) = some p) (hread : readFile w.tree p = some bytes)
    (hsize : bytes.length < 2 ^ 63) : exec k (op.statAndRead off len buf out) w =
        some (out ++ (bytes.drop off.toNat).take len.toNat, w) ↔
        InEqualBlocks bytes off.toNat len.toNat := by
  rw [exec_statAndRead k off len op buf out hres hread hsize, exec_bind]
  rcases Nat.lt_or_ge off.toNat (2 ^ 63) with hoff | hoff
  · obtain ⟨ret, hloop⟩ :=
      exec_readBlocks k off hread hoff (min len.toNat bytes.length : Nat) buf (-1) out
    have hnot : ¬ 2 ^ 63 ≤ off.toNat := by omega
    rw [hloop, InEqualBlocks, or_iff_right hnot, ← copies_eq_asked_iff buf]
    simp
  · obtain ⟨ret, hloop⟩ := exec_readBlocks_of_le k (w := w) (p := p) off hoff
      (min len.toNat bytes.length : Nat) buf (-1) out
    have hnil : bytes.drop off.toNat = [] := drop_of_length_le (by omega)
    rw [hloop, hnil]
    exact iff_of_true (by simp) (.inl hoff)

/-- A file of one whole block, read from its beginning. -/
theorem one_block_read :
    exec Sample.kernel (statAndRead ⟨ascii "/r/bkt/k", 0⟩ 0 4096 Sample.buf []) Sample.oneBlock =
      some ([] ++ (Sample.buf.1.drop (0 : UInt64).toNat).take (4096 : UInt64).toNat,
        Sample.oneBlock) := by
  have hmin : min (4096 : UInt64).toNat Sample.buf.1.length = blockSize := by
    rw [Sample.buf.2]
    decide
  apply (appends_asked_iff Sample.kernel (p := ascii "k" :: Sample.base) 0 4096 _ Sample.buf []
    (by decide)
    rfl (by rw [Sample.buf.2]; decide)).mpr
  refine .inr (.inr ?_)
  rw [hmin]
  refine ⟨dvd_rfl, by rw [Sample.buf.2]; decide, fun i hi => ?_⟩
  rw [Nat.mod_eq_of_lt hi]

/-- A file of one byte, read from its beginning: a whole block is appended. -/
theorem short_file_padded :
    exec Sample.kernel (ReadOperation.statAndRead ⟨ascii "/r/bkt/k", 0⟩ 0 10 Sample.buf [])
        ⟨0, Sample.tree.writeFile (ascii "k" :: Sample.base) (ascii "a")⟩ ≠
      some (ascii "a", ⟨0, Sample.tree.writeFile (ascii "k" :: Sample.base) (ascii "a")⟩) := by
  intro h
  obtain ⟨ret, hloop⟩ := exec_readBlocks Sample.kernel (p := ascii "k" :: Sample.base)
    (w := ⟨0, Sample.tree.writeFile (ascii "k" :: Sample.base) (ascii "a")⟩) 0 rfl (by decide)
    (min (10 : UInt64).toNat (ascii "a").length : Nat) Sample.buf (-1) []
  rw [exec_statAndRead Sample.kernel (p := ascii "k" :: Sample.base) 0 10 _ _ _ (by decide) rfl
    (by decide), exec_bind, hloop] at h
  have hlen := congrArg (Option.map (·.1.length)) h
  simp only [Option.bind_some, exec_pure, Option.map_some, nil_append, length_flatten_replicate,
    (Sample.buf.fill _).2, Option.some.injEq] at hlen
  revert hlen
  decide

end ReadOperation

end RadosGateway
