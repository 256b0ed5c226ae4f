import RadosGateway.PutObj
import RadosGateway.Store

/-!
# Reading and rewriting the statistics

`parse_conf` reads back every assignment `sync_stat` writes. What comes back is the number cut down
to 32 bits: it is printed with `%lld` and read with `atoi`.
-/

namespace RadosGateway

open Text Posix List
open Option hiding or_self

def isWordByte (c : UInt8) : Bool := !isSpace c && c ≠ 0

theorem firstToken_of_wordBytes {s : Bytes} (hs : ∀ c ∈ s, isWordByte c = true) :
    firstToken s = s := by
  have hspace : ∀ c ∈ s, isSpace c = false := by
    intro c hc
    have := hs c hc
    simp only [isWordByte, Bool.and_eq_true, Bool.not_eq_true'] at this
    exact this.1
  have hdrop : s.dropWhile isSpace = s := by
    cases s with
    | nil => rfl
    | cons c s => exact dropWhile_cons_of_neg (by simp [hspace c (by simp)])
  rw [firstToken, hdrop, takeWhile_eq_self_iff]
  intro c hc
  simp [hspace c hc]

theorem cstr_of_wordBytes {s : Bytes} (hs : ∀ c ∈ s, isWordByte c = true) : cstr s = s := by
  refine cstr_eq_self ?_
  intro h0
  have := hs 0 h0
  simp [isWordByte] at this

theorem scanAssign_of_wordBytes {name value : Bytes} (hname : ∀ c ∈ name, c ≠ 58)
    (hne : name ≠ []) (hvalue : ∀ c ∈ value, isWordByte c = true) (hvne : value ≠ []) :
    scanAssign 58 (name ++ 58 :: value) = some (name, value) := by
  have hcolon : 58 ∉ name := fun hmem => hname 58 hmem rfl
  simp only [scanAssign, takeWhile_ne_append hcolon, dropWhile_ne_append hcolon,
    firstToken_of_wordBytes hvalue, hne, hvne, or_self, if_false]

theorem stripSpace_of_wordBytes {name : Bytes} (hname : ∀ c ∈ name, isWordByte c = true)
    (hne : name ≠ []) : stripSpace name = some name := by
  have hblank : ∀ c ∈ name, c ≠ 32 := by
    rintro c hc rfl
    have := hname 32 hc
    simp [isWordByte, isSpace] at this
  have hall : name.all (fun c => decide (c = 32)) = false := by
    obtain ⟨c, cs, rfl⟩ := exists_cons_of_ne_nil hne
    simp [hblank c (by simp)]
  have hstrip : name.reverse.dropWhile (fun c => decide (c = 32)) = name.reverse := by
    cases hrev : name.reverse with
    | nil => rfl
    | cons c cs =>
      have hc : c ∈ name := by
        rw [← mem_reverse, hrev]
        exact mem_cons_self
      exact dropWhile_cons_of_neg (by simpa using hblank c hc)
  simp [stripSpace, hall, hstrip]

theorem confLoop_assign {name value var : Bytes} {rest : List Bytes}
    (hname : ∀ c ∈ name, isWordByte c = true ∧ c ≠ 58) (hne : name ≠ [])
    (hhash : name.head? ≠ some 35) (hvalue : ∀ c ∈ value, isWordByte c = true) (hvne : value ≠ [])
    (hlen : (name ++ 58 :: value).length < 256) : confLoop 58 var ((name ++ 58 :: value) :: rest) =
      (confLoop 58 name rest).map fun r => ((name, value) :: r.1, r.2) := by
  have hword : ∀ c ∈ name ++ 58 :: value, isWordByte c = true := by
    intro c hc
    rcases mem_append.mp hc with hc | hc
    · exact (hname c hc).1
    · rcases mem_cons.mp hc with rfl | hc
      · decide
      · exact hvalue c hc
  have hline : name ++ 58 :: value ≠ [] := by simp
  have hhead : (name ++ 58 :: value).head? ≠ some 35 := by
    obtain ⟨c, cs, rfl⟩ := exists_cons_of_ne_nil hne
    simpa using hhash
  simp only [confLoop, hline, hlen.not_ge, if_false, cstr_of_wordBytes hword,
    firstToken_of_wordBytes hword, hhead,
    scanAssign_of_wordBytes (fun c hc => (hname c hc).2) hne hvalue hvne,
    stripSpace_of_wordBytes (fun c hc => (hname c hc).1) hne]

theorem isWordByte_of_mem_decimalInt {z : Int} {c : UInt8} (hc : c ∈ decimalInt z) :
    isWordByte c = true := by
  rcases mem_decimalInt hc with rfl | hdigit
  · decide
  · have hspace := isSpace_eq_false_of_isDigit hdigit
    have hzero : c ≠ 0 := by
      rintro rfl
      exact absurd hdigit (by decide)
    simp [isWordByte, hspace, hzero]

namespace SysInfo

def narrow (n : UInt64) : UInt64 := widen (toI32 (signed n))

def narrowed (info : SysInfo) : SysInfo where
  totalSize := narrow info.totalSize
  totalSizeRounded := narrow info.totalSizeRounded
  numEntries := narrow info.numEntries

variable (info : SysInfo) (n : UInt64)

theorem length_decimalInt_signed : (decimalInt (signed n)).length ≤ 20 :=
  length_decimalInt_le (toI64_range n.toNat).1 (toI64_range n.toNat).2

theorem widen_atoi_decimalInt : widen (atoi (decimalInt (signed n))) = narrow n := by
  have hread : atoi (decimalInt (signed n)) = toI32 (signed n) :=
    atoi_decimalInt (toI64_range n.toNat).1 (toI64_range n.toNat).2
  rw [hread, narrow]

def isConfName (name : Bytes) : Bool :=
  name.all (fun c => isWordByte c && c ≠ 58) && name ≠ [] && name.head? ≠
    some 35 && name.length < 200

theorem isConfName_mem {name : Bytes} (h : isConfName name = true) :
    ∀ c ∈ name, isWordByte c = true ∧ c ≠ 58 := by
  simp only [isConfName, Bool.and_eq_true, List.all_eq_true, decide_eq_true_eq] at h
  exact h.1.1.1

theorem confLoop_statLine {name var : Bytes} {rest : List Bytes} (h : isConfName name = true)
    (n : UInt64) :
    confLoop 58 var (statLine name n :: rest) =
      (confLoop 58 name rest).map fun r => ((name, decimalInt (signed n)) :: r.1, r.2) := by
  have hname := isConfName_mem h
  have hvalue := length_decimalInt_signed n
  simp only [isConfName, Bool.and_eq_true, decide_eq_true_eq] at h
  obtain ⟨⟨⟨-, hne⟩, hhash⟩, hlen⟩ := h
  refine confLoop_assign hname hne hhash (fun c hc => isWordByte_of_mem_decimalInt hc)
    (decimalInt_ne_nil _) ?_
  rw [length_append, length_cons]
  omega

theorem newline_notMem_statLine {name : Bytes} (h : isConfName name = true) (n : UInt64) :
    ∀ c ∈ statLine name n, (c == 10) = false := by
  have hword : isWordByte 10 = false := by decide
  intro c hc
  by_contra h10
  obtain rfl : c = 10 := by simpa using h10
  rcases mem_append.mp hc with hc | hc
  · rw [(isConfName_mem h 10 hc).1] at hword
    cases hword
  · rcases mem_cons.mp hc with hc | hc
    · exact absurd hc (by decide)
    · rw [isWordByte_of_mem_decimalInt hc] at hword
      cases hword

theorem isConfName_totalSize : isConfName (ascii "total_size") = true := by decide

theorem isConfName_numEntries : isConfName (ascii "num_entries") = true := by decide

theorem isConfName_totalSizeRounded : isConfName (ascii "total_size_rounded") = true := by
  decide

theorem splitOn_statText : (statText info).splitOn 10 =
      [statLine (ascii "total_size") info.totalSize, statLine (ascii "num_entries") info.numEntries,
       statLine (ascii "total_size_rounded") info.totalSizeRounded, []] := by
  rw [statText, List.splitOn,
    splitOnP_append_cons_of_forall_mem (newline_notMem_statLine isConfName_totalSize _) 10 rfl,
    splitOnP_append_cons_of_forall_mem (newline_notMem_statLine isConfName_numEntries _) 10 rfl,
    splitOnP_append_cons_of_forall_mem (newline_notMem_statLine isConfName_totalSizeRounded _)
      10 rfl,
    splitOnP_nil]

theorem confText_statText : confText 58 (statText info) = some
      ([(ascii "total_size", decimalInt (signed info.totalSize)),
        (ascii "num_entries", decimalInt (signed info.numEntries)),
        (ascii "total_size_rounded", decimalInt (signed info.totalSizeRounded))], 0) := by
  have hne : statLine (ascii "total_size") info.totalSize ≠ [] := by simp [statLine]
  rw [confText, splitOn_statText]
  split
  · rename_i heq
    exact absurd (List.cons.inj heq).1 hne
  · rw [confLoop_statLine isConfName_totalSize, confLoop_statLine isConfName_numEntries,
      confLoop_statLine isConfName_totalSizeRounded]
    rfl

theorem read_statText (start info : SysInfo) : start.read (statText info) = some info.narrowed := by
  have h1 : ascii "num_entries" ≠ ascii "total_size" := by decide
  have h2 : ascii "num_entries" ≠ ascii "total_size_rounded" := by decide
  have h3 : ascii "total_size_rounded" ≠ ascii "total_size" := by decide
  simp only [read, confText_statText, map_some, foldl_cons, foldl_nil, getParams,
    h1, h2, h3, if_true, if_false, widen_atoi_decimalInt, narrowed]

theorem toNat_widen (z : Int) : (widen z).toNat = (z % 2 ^ 64).toNat := by
  simp only [widen, UInt64.ofInt, UInt64.toNat_ofNat']
  omega

theorem widen_natCast {n : Nat} (h : n < 2 ^ 64) : (widen n).toNat = n := by
  rw [toNat_widen]
  omega

theorem narrow_of_lt {n : UInt64} (h : n.toNat < 2 ^ 31) : narrow n = n := by
  apply UInt64.toNat_inj.mp
  rw [narrow, signed, toI64_of_lt (by omega), toI32_of_lt h, widen_natCast (by omega)]

theorem toNat_narrow_mod : (narrow n).toNat % 2 ^ 32 = n.toNat % 2 ^ 32 := by
  rw [narrow, signed, toI32_toI64, toNat_widen, toI32, Int.bmod_def]
  split_ifs <;> omega

theorem narrow_add_one_ne : narrow (n + 1) ≠ n := by
  intro h
  have hmod := toNat_narrow_mod (n + 1)
  have hadd : (n + 1).toNat = (n.toNat + 1) % 2 ^ 64 := UInt64.toNat_add n 1
  rw [h, hadd] at hmod
  omega

theorem narrow_sub_one_ne : narrow (n - 1) ≠ n := by
  intro h
  have hmod := toNat_narrow_mod (n - 1)
  have hsub : (n - 1).toNat = (2 ^ 64 - 1 + n.toNat) % 2 ^ 64 := UInt64.toNat_sub n 1
  rw [h, hsub] at hmod
  omega

theorem read_statText_addObject_ne (size : UInt64) :
    SysInfo.zero.read (statText (info.addObject size)) ≠ some info := by
  rw [read_statText]
  intro h
  have hnum := congrArg SysInfo.numEntries (some.inj h)
  exact narrow_add_one_ne info.numEntries hnum

theorem read_statText_removeObject_ne (size : UInt64) :
    SysInfo.zero.read (statText (info.removeObject size)) ≠ some info := by
  rw [read_statText]
  intro h
  have hnum := congrArg SysInfo.numEntries (some.inj h)
  exact narrow_sub_one_ne info.numEntries hnum

theorem length_statText_lt : (statText info).length < 128 := by
  have h1 : (ascii "total_size").length = 10 := by decide
  have h2 : (ascii "num_entries").length = 11 := by decide
  have h3 : (ascii "total_size_rounded").length = 18 := by decide
  have hsize := length_decimalInt_signed info.totalSize
  have hnum := length_decimalInt_signed info.numEntries
  have hrounded := length_decimalInt_signed info.totalSizeRounded
  rw [statText, statLine, statLine, statLine]
  rw [length_append, length_append, h1, length_cons, length_cons,
    length_append, length_append, h2, length_cons, length_cons,
    length_append, length_append, h3, length_cons, length_singleton]
  omega

end SysInfo

section InPlace

variable {G : Global} {bucket : Bytes} {t u : FileTree} {base : Path}

theorem walk_single {cur : Path} {c : Bytes} (hdir : t.node cur = some .dir)
    (hlen : c.length ≤ FileTree.nameMax) : t.walk cur [c] = some (lexStep cur c) := by
  simp [FileTree.walk, hdir, hlen]

/-- The file of statistics is beside the objects. -/
theorem BucketAt.resolve_statPath (h : BucketAt G bucket t base) :
    t.resolve (cstr (G.statPath bucket)) = some (statPlace base) := by
  have hcstr : cstr (G.statPath bucket) = G.statPath bucket := by
    refine cstr_eq_self ?_
    have hmeta : 0 ∉ Global.procBucketPath := by decide
    have hstat : 0 ∉ Global.procStat := by decide
    simp [Global.statPath, h.noNul, hmeta, hstat]
  have hcomponents : components (G.statPath bucket) =
      components (G.bucketPath bucket) ++ ([Global.procBucketPath] ++ [Global.procStat]) := by
    rw [Global.statPath, components_append_slash, components_append_slash, append_assoc]
    rfl
  have hbase : t.walk [] (components (G.bucketPath bucket)) = some base := by
    have := h.resolves
    unfold FileTree.resolve at this
    split_ifs at this
    exact this
  rw [hcstr, FileTree.resolve, if_pos h.fits, hcomponents, FileTree.walk_append, hbase,
    bind_some, FileTree.walk_append, walk_single h.isDir (by decide), bind_some]
  exact walk_single h.hasMeta (by decide)

theorem BucketAt.holdsFile_statPlace (h : BucketAt G bucket t base) :
    t.holdsFile (statPlace base) := by
  have hstat := h.stat_ne_dir
  unfold statPlace at hstat ⊢
  simp [FileTree.holdsFile, h.hasMeta, hstat]

theorem BucketAt.of_sameDirs (h : BucketAt G bucket t base) (hdirs : FileTree.SameDirs t u) :
    BucketAt G bucket u base where
  noNul := h.noNul
  fits := h.fits
  resolves := by rw [← FileTree.resolve_congr hdirs, h.resolves]
  isDir := (hdirs _).mp h.isDir
  hasMeta := (hdirs _).mp h.hasMeta
  stat_ne_dir := fun hdir => h.stat_ne_dir ((hdirs _).mpr hdir)

variable (k : Kernel) {w : World}

/-- Reading the file of statistics leaves the world alone. -/
theorem exec_parseConf {path : Bytes} {p : Path} (hres : w.tree.resolve (cstr path) = some p) :
    exec k (parseConf path .zero) w = (confAt w.tree p).map fun r => (r, w) := by
  unfold parseConf
  rw [exec_openFile_bind]
  cases hnode : w.tree.node p with
  | none =>
    have hopen : openTree w.tree (cstr path) .rdonly = none := by simp [openTree, hres, hnode]
    simp [hopen, confAt, hnode]
  | some n =>
    have hopen : openTree w.tree (cstr path) .rdonly = some (p, w.tree) := by
      simp [openTree, hres, hnode]
    cases n with
    | dir => simp [hopen, confAt, hnode, readFile]
    | file text =>
      simp only [hopen, exec_readAll_bind, readFile, hnode, confAt]
      cases confText 58 text <;> rfl

theorem exec_syncStat {path : Bytes} {p : Path} (hres : w.tree.resolve (cstr path) = some p)
    (hfile : w.tree.holdsFile p) (info : SysInfo) : exec k (syncStat path info) w =
      some (0, { w with tree := w.tree.writeFile p info.statText }) := by
  have hopen : openTree w.tree (cstr path) .creatTrunc = some (p, w.tree.writeFile p []) := by
    simp [openTree, hres, hfile]
  have hwrite : fputsTree (w.tree.writeFile p []) p info.statText =
      w.tree.writeFile p info.statText := by
    simp only [fputsTree, FileTree.node_writeFile_self hfile, FileTree.writeFile_writeFile]
    rw [show overwrite [] 0 info.statText = info.statText from overwrite_length [] _]
  unfold syncStat
  rw [exec_openFile_bind, hopen]
  simp only [exec_fputs_bind, exec_pure, hwrite]

theorem exec_updateStat (h : BucketAt G bucket w.tree base) (f : SysInfo → SysInfo) :
    exec k (updateStat G bucket f) w = (readStat w.tree base).map fun info =>
      ((), { w with tree := w.tree.writeFile (statPlace base) (f info).statText }) := by
  unfold updateStat
  rw [exec_bind, exec_parseConf k h.resolve_statPath, readStat]
  cases hconf : confAt w.tree (statPlace base) with
  | none => rfl
  | some r =>
    rw [map_some, bind_some, exec_bind, exec_syncStat k h.resolve_statPath h.holdsFile_statPlace]
    rfl

end InPlace

end RadosGateway
