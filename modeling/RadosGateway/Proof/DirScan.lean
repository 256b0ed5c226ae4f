import RadosGateway.DirScan
import RadosGateway.Proof.Listing

/-!
# When a scan finds every file

A directory is found whole exactly if what `ls` prints can be taken apart again: no name is hidden,
has a newline in it or is too long for its buffer, and all of them together fit into the buffer of
the shell's output. -/

namespace RadosGateway.DirScan

open Text Posix Listing SortedMap Option
open List hiding keys

variable {line : Bytes} {names : List Bytes}

variable {m : List (Bytes × DirEnt)} {c : Bytes}

section Forget

variable (host : StatHost) {t : FileTree} {base head : Bytes}

theorem map_fst_statEnt (path : Bytes) : (statEnt host t path).map Prod.fst = statKind t path := by
  rw [statEnt, statKind]
  cases t.resolve (cstr path) with
  | none => rfl
  | some p =>
    rw [bind_some, bind_some, Option.map_map]
    congr 1
    funext node
    cases node <;> simp

def forget (m : List (Bytes × DirEnt)) : DirMap := m.map (Prod.map id DirEnt.key)

theorem keys_forget (m : List (Bytes × DirEnt)) : keys (forget m) = keys m := by
  rw [keys, keys, forget, List.map_map]
  rfl

theorem forget_addEntry (m : List (Bytes × DirEnt)) (line : Bytes) :
    (addEntry host t base head m line).map forget = addLine t base head (forget m) line := by
  rw [addEntry, addLine, ← map_fst_statEnt host]
  split_ifs
  · rfl
  · cases statEnt host t (base ++ head ++ line) with
    | none => rfl
    | some s =>
      dsimp only [map_some]
      split_ifs
      · rfl
      · rw [map_some, forget, map_insert]
        rfl

theorem forget_foldlM (lines : List Bytes) (m : List (Bytes × DirEnt)) :
    (lines.foldlM (addEntry host t base head) m).map forget = lines.foldlM (addLine t base head)
    (forget m) := by
  induction lines generalizing m with
  | nil => rfl
  | cons line lines ih =>
    rw [foldlM_cons, foldlM_cons, ← forget_addEntry host]
    cases addEntry host t base head m line with
    | none => rfl
    | some m' => exact ih m'

theorem forget_readEntries (files : Bytes) :
    (readEntries host t base head files).map forget = readFiles t base head files := by
  rw [readEntries, readFiles]
  cases readLines (files.splitOn 10) with
  | none => rfl
  | some lines => exact forget_foldlM host lines []

/-- Without sizes and times, the scan is the listing. -/
theorem forget_issueBucketListOp (sh : ShellHost) (G : Global) (bucket start filterPrefix : Bytes)
    (n : Nat) :
    (issueBucketListOp host t sh G bucket start filterPrefix n).map forget =
      Listing.issueBucketListOp sh t G bucket start filterPrefix n := by
  rw [issueBucketListOp, Listing.issueBucketListOp]
  by_cases hroom : 256 ≤ (indexBucket bucket).length ∨
    512 ≤ (lsCommand G bucket filterPrefix).length
  · rw [if_pos hroom, if_pos hroom]
    rfl
  · rw [if_neg hroom, if_neg hroom]
    cases Listing.shellExecute sh (lsCommand G bucket filterPrefix) t with
    | none => rfl
    | some files =>
      dsimp only
      split_ifs
      · rfl
      · rfl
      · exact forget_readEntries host files
      · exact forget_readEntries host files
      · exact forget_readEntries host (basename files)

variable {host}

def Stated (host : StatHost) (t : FileTree) (base head : Bytes) (e : Bytes × DirEnt) : Prop :=
  ∃ line isDir, fileName line isDir = e.1 ∧
    statEnt host t (base ++ head ++ line) = some (isDir, e.2.size, e.2.mtime)

theorem stated_addEntry {m m' : List (Bytes × DirEnt)}
    (h : addEntry host t base head m line = some m') (hm : ∀ e ∈ m, Stated host t base head e) :
    ∀ e ∈ m', Stated host t base head e := by
  rw [addEntry] at h
  split_ifs at h
  cases hstat : statEnt host t (base ++ head ++ line) with
  | none =>
    rw [hstat] at h
    cases h
    exact hm
  | some s =>
    obtain ⟨isDir, size, mtime⟩ := s
    simp only [hstat] at h
    split_ifs at h
    cases h
    exact forall_mem_insert ⟨line, isDir, rfl, hstat⟩ hm

theorem stated_foldlM {lines : List Bytes} {m m' : List (Bytes × DirEnt)}
    (h : lines.foldlM (addEntry host t base head) m = some m')
    (hm : ∀ e ∈ m, Stated host t base head e) :
    ∀ e ∈ m', Stated host t base head e := by
  induction lines generalizing m with
  | nil =>
    cases h
    exact hm
  | cons line lines ih =>
    obtain ⟨m₁, hline, hrest⟩ := bind_eq_some_iff.mp h
    exact ih hrest (stated_addEntry hline hm)

/-- Every entry has what `stat` says of its file. -/
theorem stated_issueBucketListOp {sh : ShellHost} {G : Global} {bucket start : Bytes} {n : Nat}
    (h : issueBucketListOp host t sh G bucket start [] n = some m) :
    ∀ e ∈ m, Stated host t (basePath G bucket) [] e := by
  rw [issueBucketListOp] at h
  by_cases hroom : 256 ≤ (indexBucket bucket).length ∨ 512 ≤ (lsCommand G bucket []).length
  · rw [if_pos hroom] at h
    cases h
  rw [if_neg hroom] at h
  cases hexec : Listing.shellExecute sh (lsCommand G bucket []) t with
  | none =>
    rw [hexec] at h
    cases h
  | some files =>
    simp only [hexec, if_true] at h
    split_ifs at h
    · cases h
      exact forall_mem_nil _
    · obtain ⟨lines, -, hfold⟩ := bind_eq_some_iff.mp h
      exact stated_foldlM hfold (forall_mem_nil _)

end Forget

section Printed

theorem lsCommand_eq (G : Global) (bucket : Bytes) :
    lsCommand G bucket [] = [108, 115] ++
      32 :: ([45, 49] ++ 32 :: (39 :: (scannedPath G bucket [] ++ 39 :: []))) := by
  have hhead : ascii "ls -1 '" = [108, 115, 32, 45, 49, 32, 39] := by decide
  have hend : ascii "'" = [39] := by decide
  rfl

/-- The line of `ls`, with the path in quotes, is three words. -/
theorem simpleWords_lsCommand {G : Global} {bucket : Bytes}
    (hquote : 39 ∉ scannedPath G bucket []) :
    simpleWords (lsCommand G bucket []) =
      some [ascii "ls", ascii "-1", scannedPath G bucket []] := by
  have hls : ascii "ls" = [108, 115] := by decide
  have hone : ascii "-1" = [45, 49] := by decide
  have hlex : Shell.lex .bare none (lsCommand G bucket []) =
      some [Shell.literal [108, 115], Shell.literal [45, 49],
        Shell.quoted (scannedPath G bucket [])] := by
    rw [lsCommand_eq, Shell.lex_of_isPlain (by decide), Shell.lex_blank,
      Shell.lex_of_isPlain (by decide),
      Shell.lex_blank, Shell.lex_quote hquote]
    rfl
  have hpattern : [Shell.literal [108, 115], Shell.literal [45, 49],
    Shell.quoted (scannedPath G bucket [])].any
      Shell.isPattern = false := by
    simp only [any_cons, any_nil, Shell.isPattern_quoted, Bool.or_false]
    decide
  rw [simpleWords, hlex]
  simp only [hpattern, Bool.false_eq_true, if_false, map_cons, map_nil, Shell.bytes_literal,
    Shell.bytes_quoted, hls, hone]

theorem mem_visible {t : FileTree} {p : Path} : c ∈ visible t p ↔ (t.node (c :: p)).isSome ∧
    c.head? ≠ some 46 := by
  rw [visible, Finset.mem_filter, Finset.mem_image]
  refine and_congr_left fun _ => ?_
  constructor
  · rintro ⟨q, hq, rfl⟩
    obtain ⟨hplace, hne, htail⟩ := Finset.mem_filter.mp hq
    rw [t.mem_places] at hplace
    match q, hne, htail, hplace with
    | c :: q, _, htail, hplace => exact htail ▸ hplace
  · intro h
    exact ⟨c :: p, Finset.mem_filter.mpr ⟨(t.mem_places _).mpr h, cons_ne_nil _ _, rfl⟩, rfl⟩

theorem splitOn_lines (h : ∀ c ∈ names, 10 ∉ c) :
    (names.flatMap (· ++ [10])).splitOn 10 = names ++ [[]] := by
  induction names with
  | nil => rfl
  | cons c names ih =>
    obtain ⟨hc, hnames⟩ := forall_mem_cons.mp h
    have hsplit : (c ++ 10 :: names.flatMap (· ++ [10])).splitOn 10 =
        c :: (names.flatMap (· ++ [10])).splitOn 10 := by
      refine splitOnP_append_cons_of_forall_mem ?_ 10 rfl _
      intro x hx
      rw [beq_eq_false_iff_ne]
      rintro rfl
      exact hc hx
    rw [flatMap_cons, append_assoc, singleton_append, hsplit, ih hnames, cons_append]

theorem readLines_append_nil (h : [] ∉ names) : readLines (names ++ [[]]) = some names := by
  induction names with
  | nil => rfl
  | cons c names ih =>
    rw [mem_cons, not_or] at h
    have hmore : ∃ d ds, names ++ [[]] = d :: ds := exists_cons_of_ne_nil (by simp)
    obtain ⟨d, ds, hds⟩ := hmore
    rw [cons_append, hds, readLines, if_neg (Ne.symm h.1), ← hds, ih h.2]
    · rfl
    · simp

theorem mem_of_mem_readLines {parts lines : List Bytes} (h : readLines parts = some lines)
    (hline : line ∈ lines) : line ∈ parts := by
  induction parts generalizing lines with
  | nil =>
    cases h
    exact hline
  | cons part parts ih =>
    cases parts with
    | nil =>
      rw [readLines] at h
      split_ifs at h
      cases h
      exact absurd hline not_mem_nil
    | cons part' parts =>
      rw [readLines] at h
      · split_ifs at h
        · cases h
          exact absurd hline not_mem_nil
        · obtain ⟨rest, hrest, rfl⟩ := map_eq_some_iff.mp h
          rcases mem_cons.mp hline with rfl | hline
          · exact mem_cons_self
          · exact mem_cons_of_mem _ (ih hrest hline)
      · simp

theorem mem_splitOn {s part : Bytes} (h : part ∈ s.splitOn 10) : 10 ∉ part ∧ part ⊆ s := by
  rw [List.splitOn] at h
  induction s generalizing part with
  | nil =>
    obtain rfl : part = [] := by simpa using h
    exact ⟨not_mem_nil, List.Subset.refl _⟩
  | cons x s ih =>
    rw [splitOnP_cons_eq_if_modifyHead] at h
    split_ifs at h with hx
    · rcases mem_cons.mp h with rfl | h
      · exact ⟨not_mem_nil, nil_subset _⟩
      · exact (ih h).imp_right fun hsub => subset_cons_of_subset x hsub
    · match hparts : s.splitOnP (· == 10) with
      | [] => exact absurd hparts (splitOnP_ne_nil _ s)
      | first :: parts =>
        rw [hparts, modifyHead_cons] at h
        rcases mem_cons.mp h with rfl | h
        · have hmem : first ∈ s.splitOnP (· == 10) := by rw [hparts]; exact mem_cons_self
          obtain ⟨hfirst, hsub⟩ := ih hmem
          refine ⟨?_, cons_subset_cons x hsub⟩
          rw [mem_cons, not_or]
          exact ⟨fun heq => hx (by simp [heq]), hfirst⟩
        · have hmem : part ∈ s.splitOnP (· == 10) := by rw [hparts]; exact mem_cons_of_mem _ h
          exact (ih hmem).imp_right fun hsub => subset_cons_of_subset x hsub

end Printed

/-- The directory that is scanned for a bucket is at `base` and has these files in it, besides the
metadata of the bucket. Its path needs no more quoting than it gets. -/
structure FlatBucket (G : Global) (bucket : Bytes) (t : FileTree) (base : Path)
    (files : Finset Bytes) : Prop where
  noOption : (scannedPath G bucket []).head? ≠ some 45
  noQuote : 39 ∉ scannedPath G bucket []
  noNul : 0 ∉ G.bucketsRoot
  resolves : t.resolve (scannedPath G bucket []) = some base
  isDir : t.node base = some .dir
  isFile : ∀ c ∈ files, ∃ data, t.node (c :: base) = some (.file data)
  entries : ∀ c, (t.node (c :: base)).isSome → c = Global.procBucketPath ∨ c ∈ files
  names : ∀ c ∈ files, c ≠ [] ∧ 47 ∉ c

structure Complete (t : FileTree) (base : Path) (files : Finset Bytes) (m : List (Bytes × DirEnt)) :
    Prop where
  sorted : Sorted m
  mem_iff : ∀ c, c ∈ keys m ↔ c ∈ files
  size : ∀ e ∈ m, ∃ data, t.node (e.1 :: base) = some (.file data) ∧ e.2.size = data.length

structure Scannable (sh : ShellHost) (G : Global) (bucket : Bytes) (files : Finset Bytes) :
    Prop where
  bucket_lt : (indexBucket bucket).length < 256
  command_lt : (lsCommand G bucket []).length < 512
  test_lt : files.Nonempty → (testCommand G bucket []).length < 512
  name : ∀ c ∈ files, c.head? ≠ some 46 ∧ 10 ∉ c ∧ 0 ∉ c ∧ c.length < 256
  output_lt : ((sh.collate files).map fun c => c.length + 1).sum < 512

section Flat

variable {sh : ShellHost} {host : StatHost} {t : FileTree} {G : Global} {bucket start : Bytes}
  {n : Nat}
  {base : Path} {files : Finset Bytes}

section

variable (h : FlatBucket G bucket t base files)
include h

theorem FlatBucket.shellOutput_eq (sh : ShellHost) :
    shellOutput sh (lsCommand G bucket []) t =
      (sh.collate (visible t base)).flatMap (· ++ [10]) := by
  rw [shellOutput, simpleWords_lsCommand h.noQuote]
  dsimp only
  rw [if_pos ⟨rfl, rfl, h.noOption⟩, ls, h.resolves]
  dsimp only
  rw [h.isDir]

theorem FlatBucket.basePath_eq : basePath G bucket = scannedPath G bucket [] := by
  rw [basePath, scannedPath, cstr_eq_self h.noNul]
  exact (append_nil _).symm

theorem FlatBucket.mem_visible_iff (c : Bytes) : c ∈ visible t base ↔
    c ∈ files ∧ c.head? ≠ some 46 := by
  rw [mem_visible]
  constructor
  · rintro ⟨hnode, hdot⟩
    refine ⟨(h.entries c hnode).resolve_left ?_, hdot⟩
    rintro rfl
    exact hdot (by decide)
  · rintro ⟨hc, hdot⟩
    obtain ⟨data, hdata⟩ := h.isFile c hc
    exact ⟨by rw [hdata]; rfl, hdot⟩

end

theorem length_lines (names : List Bytes) :
    (names.flatMap (· ++ [10])).length = (names.map fun c => c.length + 1).sum := by
  simp [length_flatMap]

/-- An object of a flat bucket is found below its path. -/
theorem FlatBucket.resolve_append (h : FlatBucket G bucket t base files) (hc : c ∈ files)
    (hdot : c.head? ≠ some 46) (hlen : c.length < 256)
    (hpath : (scannedPath G bucket []).length + 256 ≤ FileTree.pathMax) :
    t.resolve (scannedPath G bucket [] ++ c) = some (c :: base) := by
  obtain ⟨hne, hslash⟩ := h.names c hc
  obtain ⟨x, hx⟩ : ∃ x, scannedPath G bucket [] = x ++ [47] := by
    have hslash : ascii "/" = [47] := by decide
    refine ⟨cstr G.bucketsRoot ++ ascii "/" ++ indexBucket bucket, ?_⟩
    exact append_nil _
  -- Up to the last slash the path leads to the directory.
  have hwalk : t.walk [] (components x) = some base := by
    have hroot := h.resolves
    rw [hx, FileTree.resolve, components_append_slash, FileTree.walk_append] at hroot
    split_ifs at hroot
    obtain ⟨p, hp, hlast⟩ := bind_eq_some_iff.mp hroot
    have hnil : components [] = [[]] := rfl
    rw [hnil, FileTree.walk] at hlast
    split_ifs at hlast
    obtain rfl : p = base := by simpa [FileTree.walk, lexStep] using hlast
    exact hp
  have hcomponents : components c = [c] := by
    refine splitOnP_eq_singleton ?_
    intro y hy
    rw [beq_eq_false_iff_ne]
    rintro rfl
    exact hslash hy
  have hstep : lexStep base c = c :: base := by
    have hdot' : c ≠ dot := by
      rintro rfl
      exact hdot rfl
    have hdotdot : c ≠ dotdot := by
      rintro rfl
      exact hdot rfl
    rw [lexStep, if_neg (not_or.mpr ⟨hne, hdot'⟩), if_neg hdotdot]
  have hlength : (scannedPath G bucket [] ++ c).length < FileTree.pathMax := by
    rw [length_append]
    omega
  rw [FileTree.resolve, if_pos hlength, hx, append_assoc, singleton_append, components_append_slash,
    FileTree.walk_append, hwalk, bind_some, hcomponents, FileTree.walk,
    if_pos ⟨h.isDir, Nat.le_of_lt_succ hlen⟩, hstep]
  rfl

theorem fileName_eq {line c : Bytes} {isDir : Bool} (hslash : 47 ∉ c)
    (h : fileName line isDir = c) :
    isDir = false ∧ line = c := by
  cases isDir with
  | false => exact ⟨rfl, by rw [← h, fileName]; exact (append_nil _).symm⟩
  | true =>
    refine absurd ?_ hslash
    rw [← h]
    exact mem_append_right _ (by decide)

section

variable (h : FlatBucket G bucket t base files)
  (hm : issueBucketListOp host t sh G bucket start [] n = some m)
  (hcomplete : Complete t base files m)
include h hm hcomplete

/-- In a complete listing every name came in one line. -/
theorem FlatBucket.name_of_complete :
    ∃ lines, readLines ((printed sh t G bucket []).splitOn 10) = some lines ∧
      ∀ c ∈ files, c ∈ lines ∧ c.length < 256 := by
  have hforget : Listing.issueBucketListOp sh t G bucket start [] n = some (forget m) := by
    rw [← forget_issueBucketListOp host, hm]
    rfl
  obtain ⟨names, hshows, hdir⟩ := issueBucketListOp_eq_some_iff.mp hforget
  obtain ⟨lines, hlines, hfit, hmem⟩ := hshows.lines
  have htext : viewText sh t G bucket [] = printed sh t G bucket [] := by simp [viewText]
  rw [htext] at hlines
  have hkeys : keys m = names := by
    rw [← keys_forget, hdir, keys, List.map_map]
    exact List.map_id names
  refine ⟨lines, hlines, fun c hc => ?_⟩
  have hname := (hcomplete.mem_iff c).mpr hc
  rw [hkeys, hmem] at hname
  obtain ⟨line, hline, isDir, -, hname⟩ := hname
  obtain ⟨-, rfl⟩ := fileName_eq (h.names c hc).2 hname
  exact ⟨hline, (hfit line hline).1⟩

/-- A complete listing needs paths and names that fit. -/
theorem FlatBucket.scannable_of_complete : Scannable sh G bucket files := by
  obtain ⟨lines, hlines, hfiles⟩ := h.name_of_complete hm hcomplete
  have hforget : Listing.issueBucketListOp sh t G bucket start [] n = some (forget m) := by
    rw [← forget_issueBucketListOp host, hm]
    rfl
  have hfit := commandsFit_of_issue hforget
  have hpart : ∀ c ∈ files, 10 ∉ c ∧ c ⊆ printed sh t G bucket [] := by
    intro c hc
    exact mem_splitOn (mem_of_mem_readLines hlines (hfiles c hc).1)
  have hnul : ∀ c ∈ files, 0 ∉ c := fun c hc hzero => zero_notMem_cstr _ ((hpart c hc).2 hzero)
  have hnames : ∀ c ∈ sh.collate (visible t base), c ∈ files := by
    intro c hc
    exact ((h.mem_visible_iff c).mp (sh.mem_collate.mp hc)).1
  have houtput := h.shellOutput_eq sh
  -- No byte of what `ls` prints is zero, so all of it is read.
  have hzero : 0 ∉ shellOutput sh (lsCommand G bucket []) t := by
    rw [houtput, mem_flatMap]
    rintro ⟨c, hc, hmem⟩
    rcases mem_append.mp hmem with hmem | hmem
    · exact hnul c (hnames c hc) hmem
    · exact absurd hmem (by decide)
  have hshort : (shellOutput sh (lsCommand G bucket []) t).length < 512 := by
    have := hfit.output_lt.resolve_right fun hmem => hzero (mem_of_mem_take hmem)
    rw [length_take] at this
    omega
  have hprinted : printed sh t G bucket [] = (sh.collate (visible t base)).flatMap (· ++ [10]) := by
    rw [printed, take_of_length_le hshort.le, cstr_eq_self hzero, houtput]
  have hlines' : lines = sh.collate (visible t base) := by
    rw [hprinted, splitOn_lines fun c hc => (hpart c (hnames c hc)).1,
      readLines_append_nil fun hnil => (h.names [] (hnames [] hnil)).1 rfl] at hlines
    exact (some.inj hlines).symm
  have hvisible : visible t base = files := by
    ext c
    refine ⟨fun hc => ((h.mem_visible_iff c).mp hc).1, fun hc => ?_⟩
    have hline := (hfiles c hc).1
    rw [hlines'] at hline
    exact sh.mem_collate.mp hline
  refine ⟨hfit.bucket_lt, hfit.command_lt, ?_, fun c hc => ?_, ?_⟩
  · rintro ⟨c, hc⟩
    apply hfit.test_lt
    rw [hprinted, hvisible]
    intro hnil
    have := flatMap_eq_nil_iff.mp hnil c (sh.mem_collate.mpr hc)
    simp at this
  · have hc' := hc
    rw [← hvisible, h.mem_visible_iff] at hc'
    exact ⟨hc'.2, (hpart c hc).1, hnul c hc, (hfiles c hc).2⟩
  · rw [← hvisible, ← length_lines, ← houtput]
    exact hshort

end

theorem FlatBucket.statEnt_file (h : FlatBucket G bucket t base files) (host : StatHost)
    (hscan : Scannable sh G bucket files) (hc : c ∈ files) :
    ∃ data, t.node (c :: base) = some (.file data) ∧
      statEnt host t (basePath G bucket ++ [] ++ c) =
        some (false, data.length, host.mtime (c :: base)) := by
  obtain ⟨hdot, -, hnul, hlen⟩ := hscan.name c hc
  obtain ⟨data, hdata⟩ := h.isFile c hc
  have hcommand : (scannedPath G bucket []).length + 8 = (lsCommand G bucket []).length := by
    rw [lsCommand_eq]
    simp
  have hpath : (scannedPath G bucket []).length + 256 ≤ FileTree.pathMax := by
    have := hscan.command_lt
    rw [FileTree.pathMax]
    omega
  have hzero : 0 ∉ scannedPath G bucket [] ++ c := by
    rw [← h.basePath_eq, basePath]
    have hbucket : 0 ∉ indexBucket bucket := by
      intro hmem
      have hmem := (takeWhile_subset _) hmem
      exact zero_notMem_cstr bucket ((dropWhile_subset _) hmem)
    have hslash : (0 : UInt8) ∉ ascii "/" := by decide
    simp only [mem_append, not_or]
    exact ⟨⟨⟨⟨h.noNul, hslash⟩, hbucket⟩, hslash⟩, hnul⟩
  refine ⟨data, hdata, ?_⟩
  rw [append_nil, h.basePath_eq, statEnt, cstr_eq_self hzero, h.resolve_append hc hdot hlen hpath,
    bind_some, hdata]
  rfl

/-- Names that fit are all listed, with their sizes. -/
theorem FlatBucket.complete_of_scannable (h : FlatBucket G bucket t base files)
    (hscan : Scannable sh G bucket files) :
    ∃ m, issueBucketListOp host t sh G bucket start [] n = some m ∧ Complete t base files m := by
  have hvisible : visible t base = files := by
    ext c
    rw [h.mem_visible_iff]
    exact and_iff_left_of_imp fun hc => (hscan.name c hc).1
  have houtput : shellOutput sh (lsCommand G bucket []) t =
      (sh.collate files).flatMap (· ++ [10]) := by
    rw [h.shellOutput_eq, hvisible]
  have hname : ∀ c ∈ sh.collate files, c ∈ files := fun c hc => sh.mem_collate.mp hc
  have hzero : 0 ∉ (sh.collate files).flatMap (· ++ [10]) := by
    rw [mem_flatMap]
    rintro ⟨c, hc, hmem⟩
    rcases mem_append.mp hmem with hmem | hmem
    · exact (hscan.name c (hname c hc)).2.2.1 hmem
    · exact absurd hmem (by decide)
  have hlength : ((sh.collate files).flatMap (· ++ [10])).length < 512 := by
    rw [length_lines]
    exact hscan.output_lt
  have hprinted : printed sh t G bucket [] = (sh.collate files).flatMap (· ++ [10]) := by
    rw [printed, houtput, take_of_length_le hlength.le, cstr_eq_self hzero]
  have hfit : CommandsFit sh t G bucket [] := by
    refine ⟨hscan.bucket_lt, hscan.command_lt, .inl ?_, fun hne => hscan.test_lt ?_⟩
    · rw [houtput, take_of_length_le hlength.le]
      exact hlength
    · rw [hprinted] at hne
      obtain ⟨c, hc, -⟩ : ∃ c ∈ sh.collate files, c ++ [10] ≠ [] := by
        by_contra hnone
        push Not at hnone
        exact hne (flatMap_eq_nil_iff.mpr hnone)
      exact ⟨c, hname c hc⟩
  have hstat : ∀ c ∈ files, statKind t (basePath G bucket ++ [] ++ c) = some false := by
    intro c hc
    obtain ⟨data, -, hent⟩ := h.statEnt_file host hscan hc
    rw [← map_fst_statEnt host, hent]
    rfl
  have hreads : readLines ((printed sh t G bucket []).splitOn 10) = some (sh.collate files) := by
    rw [hprinted, splitOn_lines fun c hc => (hscan.name c (hname c hc)).2.1]
    exact readLines_append_nil fun hnil => (h.names [] (hname [] hnil)).1 rfl
  have hfold : Listing.issueBucketListOp sh t G bucket start [] n =
      (sh.collate files).foldlM (addLine t (basePath G bucket) []) [] := by
    have htext : viewText sh t G bucket [] = printed sh t G bucket [] := by simp [viewText]
    have hhead : viewHead sh t G bucket [] = [] := by simp [viewHead]
    rw [issueBucketListOp_eq hfit, htext, hhead, readFiles, hreads]
    rfl
  have hroom : ∀ line ∈ sh.collate files, line.length < 256 ∧ ∀ isDir,
      statKind t (basePath G bucket ++ [] ++ line) = some isDir →
        (fileName line isDir).length < 256 := by
    intro line hline
    have hlen := (hscan.name line (hname line hline)).2.2.2
    refine ⟨hlen, fun isDir hkind => ?_⟩
    obtain rfl : false = isDir := some.inj ((hstat line (hname line hline)).symm.trans hkind)
    rw [fileName]
    simpa using hlen
  obtain ⟨dir, hdir⟩ := isSome_iff_exists.mp (foldlM_addLine_isSome [] hroom)
  obtain ⟨-, hmem, hsorted, -⟩ := foldlM_addLine_eq_some hdir
  rw [← hfold, ← forget_issueBucketListOp host] at hdir
  obtain ⟨m, hm, rfl⟩ := map_eq_some_iff.mp hdir
  have hkeys : ∀ c, c ∈ keys m ↔ c ∈ files := by
    intro c
    rw [← keys_forget, hmem]
    constructor
    · rintro (hnil | ⟨line, hline, isDir, hkind, rfl⟩)
      · exact absurd hnil not_mem_nil
      · obtain rfl : false = isDir := some.inj ((hstat line (hname line hline)).symm.trans hkind)
        rw [fileName]
        simpa using hname line hline
    · intro hc
      exact .inr ⟨c, sh.mem_collate.mpr hc, false, hstat c hc, append_nil c⟩
  refine ⟨m, hm, ?_, hkeys, fun e he => ?_⟩
  · rw [Sorted, ← keys_forget]
    exact hsorted .nil
  · have hfile : e.1 ∈ files := (hkeys e.1).mp (List.mem_map_of_mem he)
    obtain ⟨line, isDir, hline, hent⟩ := stated_issueBucketListOp hm e he
    obtain ⟨rfl, rfl⟩ := fileName_eq (h.names e.1 hfile).2 hline
    obtain ⟨data, hdata, hent'⟩ := h.statEnt_file host hscan hfile
    have heq := some.inj (hent.symm.trans hent')
    exact ⟨data, hdata, congrArg (fun s => s.2.1) heq⟩

end Flat

/-- A scan with an empty prefix has one entry for each file exactly if no name starts with a dot,
has a newline or a zero byte in it or more than 255 bytes, and the commands and all names together
fit into 512 bytes. -/
theorem complete_iff (sh : ShellHost) (host : StatHost) (t : FileTree) (G : Global)
    (bucket start : Bytes)
    (n : Nat) (base : Path) (files : Finset Bytes) (h : FlatBucket G bucket t base files) :
    (∃ m, issueBucketListOp host t sh G bucket start [] n = some m ∧ Complete t base files m) ↔
      Scannable sh G bucket files := by
  constructor
  · rintro ⟨m, hm, hcomplete⟩
    exact h.scannable_of_complete hm hcomplete
  · exact fun hscan => h.complete_of_scannable hscan

def noTimes : StatHost := ⟨fun _ => 4096, fun _ => 0⟩

theorem flatBucket_twoObjects :
    FlatBucket Sample.G Sample.bucket twoObjects Sample.base {ascii "a", ascii "b"} where
  noOption := by decide
  noQuote := by decide
  noNul := by decide
  resolves := by decide
  isDir := by decide
  isFile := by
    simp only [Finset.forall_mem_insert, Finset.mem_singleton, forall_eq]
    exact ⟨⟨[], by decide⟩, ⟨[], by decide⟩⟩
  entries := by
    have hplaces : ∀ q ∈ twoObjects.places, q.tail = Sample.base →
        q.headI = Global.procBucketPath ∨ q.headI ∈ ({ascii "a", ascii "b"} : Finset Bytes) := by
          decide
    intro c hc
    exact hplaces (c :: Sample.base) ((twoObjects.mem_places _).mpr hc) rfl
  names := by decide

/-- Two objects in an otherwise empty bucket. -/
theorem complete_twoObjects :
    FlatBucket Sample.G Sample.bucket twoObjects Sample.base {ascii "a", ascii "b"} ∧
      ∃ m, issueBucketListOp noTimes twoObjects byteOrderShell Sample.G Sample.bucket []
    [] 1000 = some m ∧
        Complete twoObjects Sample.base {ascii "a", ascii "b"} m := by
  refine ⟨flatBucket_twoObjects, ?_⟩
  refine (complete_iff byteOrderShell noTimes twoObjects Sample.G Sample.bucket [] 1000
    Sample.base _
    flatBucket_twoObjects).mpr ?_
  exact ⟨by decide, by decide, fun _ => by decide, by decide, by decide⟩

def hiddenObject : FileTree := Sample.tree.writeFile (ascii ".a" :: Sample.base) (ascii "data")

/-- It is not among the entries. -/
theorem hiddenObject_not_found :
    FlatBucket Sample.G Sample.bucket hiddenObject Sample.base {ascii ".a"} ∧
      issueBucketListOp noTimes hiddenObject byteOrderShell Sample.G Sample.bucket []
    [] 1000 = some [] ∧
      ¬ ∃ m, issueBucketListOp noTimes hiddenObject byteOrderShell Sample.G Sample.bucket []
    [] 1000 = some m ∧
        Complete hiddenObject Sample.base {ascii ".a"} m := by
  have hscan : issueBucketListOp noTimes hiddenObject byteOrderShell Sample.G Sample.bucket [] []
      1000 = some [] := by
    decide
  refine ⟨?_, hscan, ?_⟩
  · refine ⟨by decide, by decide, by decide, by decide, by decide, ?_, ?_, by decide⟩
    · simp only [Finset.mem_singleton, forall_eq]
      exact ⟨ascii "data", by decide⟩
    · have hplaces : ∀ q ∈ hiddenObject.places, q.tail = Sample.base →
          q.headI = Global.procBucketPath ∨ q.headI ∈ ({ascii ".a"} : Finset Bytes) := by decide
      intro c hc
      exact hplaces (c :: Sample.base) ((hiddenObject.mem_places _).mpr hc) rfl
  · rintro ⟨m, hm, hcomplete⟩
    obtain rfl := some.inj (hscan.symm.trans hm)
    have hmem := (hcomplete.mem_iff (ascii ".a")).mpr (Finset.mem_singleton_self _)
    exact absurd hmem not_mem_nil

end RadosGateway.DirScan
