import RadosGateway.Base.Run
import RadosGateway.Listing

/-!
# Listing a bucket page by page

What a listing is for: the keys behind a prefix, those with the delimiter in the rest rolled up into
common prefixes, each once and in increasing order over all pages.
-/

namespace RadosGateway.Listing

open Text Posix
open List hiding not_le not_lt
open Option hiding or_assoc

inductive Delimiter where
  | none
  | slash
  deriving DecidableEq

namespace Delimiter

def bytes : Delimiter → Bytes
  | none => []
  | slash => ascii "/"

def rollUp (d : Delimiter) (pre name : Bytes) : Option Bytes :=
  match d with
  | none => Option.none
  | slash =>
    let rest := name.drop pre.length
    if 47 ∈ rest then some (pre ++ rest.takeWhile (· ≠ 47) ++ [47]) else Option.none

def isKey (d : Delimiter) (pre name : Bytes) : Bool :=
  pre.isPrefixOf name && (d.rollUp pre name).isNone

def commonPrefix (d : Delimiter) (pre name : Bytes) : Option Bytes :=
  if pre.isPrefixOf name then d.rollUp pre name else Option.none

def keysOf (d : Delimiter) (pre : Bytes) (names : Finset Bytes) : Finset Bytes :=
  names.filter fun name => d.isKey pre name

def prefixesOf (d : Delimiter) (pre : Bytes) (names : Finset Bytes) : Finset Bytes :=
  names.biUnion fun name => (d.commonPrefix pre name).toFinset

end Delimiter

def objectName (base p : Path) : Bytes :=
  List.intercalate [47] (p.take (p.length - base.length)).reverse

def objectNames (G : Global) (bucket : Bytes) (t : FileTree) : Finset Bytes :=
  match t.resolve (G.bucketPath bucket) with
  | none => ∅
  | some base =>
    (t.places.filter fun p => (readFile t p).isSome ∧ ObjectPlace base p).image (objectName base)

structure Page where
  keys : List Bytes
  commonPrefixes : List Bytes
  isTruncated : Bool
  nextMarker : Bytes

namespace Page

def items (page : Page) : List Bytes := page.keys ++ page.commonPrefixes

def next (page : Page) : Option Bytes := if page.isTruncated then some page.nextMarker else none

end Page

def Found.page (found : Found) : Page :=
  ⟨found.result, SortedMap.keys found.commonPrefixes, found.truncated, found.nextMarker⟩

structure ListsAll (d : Delimiter) (pre : Bytes) (names : Finset Bytes) (pages : List Page) :
    Prop where
  keys_increasing : (pages.flatMap Page.keys).Pairwise (· < ·)
  mem_keys : ∀ x, x ∈ pages.flatMap Page.keys ↔ x ∈ d.keysOf pre names
  prefixes_increasing : (pages.flatMap Page.commonPrefixes).Pairwise (· < ·)
  mem_prefixes : ∀ x, x ∈ pages.flatMap Page.commonPrefixes ↔ x ∈ d.prefixesOf pre names
  pages_increasing : pages.Pairwise fun page page' => ∀ x ∈ page.items, ∀ y ∈ page'.items, x < y

section

variable (sh : ShellHost) (t : FileTree) (G : Global) (bucket pre : Bytes) (d : Delimiter)
  (max : Nat)

def Calls (marker : Bytes) (page : Page) : Prop :=
  ∃ fuel found, listObjects sh t G bucket ⟨pre, d.bytes, marker, []⟩ max fuel = some (.ok found) ∧
    found.page = page

def Paginates : Prop :=
  ∃ pages, Paging.Pages (Calls sh t G bucket pre d max) Page.next [] pages ∧
    ListsAll d pre (objectNames G bucket t) pages

end

section

variable (sh : ShellHost) (t : FileTree) (G : Global) (bucket filterPrefix : Bytes)

def printed : Bytes := cstr ((shellOutput sh (lsCommand G bucket filterPrefix) t).take 512)

def viewHead : Bytes :=
  if filterPrefix = [] then []
  else if shellSimple sh (testCommand G bucket filterPrefix) t then withSlash filterPrefix
  else dirPrefix filterPrefix

def viewText : Bytes :=
  let files := printed sh t G bucket filterPrefix
  if files = [] ∨ filterPrefix = [] ∨
    shellSimple sh (testCommand G bucket filterPrefix) t then files
  else basename files

def IsEntry (line : Bytes) (isDir : Bool) : Prop :=
  statKind t (basePath G bucket ++ viewHead sh t G bucket filterPrefix ++ line) = some isDir

structure CommandsFit : Prop where
  bucket_lt : (indexBucket bucket).length < 256
  command_lt : (lsCommand G bucket filterPrefix).length < 512
  output_lt : ((shellOutput sh (lsCommand G bucket filterPrefix) t).take 512).length < 512 ∨
    0 ∈ (shellOutput sh (lsCommand G bucket filterPrefix) t).take 512
  test_lt : printed sh t G bucket filterPrefix ≠ [] →
    (testCommand G bucket filterPrefix).length < 512

structure Shows (names : List Bytes) : Prop where
  commandsFit : CommandsFit sh t G bucket filterPrefix
  increasing : names.Pairwise (· < ·)
  lines : ∃ lines, readLines ((viewText sh t G bucket filterPrefix).splitOn 10) = some lines ∧
    (∀ line ∈ lines, line.length < 256 ∧
      ∀ isDir, IsEntry sh t G bucket filterPrefix line isDir → (fileName line isDir).length < 256) ∧
    ∀ name, name ∈ names ↔
      ∃ line ∈ lines, ∃ isDir, IsEntry sh t G bucket filterPrefix line isDir ∧
        fileName line isDir = name

end

theorem Shows.unique {sh : ShellHost} {t : FileTree} {G : Global} {bucket filterPrefix : Bytes}
    {names names' : List Bytes} (h : Shows sh t G bucket filterPrefix names)
    (h' : Shows sh t G bucket filterPrefix names') : names = names' := by
  obtain ⟨lines, hlines, -, hmem⟩ := h.lines
  obtain ⟨lines', hlines', -, hmem'⟩ := h'.lines
  obtain rfl : lines = lines' := some.inj (hlines.symm.trans hlines')
  apply List.Pairwise.eq_of_mem_iff h.increasing h'.increasing
  intro name
  rw [hmem, hmem']

section Scan

variable {t : FileTree} {base head : Bytes}

variable {m m' : DirMap} {line : Bytes}

/-- A line of `ls` fits its buffer, and is added if `stat` finds it. -/
theorem addLine_eq_some (h : addLine t base head m line = some m') : (line.length < 256 ∧
      ∀ isDir, statKind t (base ++ head ++ line) = some isDir →
      (fileName line isDir).length < 256) ∧
    (∀ name, name ∈ SortedMap.keys m' ↔ name ∈ SortedMap.keys m ∨
      ∃ isDir, statKind t (base ++ head ++ line) = some isDir ∧ fileName line isDir = name) ∧
    (SortedMap.Sorted m → SortedMap.Sorted m') ∧
    ((∀ e ∈ m, e.2 = head ++ e.1) → ∀ e ∈ m', e.2 = head ++ e.1) := by
  unfold addLine at h
  split_ifs at h with hlong
  cases hstat : statKind t (base ++ head ++ line) with
  | none =>
    simp only [hstat, some.injEq] at h
    subst h
    simpa using not_le.mp hlong
  | some isDir =>
    simp only [hstat] at h
    split_ifs at h with hfull
    cases h
    refine ⟨⟨not_le.mp hlong, ?_⟩, ?_, SortedMap.sorted_insert, ?_⟩
    · rintro _ ⟨⟩
      exact not_le.mp hfull
    · intro name
      rw [SortedMap.mem_keys_insert, or_comm]
      simp [eq_comm]
    · exact fun hm => SortedMap.forall_mem_insert rfl hm

theorem addLine_isSome (m : DirMap) (hline : line.length < 256)
    (hname : ∀ isDir, statKind t (base ++ head ++ line) = some isDir →
      (fileName line isDir).length < 256) : (addLine t base head m line).isSome := by
  unfold addLine
  rw [if_neg (not_le.mpr hline)]
  cases hstat : statKind t (base ++ head ++ line) with
  | none => rfl
  | some isDir =>
    change (if _ then _ else _ : Option DirMap).isSome = true
    rw [if_neg (not_le.mpr (hname isDir hstat))]
    rfl

variable {lines : List Bytes}

theorem foldlM_addLine_eq_some
    (h : lines.foldlM (addLine t base head) m = some m') : (∀ line ∈ lines, line.length < 256 ∧
      ∀ isDir, statKind t (base ++ head ++ line) = some isDir →
      (fileName line isDir).length < 256) ∧
    (∀ name, name ∈ SortedMap.keys m' ↔ name ∈ SortedMap.keys m ∨ ∃ line ∈ lines,
      ∃ isDir, statKind t (base ++ head ++ line) = some isDir ∧ fileName line isDir = name) ∧
    (SortedMap.Sorted m → SortedMap.Sorted m') ∧
    ((∀ e ∈ m, e.2 = head ++ e.1) → ∀ e ∈ m', e.2 = head ++ e.1) := by
  induction lines generalizing m with
  | nil =>
    cases h
    simp
  | cons line lines ih =>
    obtain ⟨m₁, hline, hrest⟩ := bind_eq_some_iff.mp h
    obtain ⟨hfit, hmem, hsorted, hvalues⟩ := addLine_eq_some hline
    obtain ⟨hfits, hmems, hsorteds, hvaluess⟩ := ih hrest
    refine ⟨forall_mem_cons.mpr ⟨hfit, hfits⟩, ?_, hsorteds ∘ hsorted, hvaluess ∘ hvalues⟩
    intro name
    rw [hmems, hmem, or_assoc]
    simp only [mem_cons, exists_eq_or_imp]

theorem foldlM_addLine_isSome (m : DirMap) (h : ∀ line ∈ lines, line.length < 256 ∧
      ∀ isDir, statKind t (base ++ head ++ line) = some isDir →
      (fileName line isDir).length < 256) :
    (lines.foldlM (addLine t base head) m).isSome := by
  induction lines generalizing m with
  | nil => rfl
  | cons line lines ih =>
    obtain ⟨⟨hline, hname⟩, hlines⟩ := forall_mem_cons.mp h
    obtain ⟨m₁, hm₁⟩ := isSome_iff_exists.mp (addLine_isSome m hline hname)
    rw [foldlM_cons, hm₁]
    exact ih m₁ hlines

theorem map_keys_eq {m : DirMap} (h : ∀ e ∈ m, e.2 = head ++ e.1) :
    (SortedMap.keys m).map (fun name => (name, head ++ name)) = m := by
  unfold SortedMap.keys
  rw [List.map_map]
  conv_rhs => rw [← List.map_id m]
  apply map_congr_left
  intro e he
  exact Prod.ext rfl (h e he).symm

end Scan

section

variable {sh : ShellHost} {t : FileTree} {G : Global} {bucket filterPrefix : Bytes}

theorem readFiles_nil (t : FileTree) (base head : Bytes) : readFiles t base head [] = some [] := rfl

/-- If both commands fit, the directory is read from their output. -/
theorem issueBucketListOp_eq (h : CommandsFit sh t G bucket filterPrefix) (start : Bytes)
    (n : Nat) :
    issueBucketListOp sh t G bucket start filterPrefix n =
      readFiles t (basePath G bucket) (viewHead sh t G bucket filterPrefix)
        (viewText sh t G bucket filterPrefix) := by
  have hroom : ¬ (256 ≤ (indexBucket bucket).length ∨
    512 ≤ (lsCommand G bucket filterPrefix).length) :=
    not_or.mpr ⟨not_le.mpr h.bucket_lt, not_le.mpr h.command_lt⟩
  have hexec : shellExecute sh (lsCommand G bucket filterPrefix) t =
      some (printed sh t G bucket filterPrefix) := if_pos h.output_lt
  unfold issueBucketListOp
  rw [if_neg hroom, hexec]
  by_cases hfiles : printed sh t G bucket filterPrefix = []
  · have htext : viewText sh t G bucket filterPrefix = [] := by simp [viewText, hfiles]
    rw [htext, readFiles_nil]
    exact if_pos hfiles
  · have htest : ¬ 512 ≤ (testCommand G bucket filterPrefix).length := not_le.mpr (h.test_lt hfiles)
    simp only [if_neg hfiles, if_neg htest]
    by_cases hpre : filterPrefix = []
    · simp [viewHead, viewText, hpre]
    · by_cases hdir : shellSimple sh (testCommand G bucket filterPrefix) t <;>
        simp [viewHead, viewText, hpre, hdir, hfiles]

variable {start : Bytes} {dir : DirMap}

/-- A listing that returns had commands that fit their buffers. -/
theorem commandsFit_of_issue {n : Nat}
    (h : issueBucketListOp sh t G bucket start filterPrefix n = some dir) :
    CommandsFit sh t G bucket filterPrefix := by
  unfold issueBucketListOp at h
  have hroom : ¬ (256 ≤ (indexBucket bucket).length ∨
      512 ≤ (lsCommand G bucket filterPrefix).length) := fun hlong => by simp [hlong] at h
  obtain ⟨hbucket, hcommand⟩ := not_or.mp hroom
  cases hexec : shellExecute sh (lsCommand G bucket filterPrefix) t with
  | none => simp [hexec] at h
  | some files =>
    have hout := hexec
    simp only [shellExecute] at hout
    split_ifs at hout with hfit
    refine ⟨not_le.mp hbucket, not_le.mp hcommand, hfit, ?_⟩
    intro hfiles
    obtain rfl : printed sh t G bucket filterPrefix = files := some.inj hout
    simp only [hexec, if_neg hfiles] at h
    by_contra hlong
    simp [not_lt.mp hlong] at h

/-- The listing of a directory by what it shows. -/
theorem issueBucketListOp_eq_some_iff {n : Nat} :
    issueBucketListOp sh t G bucket start filterPrefix n = some dir ↔
      ∃ names, Shows sh t G bucket filterPrefix names ∧
        dir = names.map fun name => (name, viewHead sh t G bucket filterPrefix ++ name) := by
  constructor
  · intro h
    have hfit := commandsFit_of_issue h
    rw [issueBucketListOp_eq hfit] at h
    obtain ⟨lines, hlines, hfold⟩ := bind_eq_some_iff.mp h
    obtain ⟨hlen, hmem, hsorted, hvalues⟩ := foldlM_addLine_eq_some hfold
    refine ⟨SortedMap.keys dir, ⟨hfit, hsorted .nil, lines, hlines, hlen, ?_⟩, ?_⟩
    · simpa [SortedMap.keys, IsEntry] using hmem
    · exact (map_keys_eq (hvalues (by simp))).symm
  · rintro ⟨names, ⟨hfit, hincreasing, lines, hlines, hlen, hnames⟩, rfl⟩
    rw [issueBucketListOp_eq hfit]
    obtain ⟨dir, hfold⟩ := isSome_iff_exists.mp (foldlM_addLine_isSome [] hlen)
    obtain ⟨-, hmem, hsorted, hvalues⟩ := foldlM_addLine_eq_some hfold
    have hkeys : SortedMap.keys dir = names := by
      apply List.Pairwise.eq_of_mem_iff (hsorted .nil) hincreasing
      intro name
      rw [hmem, hnames]
      simp [SortedMap.keys, IsEntry]
    have hdir := map_keys_eq (hvalues (by simp))
    rw [hkeys] at hdir
    unfold readFiles
    rw [hlines, hdir]
    exact hfold

end

def unmangled (key : Bytes) : Option Bytes :=
  (RgwObj.parseRawOid key).bind fun obj => if obj.ns = [] then some obj.name else none

theorem findStr_slash (s : Bytes) :
    findStr (ascii "/") s = if 47 ∈ s then some (s.takeWhile (· ≠ 47)).length else none := by
  induction s with
  | nil => rfl
  | cons c s ih =>
    have hslash : ascii "/" <+: c :: s ↔ c = 47 := by
      change [47] <+: c :: s ↔ c = 47
      rw [cons_prefix_cons, and_iff_left (List.nil_prefix), eq_comm]
    simp only [findStr, hslash, ih]
    by_cases hc : c = 47
    · simp [hc]
    · have hc' : (47 : UInt8) ≠ c := Ne.symm hc
      by_cases hs : 47 ∈ s <;> simp [hc, hc', hs]

theorem take_takeWhile_succ {c : UInt8} {s : Bytes} (h : c ∈ s) :
    s.take ((s.takeWhile (· ≠ c)).length + 1) = s.takeWhile (· ≠ c) ++ [c] := by
  induction s with
  | nil => simp at h
  | cons x s ih =>
    by_cases hx : x = c
    · simp [hx]
    · have hs : c ∈ s := (mem_cons.mp h).resolve_left (Ne.symm hx)
      have htake := ih hs
      rw [takeWhile_cons_of_pos (by simpa using hx), length_cons, take_succ_cons, htake]
      rfl

/-- The delimiter behind the prefix gives the common prefix. -/
theorem delimPos_rollUp {d : Delimiter} {pre name : Bytes} (h : pre <+: name) :
    (delimPos d.bytes name pre.length).map (fun pos => name.take (pos + 1)) =
      d.rollUp pre name := by
  cases d with
  | none => rfl
  | slash =>
    obtain ⟨rest, rfl⟩ := h
    have hdelim : (Delimiter.slash.bytes : Bytes) ≠ [] := by decide
    simp only [delimPos, if_neg hdelim, Delimiter.rollUp, drop_left]
    change ((findStr (ascii "/") rest).map _).map _ = _
    rw [findStr_slash]
    by_cases hrest : 47 ∈ rest
    · simp only [if_pos hrest, map_some, some.injEq]
      rw [add_right_comm, add_comm _ pre.length, take_length_add_append, take_takeWhile_succ hrest,
        append_assoc]
    · simp [hrest]

section Pass

variable {d : Delimiter} {pre : Bytes}

theorem mem_prefixesOf {names : Finset Bytes} {c : Bytes} :
    c ∈ d.prefixesOf pre names ↔ ∃ name ∈ names, d.commonPrefix pre name = some c := by
  simp [Delimiter.prefixesOf]

def total (d : Delimiter) (pre : Bytes) (names : List Bytes) : Nat :=
  (names.filter (d.isKey pre)).length + (d.prefixesOf pre names.toFinset).card

theorem total_le_append (names names' : List Bytes) :
    total d pre names ≤ total d pre (names ++ names') := by
  unfold total
  apply Nat.add_le_add
  · simp
  · apply Finset.card_le_card
    intro c
    simp only [mem_prefixesOf, List.mem_toFinset, mem_append]
    rintro ⟨name, hname, hc⟩
    exact ⟨name, .inl hname, hc⟩

variable {names : List Bytes} {name : Bytes}

theorem prefixesOf_append : d.prefixesOf pre (names ++ [name]).toFinset =
      d.prefixesOf pre names.toFinset ∪ (d.commonPrefix pre name).toFinset := by
  ext c
  simp [Delimiter.prefixesOf, or_comm]

structure Collected (d : Delimiter) (pre : Bytes) (names : List Bytes) (found : Found) : Prop where
  result_eq : found.result = names.filter (d.isKey pre)
  sorted : SortedMap.Sorted found.commonPrefixes
  mem_prefixes : ∀ c, c ∈ SortedMap.keys found.commonPrefixes ↔ c ∈ d.prefixesOf pre names.toFinset
  count_eq : found.count = found.result.length + found.commonPrefixes.length

theorem Collected.count_eq_total {found : Found}
    (h : Collected d pre names found) : found.count = total d pre names := by
  have hnodup : (SortedMap.keys found.commonPrefixes).Nodup := List.Pairwise.nodup h.sorted
  have hset : (SortedMap.keys found.commonPrefixes).toFinset = d.prefixesOf pre names.toFinset := by
    ext c
    rw [List.mem_toFinset, h.mem_prefixes]
  rw [h.count_eq, h.result_eq, total, ← hset, toFinset_card_of_nodup hnodup]
  simp [SortedMap.keys]

theorem collected_nil : Collected d pre [] {} where
  result_eq := rfl
  sorted := .nil
  mem_prefixes c := by simp [SortedMap.keys, Delimiter.prefixesOf]
  count_eq := rfl

theorem Collected.skip {found : Found} (h : Collected d pre names found)
    (hkey : d.isKey pre name = false)
    (hold : ∀ c, d.commonPrefix pre name = some c → c ∈ d.prefixesOf pre names.toFinset) :
    Collected d pre (names ++ [name]) found where
  result_eq := by simp [h.result_eq, hkey]
  sorted := h.sorted
  mem_prefixes c := by
    rw [h.mem_prefixes, prefixesOf_append, Finset.mem_union, Option.mem_toFinset]
    exact ⟨.inl, fun hc => hc.elim id (hold c)⟩
  count_eq := h.count_eq

theorem Collected.mark {found : Found} (h : Collected d pre names found)
    (name : Bytes) : Collected d pre names { found with nextMarker := name } :=
  { h with }

theorem Collected.addKey {found : Found}
    (h : Collected d pre names found) (hkey : d.isKey pre name = true)
    (hrolled : d.commonPrefix pre name = none) :
    Collected d pre (names ++ [name])
    { found with result := found.result ++ [name], count := found.count + 1 } where
  result_eq := by simp [h.result_eq, hkey]
  sorted := h.sorted
  mem_prefixes c := by
    rw [h.mem_prefixes, prefixesOf_append, hrolled]
    simp
  count_eq := by
    simp only [h.count_eq, length_append, length_singleton]
    omega

theorem Collected.addPrefix {name c : Bytes} {found : Found}
    (h : Collected d pre names found) (hkey : d.isKey pre name = false)
    (hrolled : d.commonPrefix pre name = some c) (hnew : c ∉ SortedMap.keys found.commonPrefixes)
    (skip : Bytes) :
    Collected d pre (names ++ [name]) { found with
        nextMarker := c,
        commonPrefixes := SortedMap.insert c true found.commonPrefixes,
        skipAfterDelim := skip,
        count := found.count + 1 } where
  result_eq := by simp [h.result_eq, hkey]
  sorted := SortedMap.sorted_insert h.sorted
  mem_prefixes c' := by
    rw [SortedMap.mem_keys_insert, h.mem_prefixes, prefixesOf_append, hrolled]
    simp [eq_comm]
  count_eq := by
    simp only [h.count_eq, SortedMap.length_insert hnew]
    omega

theorem total_append_key (hkey : d.isKey pre name = true)
    (hrolled : d.commonPrefix pre name = none) :
    total d pre (names ++ [name]) = total d pre names + 1 := by
  simp only [total, prefixesOf_append, hrolled, filter_append, length_append]
  simp [hkey]
  omega

theorem total_append_rolled {name c : Bytes} (hkey : d.isKey pre name = false)
    (hrolled : d.commonPrefix pre name = some c) (hnew : c ∉ d.prefixesOf pre names.toFinset) :
    total d pre (names ++ [name]) = total d pre names + 1 := by
  have hset : d.prefixesOf pre (names ++ [name]).toFinset =
      insert c (d.prefixesOf pre names.toFinset) := by
    rw [prefixesOf_append, hrolled, toFinset_some, Finset.union_singleton]
  rw [total, total, hset, Finset.card_insert_of_notMem hnew, filter_append]
  simp [hkey]
  omega

variable {marker bigger : Bytes} {max : Nat}

variable {found found' : Found} {leave : Bool}

/-- One name is collected, or there are more than `max`. -/
theorem addName_spec
    (hpre : pre <+: name) (hc : Collected d pre names found)
    (h : addName ⟨pre, d.bytes, marker, []⟩ max bigger name found = (found', leave)) :
    (leave = false → Collected d pre (names ++ [name]) found') ∧
      (leave = true → max < total d pre (names ++ [name])) := by
  have hroll : d.commonPrefix pre name = d.rollUp pre name := by
    simp [Delimiter.commonPrefix, hpre]
  have hisKey : d.isKey pre name = (d.rollUp pre name).isNone := by
    simp [Delimiter.isKey, hpre]
  have hcut := delimPos_rollUp (d := d) hpre
  unfold addName at h
  cases hpos : delimPos d.bytes name pre.length with
  | none =>
    rw [hpos, map_none] at hcut
    rw [← hcut] at hroll hisKey
    simp only [hpos] at h
    split_ifs at h with hfull
    · cases h
      refine ⟨nofun, fun _ => ?_⟩
      rw [total_append_key hisKey hroll, ← hc.count_eq_total]
      omega
    · cases h
      exact ⟨fun _ => hc.addKey hisKey hroll, nofun⟩
  | some pos =>
    rw [hpos, map_some] at hcut
    rw [← hcut] at hroll hisKey
    simp only [hpos] at h
    split_ifs at h with hold hfull
    · cases h
      refine ⟨fun _ => hc.skip hisKey ?_, nofun⟩
      intro c hcommon
      obtain rfl : name.take (pos + 1) = c := some.inj (hroll.symm.trans hcommon)
      exact (hc.mem_prefixes _).mp hold
    · cases h
      refine ⟨nofun, fun _ => ?_⟩
      rw [total_append_rolled hisKey hroll (mt (hc.mem_prefixes _).mpr hold), ← hc.count_eq_total]
      omega
    · cases h
      exact ⟨fun _ => hc.addPrefix hisKey hroll hold _, nofun⟩

variable {key : Bytes}

theorem visitEntry_spec
    (hc : Collected d pre names found)
    (h : visitEntry ⟨pre, d.bytes, marker, []⟩ max bigger key found = (found', leave)) :
    (leave = false → Collected d pre (names ++ (unmangled key).toList) found') ∧
      (leave = true → max < total d pre (names ++ (unmangled key).toList)) := by
  unfold visitEntry at h
  cases hparse : RgwObj.parseRawOid key with
  | none =>
    simp only [hparse] at h
    cases h
    simpa [unmangled, hparse] using hc
  | some obj =>
    by_cases hns : obj.ns = []
    · have hname : (unmangled key).toList = [obj.name] := by simp [unmangled, hparse, hns]
      have hmark : Collected d pre names
          (if found.count < max then { found with nextMarker := obj.name } else found) := by
        split_ifs
        · exact hc.mark _
        · exact hc
      simp only [hparse, hns, ne_eq, not_true_eq_false, false_and, if_false] at h
      rw [hname]
      by_cases hpre : pre <+: obj.name
      · rw [if_pos hpre] at h
        exact addName_spec hpre hmark h
      · rw [if_neg hpre] at h
        cases h
        refine ⟨fun _ => hmark.skip ?_ ?_, nofun⟩
        · simp [Delimiter.isKey, hpre]
        · simp [Delimiter.commonPrefix, hpre]
    · have hname : unmangled key = none := by simp [unmangled, hparse, hns]
      simp only [hparse, ne_eq, hns, not_false_eq_true, if_true] at h
      cases h
      simpa [hname] using hc

/-- A page is collected, or there are more than `max`. -/
theorem visit_spec {names keys : List Bytes} (hc : Collected d pre names found)
    (h : visit ⟨pre, d.bytes, marker, []⟩ max bigger keys found = (found', leave)) :
    (leave = false → Collected d pre (names ++ keys.filterMap unmangled) found') ∧
      (leave = true → max < total d pre (names ++ keys.filterMap unmangled)) := by
  induction keys generalizing names found with
  | nil =>
    cases h
    simpa using hc
  | cons key keys ih =>
    have hnames : names ++ (key :: keys).filterMap unmangled =
        names ++ (unmangled key).toList ++ keys.filterMap unmangled := by
      cases hkey : unmangled key <;> simp [hkey]
    rw [hnames]
    obtain ⟨⟨found₁, leave₁⟩, hentry⟩ :
        ∃ r, visitEntry ⟨pre, d.bytes, marker, []⟩ max bigger key found = r := ⟨_, rfl⟩
    obtain ⟨hstay, hleave⟩ := visitEntry_spec hc hentry
    simp only [visit, hentry] at h
    cases leave₁ with
    | true =>
      cases h
      exact ⟨nofun, fun _ => (hleave rfl).trans_le (total_le_append _ _)⟩
    | false => exact ih (hstay rfl) h

theorem addName_count_le {params : Params}
    (hle : found.count ≤ max) (h : addName params max bigger name found = (found', leave)) :
    found'.count ≤ max ∧ (leave = true → found'.truncated = true) := by
  unfold addName at h
  cases hpos : delimPos params.delim name params.keyPrefix.length with
  | none =>
    simp only [hpos] at h
    split_ifs at h with hfull
    · cases h
      exact ⟨hle, fun _ => rfl⟩
    · cases h
      exact ⟨not_le.mp hfull, nofun⟩
  | some pos =>
    simp only [hpos] at h
    split_ifs at h with hold hfull
    · cases h
      exact ⟨hle, nofun⟩
    · cases h
      exact ⟨hle, fun _ => rfl⟩
    · cases h
      exact ⟨not_le.mp hfull, nofun⟩

theorem visitEntry_count_le (hle : found.count ≤ max)
    (h : visitEntry ⟨pre, d.bytes, marker, []⟩ max bigger key found = (found', leave)) :
    found'.count ≤ max ∧ (leave = true → found'.truncated = true) := by
  unfold visitEntry at h
  cases hparse : RgwObj.parseRawOid key with
  | none =>
    simp only [hparse] at h
    cases h
    exact ⟨hle, nofun⟩
  | some obj =>
    have hmark : (if found.count < max then { found with nextMarker := obj.name }
        else found : Found).count ≤ max := by split_ifs <;> exact hle
    simp only [hparse, ne_eq, not_true_eq_false, false_and, if_false] at h
    by_cases hns : obj.ns = []
    · rw [if_neg (not_not.mpr hns)] at h
      by_cases hpre : pre <+: obj.name
      · rw [if_pos hpre] at h
        exact addName_count_le hmark h
      · rw [if_neg hpre] at h
        cases h
        exact ⟨hmark, nofun⟩
    · rw [if_pos hns] at h
      cases h
      exact ⟨hle, nofun⟩

theorem visit_count_le {keys : List Bytes} (hle : found.count ≤ max)
    (h : visit ⟨pre, d.bytes, marker, []⟩ max bigger keys found = (found', leave)) :
    found'.count ≤ max ∧ (leave = true → found'.truncated = true) := by
  induction keys generalizing found with
  | nil =>
    cases h
    exact ⟨hle, nofun⟩
  | cons key keys ih =>
    obtain ⟨⟨found₁, leave₁⟩, hentry⟩ :
        ∃ r, visitEntry ⟨pre, d.bytes, marker, []⟩ max bigger key found = r := ⟨_, rfl⟩
    obtain ⟨hcount, htruncated⟩ := visitEntry_count_le hle hentry
    simp only [visit, hentry] at h
    cases leave₁ with
    | true =>
      cases h
      exact ⟨hcount, htruncated⟩
    | false => exact ih hcount h

end Pass

def Delimiter.bigger : Delimiter → Bytes
  | .none => []
  | .slash => ascii "0"

theorem biggerThanDelim_bytes (d : Delimiter) : biggerThanDelim d.bytes = some d.bigger := by
  cases d with
  | none => rfl
  | slash => decide

section Call

variable {sh : ShellHost} {t : FileTree} {G : Global} {bucket pre : Bytes} {d : Delimiter}
  {max : Nat}
  {bigger : Bytes}

theorem clsBucketList_start (start start' : Bytes) (n : Nat) :
    clsBucketList sh t G bucket start pre n = clsBucketList sh t G bucket start' pre n := rfl

theorem visit_marker (marker marker' : Bytes) (keys : List Bytes) (found : Found) :
    visit ⟨pre, d.bytes, marker, []⟩ max bigger keys found =
      visit ⟨pre, d.bytes, marker', []⟩ max bigger keys found := by
  induction keys generalizing found with
  | nil => rfl
  | cons key keys ih =>
    have hentry : visitEntry ⟨pre, d.bytes, marker, []⟩ max bigger key found =
        visitEntry ⟨pre, d.bytes, marker', []⟩ max bigger key found := rfl
    simp only [visit, hentry, ih]

/-- The loop does not use the marker of its parameters. -/
theorem listLoop_marker (marker marker' : Bytes) (fuel : Nat) (cur cur' : Bytes) (found : Found) :
    listLoop sh t G bucket ⟨pre, d.bytes, marker, []⟩ max bigger fuel cur found =
      listLoop sh t G bucket ⟨pre, d.bytes, marker', []⟩ max bigger fuel cur' found := by
  induction fuel generalizing cur cur' found with
  | zero => rfl
  | succ fuel ih =>
    by_cases hgo : found.truncated ∧ found.count ≤ max
    · simp only [listLoop, clsBucketList_start _ [], visit_marker marker marker', if_pos hgo]
      cases clsBucketList sh t G bucket [] (indexKeyName pre) (max + 1 - found.count) with
      | none => rfl
      | some r =>
        simp only
        rcases visit ⟨pre, d.bytes, marker', []⟩ max bigger (r.1.map Prod.snd) found with ⟨f, - | -⟩
        · exact ih _ _ _
        · rfl
    · simp only [listLoop, if_neg hgo]

variable {fuel : Nat}

theorem listLoop_add {params : Params} {cur : Bytes} {found found' : Found}
    (h : listLoop sh t G bucket params max bigger fuel cur found = some found') (n : Nat) :
    listLoop sh t G bucket params max bigger (fuel + n) cur found = some found' := by
  induction fuel generalizing cur found with
  | zero => cases h
  | succ fuel ih =>
    rw [add_right_comm]
    by_cases hgo : found.truncated ∧ found.count ≤ max
    · simp only [listLoop, if_pos hgo] at h ⊢
      cases hcls : clsBucketList sh t G bucket
          (if cur < found.skipAfterDelim then found.skipAfterDelim else cur)
          (indexKeyName params.keyPrefix) (max + 1 - found.count) with
      | none => simp [hcls] at h
      | some r =>
        simp only [hcls] at h ⊢
        rcases hvisit : visit params max bigger (r.1.map Prod.snd) found with ⟨f, - | -⟩
        · simp only [hvisit] at h ⊢
          exact ih h
        · simpa only [hvisit] using h
    · simpa only [listLoop, if_neg hgo] using h

theorem listObjects_eq_ok_iff {marker : Bytes} {found : Found} :
    listObjects sh t G bucket ⟨pre, d.bytes, marker, []⟩ max fuel = some (.ok found) ↔
    bucket.head? ≠ some 46 ∧
        listLoop sh t G bucket ⟨pre, d.bytes, marker, []⟩ max d.bigger fuel
          (startMarker ⟨pre, d.bytes, marker, []⟩ d.bigger) {} = some found := by
  simp only [listObjects, biggerThanDelim_bytes]
  by_cases hsystem : bucket.head? = some 46 <;> simp [hsystem]

theorem calls_unique {marker marker' : Bytes} {page page' : Page}
    (h : Calls sh t G bucket pre d max marker page)
    (h' : Calls sh t G bucket pre d max marker' page') : page' = page := by
  obtain ⟨fuel, found, hlist, rfl⟩ := h
  obtain ⟨fuel', found', hlist', rfl⟩ := h'
  have hmore := listLoop_add (listObjects_eq_ok_iff.mp hlist).2 fuel'
  have hmore' := listLoop_add (listObjects_eq_ok_iff.mp hlist').2 fuel
  rw [listLoop_marker marker' marker _ _ (startMarker ⟨pre, d.bytes, marker, []⟩ d.bigger),
    add_comm, hmore, some.injEq] at hmore'
  rw [hmore']

theorem clsBucketList_eq {dir : DirMap}
    (hdir : issueBucketListOp sh t G bucket [] (indexKeyName pre) 0 = some dir) (start : Bytes)
    (n : Nat) :
    clsBucketList sh t G bucket start (indexKeyName pre) n =
      some (dir.take n, decide (n < dir.length), (dir.take n).getLast?.map Prod.fst) := by
  change (issueBucketListOp sh t G bucket [] (indexKeyName pre) 0).bind _ = _
  rw [hdir]
  rfl

/-- A directory of more than a page ends the loop as truncated. -/
theorem listLoop_truncated {marker cur : Bytes} {found found' : Found} {dir : DirMap}
    (hdir : issueBucketListOp sh t G bucket [] (indexKeyName pre) 0 = some dir)
    (hlong : max + 1 < dir.length) (htruncated : found.truncated = true) (hle : found.count ≤ max)
    (h : listLoop sh t G bucket ⟨pre, d.bytes, marker, []⟩ max bigger fuel cur found =
      some found') :
    found'.truncated = true := by
  induction fuel generalizing cur found with
  | zero => cases h
  | succ fuel ih =>
    simp only [listLoop, if_pos (show found.truncated ∧ found.count ≤ max from ⟨htruncated, hle⟩),
      clsBucketList_eq hdir] at h
    rcases hvisit : visit ⟨pre, d.bytes, marker, []⟩ max bigger
      ((dir.take (max + 1 - found.count)).map Prod.snd) found with ⟨f, - | -⟩
    · simp only [hvisit] at h
      have hmore : max + 1 - found.count < dir.length := by omega
      have hagain : ({ f with truncated := decide (max + 1 - found.count < dir.length) } :
        Found).truncated = true := decide_eq_true hmore
      exact ih hagain (visit_count_le hle hvisit).1 h
    · simp only [hvisit, some.injEq] at h
      exact h ▸ (visit_count_le hle hvisit).2 rfl

theorem listLoop_of_length_le {marker cur : Bytes} {dir : DirMap}
    (hdir : issueBucketListOp sh t G bucket [] (indexKeyName pre) 0 = some dir)
    (hshort : dir.length ≤ max + 1) (fuel : Nat) :
    listLoop sh t G bucket ⟨pre, d.bytes, marker, []⟩ max bigger (fuel + 2) cur {} =
      match visit ⟨pre, d.bytes, marker, []⟩ max bigger (dir.map Prod.snd) {} with
      | (found, true) => some found
      | (found, false) => some { found with truncated := false } := by
  have hgo : ({} : Found).truncated ∧ ({} : Found).count ≤ max := ⟨rfl, Nat.zero_le max⟩
  have hall : dir.take (max + 1) = dir := take_of_length_le hshort
  rw [listLoop, if_pos hgo]
  simp only [clsBucketList_eq hdir, Nat.sub_zero, hall, decide_eq_false (not_lt.mpr hshort)]
  rcases visit ⟨pre, d.bytes, marker, []⟩ max bigger (dir.map Prod.snd) {} with ⟨f, - | -⟩
  · simp [listLoop]
  · rfl

def shownNames (sh : ShellHost) (t : FileTree) (G : Global) (bucket pre : Bytes)
    (files : List Bytes) : List Bytes :=
  (files.map fun file => viewHead sh t G bucket (indexKeyName pre) ++ file).filterMap unmangled

theorem map_snd_entries (head : Bytes) (files : List Bytes) :
    (files.map fun file => (file, head ++ file)).map Prod.snd = files.map fun file =>
      head ++ file := by
  rw [List.map_map]
  rfl

/-- A page that says it is the last one has seen all files, of which there are at most `max + 1`. -/
theorem final_of_calls {marker : Bytes} {page : Page}
    (h : Calls sh t G bucket pre d max marker page)
    (hlast : page.isTruncated = false) :
    bucket.head? ≠ some 46 ∧ ∃ files, Shows sh t G bucket (indexKeyName pre) files ∧
      files.length ≤ max + 1 ∧ total d pre (shownNames sh t G bucket pre files) ≤ max ∧
      page.keys = (shownNames sh t G bucket pre files).filter (d.isKey pre) ∧
      page.commonPrefixes.Pairwise (· < ·) ∧
      ∀ c, c ∈ page.commonPrefixes ↔
      c ∈ d.prefixesOf pre (shownNames sh t G bucket pre files).toFinset := by
  obtain ⟨fuel, found, hlist, rfl⟩ := h
  obtain ⟨hlistable, hloop⟩ := listObjects_eq_ok_iff.mp hlist
  refine ⟨hlistable, ?_⟩
  cases hdir : issueBucketListOp sh t G bucket [] (indexKeyName pre) 0 with
  | none =>
    -- the first turn has no answer
    cases fuel with
    | zero => cases hloop
    | succ fuel =>
      have hcls : ∀ start n, clsBucketList sh t G bucket start (indexKeyName pre) n = none := by
        intro start n
        change (issueBucketListOp sh t G bucket [] (indexKeyName pre) 0).bind _ = _
        rw [hdir]
        rfl
      have hgo : ({} : Found).truncated ∧ ({} : Found).count ≤ max := ⟨rfl, Nat.zero_le max⟩
      rw [listLoop, if_pos hgo] at hloop
      simp [hcls] at hloop
  | some dir =>
    by_cases hlong : max + 1 < dir.length
    · have htruncated := listLoop_truncated hdir hlong rfl (Nat.zero_le max) hloop
      change found.truncated = false at hlast
      rw [hlast] at htruncated
      cases htruncated
    · obtain ⟨files, hshows, rfl⟩ := issueBucketListOp_eq_some_iff.mp hdir
      have hshort := not_lt.mp hlong
      have hmore := listLoop_add hloop 2
      rw [listLoop_of_length_le hdir hshort, map_snd_entries] at hmore
      rcases hvisit : visit ⟨pre, d.bytes, marker, []⟩ max d.bigger
        (files.map fun file => viewHead sh t G bucket (indexKeyName pre) ++ file) {} with ⟨f, - | -⟩
      · have hcollected := (visit_spec collected_nil hvisit).1 rfl
        rw [nil_append] at hcollected
        have hcount := (visit_count_le (Nat.zero_le max) hvisit).1
        simp only [hvisit, some.injEq] at hmore
        subst hmore
        refine ⟨files, hshows, by simpa using hshort, ?_, hcollected.result_eq, hcollected.sorted,
          hcollected.mem_prefixes⟩
        exact hcollected.count_eq_total ▸ hcount
      · have htruncated := (visit_count_le (Nat.zero_le max) hvisit).2 rfl
        simp only [hvisit, some.injEq] at hmore
        subst hmore
        change f.truncated = false at hlast
        rw [hlast] at htruncated
        cases htruncated

/-- Few enough files and names are listed in one call, whatever the marker. -/
theorem calls_of_shows {files : List Bytes} (marker : Bytes) (hlistable : bucket.head? ≠ some 46)
    (hshows : Shows sh t G bucket (indexKeyName pre) files) (hfew : files.length ≤ max + 1)
    (htotal : total d pre (shownNames sh t G bucket pre files) ≤ max) :
    ∃ page, Calls sh t G bucket pre d max marker page ∧ page.isTruncated = false := by
  have hdir : issueBucketListOp sh t G bucket [] (indexKeyName pre) 0 =
      some (files.map fun file => (file, viewHead sh t G bucket (indexKeyName pre) ++ file)) :=
    issueBucketListOp_eq_some_iff.mpr ⟨files, hshows, rfl⟩
  have hlength : (files.map fun file =>
      (file, viewHead sh t G bucket (indexKeyName pre) ++ file)).length ≤ max + 1 := by
        simpa using hfew
  have hloop : listLoop sh t G bucket ⟨pre, d.bytes, marker, []⟩ max d.bigger 2
      (startMarker ⟨pre, d.bytes, marker, []⟩ d.bigger) {} = _ :=
        listLoop_of_length_le hdir hlength 0
  rw [map_snd_entries] at hloop
  rcases hvisit : visit ⟨pre, d.bytes, marker, []⟩ max d.bigger
    (files.map fun file => viewHead sh t G bucket (indexKeyName pre) ++ file) {} with ⟨f, - | -⟩
  · simp only [hvisit] at hloop
    exact ⟨_, ⟨2, _, listObjects_eq_ok_iff.mpr ⟨hlistable, hloop⟩, rfl⟩, rfl⟩
  · have hfull := (visit_spec collected_nil hvisit).2 rfl
    exact absurd htotal (not_le.mpr hfull)

end Call

section

variable (sh : ShellHost) (t : FileTree) (G : Global) (bucket pre : Bytes) (d : Delimiter)
  (max : Nat)

structure OnePage (files : List Bytes) : Prop where
  listable : bucket.head? ≠ some 46
  shows : Shows sh t G bucket (indexKeyName pre) files
  few : files.length ≤ max + 1
  room : (d.keysOf pre (objectNames G bucket t)).card +
    (d.prefixesOf pre (objectNames G bucket t)).card ≤ max
  increasing : ((shownNames sh t G bucket pre files).filter (d.isKey pre)).Pairwise (· < ·)
  keys_eq : d.keysOf pre (shownNames sh t G bucket pre files).toFinset =
    d.keysOf pre (objectNames G bucket t)
  prefixes_eq : d.prefixesOf pre (shownNames sh t G bucket pre files).toFinset =
    d.prefixesOf pre (objectNames G bucket t)

end

theorem mem_filter_isKey {d : Delimiter} {pre : Bytes} {names : List Bytes} {x : Bytes} :
    x ∈ names.filter (d.isKey pre) ↔ x ∈ d.keysOf pre names.toFinset := by
  simp [Delimiter.keysOf]

theorem total_eq_card {d : Delimiter} {pre : Bytes} {names : List Bytes}
    (h : (names.filter (d.isKey pre)).Pairwise (· < ·)) : total d pre names =
      (d.keysOf pre names.toFinset).card + (d.prefixesOf pre names.toFinset).card := by
  have hset : (names.filter (d.isKey pre)).toFinset = d.keysOf pre names.toFinset := by
    ext x
    rw [List.mem_toFinset, mem_filter_isKey]
  rw [total, ← hset, toFinset_card_of_nodup (List.Pairwise.nodup h)]

/-- Listing a bucket page by page ends and is right exactly if it takes one page. -/
theorem paginates_iff (sh : ShellHost) (t : FileTree) (G : Global) (bucket pre : Bytes)
    (d : Delimiter) (max : Nat) :
    Paginates sh t G bucket pre d max ↔ ∃ files, OnePage sh t G bucket pre d max files := by
  constructor
  · rintro ⟨pages, hpages, hall⟩
    obtain ⟨page, hcall⟩ : ∃ page, Calls sh t G bucket pre d max [] page := by
      cases hpages with
      | last hcall _ => exact ⟨_, hcall⟩
      | more hcall _ _ => exact ⟨_, hcall⟩
    obtain ⟨rfl, hnext⟩ := hpages.eq_singleton fun _ _ hcall' => calls_unique hcall hcall'
    have hlast : page.isTruncated = false := by
      by_contra htruncated
      rw [Bool.not_eq_false] at htruncated
      simp [Page.next, htruncated] at hnext
    obtain ⟨hlistable, files, hshows, hfew, htotal, hkeys, -, hprefixes⟩ :=
      final_of_calls hcall hlast
    have hincreasing := hall.keys_increasing
    simp only [flatMap_cons, flatMap_nil, append_nil, hkeys] at hincreasing
    have hkeys_eq : d.keysOf pre (shownNames sh t G bucket pre files).toFinset =
        d.keysOf pre (objectNames G bucket t) := by
      ext x
      rw [← mem_filter_isKey, ← hkeys, ← hall.mem_keys]
      simp
    have hprefixes_eq : d.prefixesOf pre (shownNames sh t G bucket pre files).toFinset =
        d.prefixesOf pre (objectNames G bucket t) := by
      ext x
      rw [← hprefixes, ← hall.mem_prefixes]
      simp
    refine ⟨files, hlistable, hshows, hfew, ?_, hincreasing, hkeys_eq, hprefixes_eq⟩
    rw [← hkeys_eq, ← hprefixes_eq, ← total_eq_card hincreasing]
    exact htotal
  · rintro ⟨files, h⟩
    have htotal : total d pre (shownNames sh t G bucket pre files) ≤ max := by
      rw [total_eq_card h.increasing, h.keys_eq, h.prefixes_eq]
      exact h.room
    obtain ⟨page, hcall, hlast⟩ := calls_of_shows [] h.listable h.shows h.few htotal
    obtain ⟨-, files', hshows', -, -, hkeys, hsorted, hprefixes⟩ := final_of_calls hcall hlast
    obtain rfl : files' = files := hshows'.unique h.shows
    have hnext : page.next = none := by simp [Page.next, hlast]
    refine ⟨[page], .last hcall hnext, ?_, ?_, ?_, ?_, pairwise_singleton _ _⟩
    · simpa [hkeys] using h.increasing
    · intro x
      rw [← h.keys_eq, ← mem_filter_isKey, ← hkeys]
      simp
    · simpa using hsorted
    · intro x
      rw [← h.prefixes_eq, ← hprefixes]
      simp

def byteOrderShell : ShellHost where
  collate names := Quot.liftOn names.val (List.insertionSort (· ≤ ·)) fun l l' h =>
    (((perm_insertionSort _ l).trans h).trans (perm_insertionSort _ l').symm).eq_of_pairwise'
      (pairwise_insertionSort _ l) (pairwise_insertionSort _ l')
  mem_collate := by
    rintro ⟨⟨names⟩, _⟩ c
    exact (perm_insertionSort _ names).mem_iff
  output _ _ := []
  succeeds _ _ := false

def twoObjects : FileTree :=
  (Sample.tree.writeFile (ascii "a" :: Sample.base) []).writeFile (ascii "b" :: Sample.base) []

/-- Of two objects listed one at a time, every page has the first and says that there is more. -/
theorem second_object_never_listed :
    objectNames Sample.G Sample.bucket twoObjects = {ascii "a", ascii "b"} ∧
      (∀ marker page, Calls byteOrderShell twoObjects Sample.G Sample.bucket [] .none 1 marker
        page →
        page = ⟨[ascii "a"], [], true, ascii "a"⟩) ∧
      ¬ Paginates byteOrderShell twoObjects Sample.G Sample.bucket [] .none 1 := by
  have hloop : listLoop byteOrderShell twoObjects Sample.G Sample.bucket ⟨[], [], [],
    []⟩ 1 [] 3 [] {} =
      some { count := 1, nextMarker := ascii "a", result := [ascii "a"] } := by decide
  have hcall : Calls byteOrderShell twoObjects Sample.G Sample.bucket [] .none 1 []
      ⟨[ascii "a"], [], true, ascii "a"⟩ :=
    ⟨3, _, listObjects_eq_ok_iff.mpr ⟨by decide, hloop⟩, rfl⟩
  have hsame : ∀ marker page,
    Calls byteOrderShell twoObjects Sample.G Sample.bucket [] .none 1 marker page →
      page = ⟨[ascii "a"], [], true, ascii "a"⟩ := fun _ _ hcall' => calls_unique hcall hcall'
  refine ⟨by decide, hsame, ?_⟩
  rintro ⟨pages, hpages, -⟩
  have hnext := (hpages.eq_singleton hsame).2
  simp [Page.next] at hnext

end RadosGateway.Listing
