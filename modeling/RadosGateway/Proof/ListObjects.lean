import RadosGateway.Proof.ListTermination
import RadosGateway.Proof.Mangling

/-!
# The listing without namespaces

With the default parameters the general listing over the scan of a directory is the one that keeps
names only: every step of the one is a step of the other on what `Found.names` leaves of its state.
-/

namespace RadosGateway.ListObjects

open Text Posix SortedMap List Option

def plain (params : Listing.Params) : Params where
  keyPrefix := params.keyPrefix
  delim := params.delim
  marker := ⟨params.marker, []⟩
  endMarker := ⟨params.endMarker, []⟩

theorem origObj_setObj (o : Bytes) (obj : RgwObj) : (RgwObj.setObj o obj).origObj = o := by
  rw [RgwObj.setObj]
  dsimp only
  split_ifs <;> rfl

theorem indexKey_keyObj (name : Bytes) :
    indexKey (keyObj [] ⟨name, []⟩) = ⟨Listing.indexKeyName name, []⟩ := by
  have hobj : keyObj [] ⟨name, []⟩ = RgwObj.setObj name {} := rfl
  obtain ⟨hns, hinst⟩ := RgwObj.setObj_fields name {}
  rw [hobj, indexKey, indexKeyName, hns, hinst, origObj_setObj]
  rfl

theorem startMarker_plain (params : Listing.Params) (bigger : Bytes) :
    startMarker (plain params) bigger = ⟨Listing.startMarker params bigger, []⟩ := by
  have hkey : indexKey (keyObj (plain params).ns (plain params).marker) = _ :=
    indexKey_keyObj params.marker
  rw [startMarker, Listing.startMarker, hkey]
  dsimp only [plain]
  cases Listing.delimPos params.delim (Listing.indexKeyName params.marker)
    params.keyPrefix.length <;> rfl

/-- The names in the state of a listing. -/
def Found.names (found : Found) : Listing.Found where
  count := found.count
  truncated := found.truncated
  skipAfterDelim := found.skipAfterDelim
  nextMarker := found.nextMarker.name
  result := found.result.map (·.key.name)
  commonPrefixes := found.commonPrefixes

variable (params : Listing.Params) (max : Nat) (bigger : Bytes)

theorem curEndMarker_plain :
    curEndMarker (plain params) = ⟨Listing.indexKeyName params.endMarker, []⟩ :=
  indexKey_keyObj params.endMarker

theorem curPrefix_plain : curPrefix (plain params) = Listing.indexKeyName params.keyPrefix :=
  congrArg ObjKey.name (indexKey_keyObj params.keyPrefix)

theorem indexKeyName_eq_nil {name : Bytes} : Listing.indexKeyName name = [] ↔ name = [] := by
  unfold Listing.indexKeyName
  split_ifs with hname
  · simp only [append_eq_nil_iff, and_iff_right_iff_imp]
    rintro rfl
    cases hname
  · rfl

/-- Forgetting all but the names, one entry. -/
theorem names_addEntry (entry : ObjEnt) (name ns : Bytes) (found : Found) :
    Prod.map Found.names id (addEntry (plain params) max bigger entry ⟨name, []⟩ ns found) =
      Listing.addName params max bigger name found.names := by
  have hdelim : Listing.delimPos (plain params).delim name (plain params).keyPrefix.length =
      Listing.delimPos params.delim name params.keyPrefix.length := rfl
  rw [addEntry, Listing.addName, hdelim]
  by_cases hfull : max ≤ found.count
  · have hfull' : max ≤ found.names.count := hfull
    cases Listing.delimPos params.delim name params.keyPrefix.length with
    | none =>
      dsimp only
      rw [if_pos hfull, if_pos hfull']
      rfl
    | some pos =>
      dsimp only
      by_cases hknown : name.take (pos + 1) ∈ SortedMap.keys found.commonPrefixes
      · rw [if_pos hknown, if_pos (show _ ∈ SortedMap.keys found.names.commonPrefixes from hknown)]
        rfl
      · rw [if_neg hknown, if_neg (show _ ∉ SortedMap.keys found.names.commonPrefixes from hknown),
          if_pos hfull, if_pos hfull']
        rfl
  · have hfull' : ¬ max ≤ found.names.count := hfull
    cases Listing.delimPos params.delim name params.keyPrefix.length with
    | none =>
      dsimp only
      rw [if_neg hfull, if_neg hfull']
      simp [Found.names]
    | some pos =>
      dsimp only
      by_cases hknown : name.take (pos + 1) ∈ SortedMap.keys found.commonPrefixes
      · rw [if_pos hknown, if_pos (show _ ∈ SortedMap.keys found.names.commonPrefixes from hknown)]
        rfl
      · rw [if_neg hknown, if_neg (show _ ∉ SortedMap.keys found.names.commonPrefixes from hknown),
          if_neg hfull, if_neg hfull']
        rfl

theorem names_visitEntry {entry : ObjEnt} (hinst : entry.key.inst = [])
    (hvisible : entry.isVisible = true)
    (found : Found) : Prod.map Found.names id (visitEntry (plain params) max bigger entry found) =
      Listing.visitEntry params max bigger entry.key.name found.names := by
  rw [visitEntry, Listing.visitEntry, curEndMarker_plain]
  cases RgwObj.parseRawOid entry.key.name with
  | none => rfl
  | some parsed =>
    have hend : ((⟨Listing.indexKeyName params.endMarker, []⟩ : ObjKey).name ≠ [] ∧
        (⟨Listing.indexKeyName params.endMarker, []⟩ : ObjKey).le ⟨parsed.name, []⟩ = true) ↔
          params.endMarker ≠ [] ∧ ¬ parsed.name < Listing.indexKeyName params.endMarker := by
      simp [ObjKey.le, ObjKey.lt, indexKeyName_eq_nil]
    dsimp only
    rw [hinst, if_neg (by simp [hvisible])]
    by_cases hns : parsed.ns ≠ []
    · rw [if_pos (by simp [plain, hns]), if_neg (by simp [plain]), if_pos hns]
      rfl
    rw [if_neg (by simp [plain, not_not.mp hns]), if_neg hns]
    by_cases hstop : params.endMarker ≠ [] ∧ ¬ parsed.name < Listing.indexKeyName params.endMarker
    · rw [if_pos (hend.mpr hstop), if_pos hstop]
      rfl
    rw [if_neg (mt hend.mp hstop), if_neg hstop]
    obtain ⟨marked, hmarked⟩ : ∃ marked : Found, marked = if found.count < max then
        { found with marker := ⟨parsed.name, []⟩, nextMarker := ⟨parsed.name, []⟩ } else found :=
          ⟨_, rfl⟩
    have hnames : (if found.names.count < max then { found.names with nextMarker := parsed.name }
        else found.names) = marked.names := by
      rw [hmarked]
      by_cases hroom : found.count < max
      · rw [if_pos hroom, if_pos (show found.names.count < max from hroom)]
        rfl
      · rw [if_neg hroom, if_neg (show ¬ found.names.count < max from hroom)]
    rw [← hmarked, hnames]
    by_cases hprefix : params.keyPrefix <+: parsed.name
    · rw [if_pos (show (plain params).keyPrefix <+: parsed.name from hprefix), if_pos hprefix]
      exact names_addEntry params max bigger entry parsed.name parsed.ns marked
    · rw [if_neg (show ¬ (plain params).keyPrefix <+: parsed.name from hprefix), if_neg hprefix]
      rfl

theorem names_visit {entries : List ObjEnt}
    (h : ∀ e ∈ entries, e.key.inst = [] ∧ e.isVisible = true)
    (found : Found) : Prod.map Found.names id (visit (plain params) max bigger entries found) =
      Listing.visit params max bigger (entries.map (·.key.name)) found.names := by
  induction entries generalizing found with
  | nil => rfl
  | cons entry entries ih =>
    obtain ⟨⟨hinst, hvisible⟩, hrest⟩ := forall_mem_cons.mp h
    have hentry := names_visitEntry params max bigger hinst hvisible found
    rw [visit, map_cons, Listing.visit, ← hentry]
    rcases visitEntry (plain params) max bigger entry found with ⟨found', _ | _⟩
    · exact ih hrest found'
    · rfl

variable (host : DirScan.StatHost) (t : FileTree) (sh : ShellHost) (G : Global) (bucket : Bytes)

/-- The page of the scan, with whole entries and with names. -/
theorem names_dirIndex (start : ObjKey) (filterPrefix : Bytes) (n : Nat) (versions : Bool) :
    (dirIndex host t sh G bucket start filterPrefix n versions = none ∧
      Listing.clsBucketList sh t G bucket start.name filterPrefix n = none) ∨
    ∃ page m, dirIndex host t sh G bucket start filterPrefix n versions = some page ∧
      Listing.clsBucketList sh t G bucket start.name filterPrefix n =
        some (m, page.isTruncated, page.lastEntry) ∧
      (page.entMap.map Prod.snd).map (·.key.name) = m.map Prod.snd ∧
      ∀ e ∈ page.entMap.map Prod.snd, e.key.inst = [] ∧ e.isVisible = true := by
  have hforget :=
    DirScan.forget_issueBucketListOp host (t := t) sh G bucket start.name filterPrefix n
  cases hscan : DirScan.issueBucketListOp host t sh G bucket [] filterPrefix 0 with
  | none =>
    have hscan' : DirScan.issueBucketListOp host t sh G bucket start.name filterPrefix n = none :=
      hscan
    rw [hscan'] at hforget
    refine .inl ⟨dirIndex_eq_none hscan start n versions, ?_⟩
    rw [Listing.clsBucketList, ← hforget]
    rfl
  | some dir =>
    have hscan' : DirScan.issueBucketListOp host t sh G bucket start.name filterPrefix n =
        some dir := hscan
    rw [hscan', map_some] at hforget
    refine .inr ⟨_, (DirScan.forget dir).take n, dirIndex_eq hscan start n versions, ?_, ?_, ?_⟩
    · rw [Listing.clsBucketList, ← hforget]
      simp [DirScan.forget, ents, SortedMap.keys, ← map_take]
      rfl
    · simp [DirScan.forget, ents, ← map_take, objEnt]
    · intro e he
      simp only [ents, ← map_take, List.map_map, List.mem_map] at he
      obtain ⟨d, -, rfl⟩ := he
      exact ⟨rfl, by simp [ObjEnt.isVisible, objEnt]⟩

/-- Forgetting all but the names, the whole loop. -/
theorem names_listLoop (fuel : Nat) (curMarker : ObjKey) (found : Found) :
    (listLoop (plain params) max bigger (dirIndex host t sh G bucket) fuel curMarker found).map
      Found.names =
      Listing.listLoop sh t G bucket params max bigger fuel curMarker.name found.names := by
  induction fuel generalizing curMarker found with
  | zero => rfl
  | succ fuel ih =>
    rw [listLoop, Listing.listLoop, curPrefix_plain]
    by_cases hgo : found.truncated ∧ found.count ≤ max
    · have hgo' : found.names.truncated ∧ found.names.count ≤ max := hgo
      rw [if_pos hgo, if_pos hgo']
      dsimp only
      obtain ⟨cur, hcur⟩ : ∃ cur : ObjKey, cur = if curMarker.name < found.skipAfterDelim then
          ⟨found.skipAfterDelim, []⟩ else curMarker := ⟨_, rfl⟩
      have hname : (if curMarker.name < found.names.skipAfterDelim then found.names.skipAfterDelim
          else curMarker.name) = cur.name := by
        rw [hcur]
        split_ifs <;> first | rfl | contradiction
      rw [← hcur, hname]
      rcases names_dirIndex host t sh G bucket cur (Listing.indexKeyName params.keyPrefix)
        (max + 1 - found.count) (plain params).listVersions with ⟨hnone, hnone'⟩ | ⟨page, m, hpage,
          hpage', hkeys, hplain⟩
      · have hnone'' : Listing.clsBucketList sh t G bucket cur.name
          (Listing.indexKeyName params.keyPrefix)
            (max + 1 - found.names.count) = none := hnone'
        rw [hnone, hnone'']
        rfl
      · have hpage'' : Listing.clsBucketList sh t G bucket cur.name
          (Listing.indexKeyName params.keyPrefix)
            (max + 1 - found.names.count) = some (m, page.isTruncated, page.lastEntry) := hpage'
        rw [hpage, hpage'']
        dsimp only
        rw [← hkeys, ← names_visit params max bigger hplain]
        rcases visit (plain params) max bigger (page.entMap.map Prod.snd) found with ⟨found', _ | _⟩
        · have hlast : ((page.lastEntry.map fun name => (⟨name, []⟩ : ObjKey)).getD cur).name =
              page.lastEntry.getD cur.name := by
            cases page.lastEntry <;> rfl
          exact (ih _ _).trans (by rw [hlast]; rfl)
        · rfl
    · have hgo' : ¬ (found.names.truncated ∧ found.names.count ≤ max) := hgo
      rw [if_neg hgo, if_neg hgo']
      rfl

/-- With the default parameters the general listing finds the names that the plain one finds, and
ends when that one ends. -/
theorem names_listObjects (fuel : Nat) :
    (listObjects (dirIndex host t sh G bucket) bucket (plain params) max fuel).map
      (Except.map Found.names) =
      Listing.listObjects sh t G bucket params max fuel := by
  rw [listObjects, Listing.listObjects]
  split_ifs
  · rfl
  · have hdelim : Listing.biggerThanDelim (plain params).delim =
        Listing.biggerThanDelim params.delim := rfl
    rw [hdelim]
    cases Listing.biggerThanDelim params.delim with
    | none => rfl
    | some bigger =>
      dsimp only
      rw [startMarker_plain, Option.map_map]
      have hloop := names_listLoop params max bigger host t sh G bucket fuel
        ⟨Listing.startMarker params bigger, []⟩
        { marker := (plain params).marker }
      rw [show Listing.listLoop sh t G bucket params max bigger fuel
        (Listing.startMarker params bigger) {} = _ from
        hloop.symm, Option.map_map]
      rfl

end RadosGateway.ListObjects
