import RadosGateway.ListObjects
import RadosGateway.Proof.BucketIndex
import RadosGateway.Proof.DirScan

/-!
# When a listing ends

The directory answers with its first entries, whatever the marker, so a page that is not the last
one comes again and again. What counts in it are the keys, and each common prefix once. The loop is
left when the count has reached its limit and something more is found. -/

namespace RadosGateway.ListObjects

open Text Posix SortedMap Option
open List hiding keys not_le not_lt

inductive Kind
  | skip
  | stop
  | key
  | rolled (c : Bytes)
  deriving DecidableEq

variable {s : Nat × List Bytes} {found : Found} {ks : List Kind} {cur : ObjKey} {k : Kind}

def Kind.rolledTo : Kind → Option Bytes
  | .rolled c => some c
  | _ => none

variable {entry : ObjEnt} {filterPrefix : Bytes}

def kind (params : Params) (entry : ObjEnt) : Kind :=
  match RgwObj.parseRawOid entry.key.name with
  | none => .skip
  | some parsed =>
    let obj : ObjKey := ⟨parsed.name, entry.key.inst⟩
    if !params.listVersions && !entry.isVisible then .skip
    else if params.enforceNs && parsed.ns ≠ params.ns then if params.ns ≠ [] then .stop else .skip
    else if (curEndMarker params).name ≠ [] ∧ (curEndMarker params).le obj then .stop
    else if params.keyPrefix <+: obj.name then
      match Listing.delimPos params.delim obj.name params.keyPrefix.length with
      | some pos => .rolled (obj.name.take (pos + 1))
      | none => .key
    else .skip

section Count

variable (max : Nat)

def step (s : Nat × List Bytes) : Kind → Option (Nat × List Bytes)
  | .skip => some s
  | .stop => none
  | .key => if max ≤ s.1 then none else some (s.1 + 1, s.2)
  | .rolled c => if c ∈ s.2 then some s else if max ≤ s.1 then none else some (s.1 + 1, c :: s.2)

def counted : List Kind → List Bytes → Nat
  | [], _ => 0
  | .skip :: ks, seen => counted ks seen
  | .stop :: ks, seen => counted ks seen
  | .key :: ks, seen => counted ks seen + 1
  | .rolled c :: ks, seen => if c ∈ seen then counted ks seen else counted ks (c :: seen) + 1

theorem counted_le_length (ks : List Kind) (seen : List Bytes) : counted ks seen ≤ ks.length := by
  induction ks generalizing seen with
  | nil => exact le_rfl
  | cons k ks ih =>
    cases k with
    | skip => exact (ih seen).trans (Nat.le_succ _)
    | stop => exact (ih seen).trans (Nat.le_succ _)
    | key => exact Nat.succ_le_succ (ih seen)
    | rolled c =>
      rw [counted]
      split_ifs
      · exact (ih seen).trans (Nat.le_succ _)
      · exact Nat.succ_le_succ (ih _)

/-- Every entry counts exactly if none is skipped and no common prefix comes twice. -/
theorem counted_eq_length_iff (ks : List Kind) (seen : List Bytes) : counted ks seen = ks.length ↔
      (∀ k ∈ ks, k ≠ .skip ∧ k ≠ .stop) ∧ (ks.filterMap Kind.rolledTo).Nodup ∧
        ∀ c ∈ ks.filterMap Kind.rolledTo, c ∉ seen := by
  induction ks generalizing seen with
  | nil => simp [counted]
  | cons k ks ih =>
    have hle := counted_le_length ks
    cases k with
    | skip =>
      have := hle seen
      simp only [counted, length_cons, forall_mem_cons]
      constructor
      · omega
      · rintro ⟨⟨⟨h, -⟩, -⟩, -⟩
        exact absurd rfl h
    | stop =>
      have := hle seen
      simp only [counted, length_cons, forall_mem_cons]
      constructor
      · omega
      · rintro ⟨⟨⟨-, h⟩, -⟩, -⟩
        exact absurd rfl h
    | key =>
      have hrolled : (Kind.key :: ks).filterMap Kind.rolledTo = ks.filterMap Kind.rolledTo := rfl
      rw [counted, length_cons, Nat.add_right_cancel_iff, ih, hrolled, forall_mem_cons]
      exact and_congr_left fun _ => (and_iff_right (by simp)).symm
    | rolled c =>
      have hrolled : (Kind.rolled c :: ks).filterMap Kind.rolledTo =
          c :: ks.filterMap Kind.rolledTo := rfl
      rw [counted, length_cons, hrolled, forall_mem_cons, forall_mem_cons, nodup_cons]
      split_ifs with hc
      · have := hle seen
        constructor
        · omega
        · rintro ⟨-, -, hseen, -⟩
          exact absurd hc hseen
      · rw [Nat.add_right_cancel_iff, ih]
        constructor
        · rintro ⟨hks, hnodup, hseen⟩
          refine ⟨⟨by simp, hks⟩, ⟨fun hmem => ?_, hnodup⟩, hc, fun c' hc' hmem => ?_⟩
          · exact hseen c hmem mem_cons_self
          · exact hseen c' hc' (mem_cons_of_mem _ hmem)
        · rintro ⟨⟨-, hks⟩, ⟨hnew, hnodup⟩, -, hseen⟩
          refine ⟨hks, hnodup, fun c' hc' hmem => ?_⟩
          rcases mem_cons.mp hmem with rfl | hmem
          · exact hnew hc'
          · exact hseen c' hc' hmem

variable {max}

/-- A turn that goes on has counted its entry. -/
theorem step_eq_some {s s' : Nat × List Bytes} (hs : s.1 ≤ max) (h : step max s k = some s') :
    s'.1 ≤ max ∧ k ≠ .stop ∧ (∀ ks, s'.1 + counted ks s'.2 = s.1 + counted (k :: ks) s.2) ∧
      s.2 ⊆ s'.2 ∧ ∀ c, k = .rolled c → c ∈ s'.2 := by
  cases k with
  | skip =>
    cases h
    simp [hs, counted]
  | stop => cases h
  | key =>
    rw [step] at h
    split_ifs at h with hmax
    cases h
    refine ⟨not_le.mp hmax, by simp, fun ks => ?_, List.Subset.refl _, by simp⟩
    rw [counted]
    dsimp only
    omega
  | rolled c =>
    rw [step] at h
    split_ifs at h with hseen hmax
    · cases h
      exact ⟨hs, by simp, fun ks => by rw [counted, if_pos hseen], List.Subset.refl _,
        by simpa using hseen⟩
    · cases h
      refine ⟨not_le.mp hmax, by simp, fun ks => ?_, subset_cons_self _ _, by simp⟩
      rw [counted, if_neg hseen]
      dsimp only
      omega

theorem step_eq_none (h : step max s k = none) : k = .stop ∨ ∀ ks,
    max < s.1 + counted (k :: ks) s.2 := by
  cases k with
  | skip => cases h
  | stop => exact .inl rfl
  | key =>
    rw [step] at h
    split_ifs at h with hmax
    refine .inr fun ks => ?_
    rw [counted]
    omega
  | rolled c =>
    rw [step] at h
    split_ifs at h with hseen hmax
    refine .inr fun ks => ?_
    rw [counted, if_neg hseen]
    omega

/-- The page stops exactly at a stop or when more than `max` are counted. -/
theorem foldlM_step_eq_none_iff (hs : s.1 ≤ max) :
    ks.foldlM (step max) s = none ↔ .stop ∈ ks ∨ max < s.1 + counted ks s.2 := by
  induction ks generalizing s with
  | nil => simpa [counted] using hs
  | cons k ks ih =>
    rw [foldlM_cons, mem_cons]
    cases hstep : step max s k with
    | none =>
      refine iff_of_true rfl ?_
      rcases step_eq_none hstep with rfl | hcount
      · exact .inl (.inl rfl)
      · exact .inr (hcount ks)
    | some s' =>
      obtain ⟨hs', hk, hcount, -, -⟩ := step_eq_some hs hstep
      rw [bind_eq_bind, bind_some, ih hs', hcount, or_iff_right (Ne.symm hk)]

theorem foldlM_step_eq_some {s s' : Nat × List Bytes} (hs : s.1 ≤ max)
    (h : ks.foldlM (step max) s = some s') :
    s'.1 ≤ max ∧ s'.1 = s.1 + counted ks s.2 ∧ s.2 ⊆ s'.2 ∧ ∀ c, .rolled c ∈ ks → c ∈ s'.2 := by
  induction ks generalizing s with
  | nil =>
    cases h
    simp [hs, counted]
  | cons k ks ih =>
    obtain ⟨s₁, hstep, hrest⟩ := bind_eq_some_iff.mp h
    obtain ⟨hs₁, -, hcount, hsub, hrolled⟩ := step_eq_some hs hstep
    obtain ⟨hs', hsum, hsub', hrolled'⟩ := ih hs₁ hrest
    refine ⟨hs', hsum.trans (hcount ks), fun c hc => hsub' (hsub hc), fun c hc => ?_⟩
    rcases mem_cons.mp hc with rfl | hc
    · exact hsub' (hrolled c rfl)
    · exact hrolled' c hc

theorem counted_lt_length {seen : List Bytes} (hkey : k ≠ .key)
    (hseen : ∀ c, .rolled c ∈ k :: ks → c ∈ seen) : counted (k :: ks) seen < (k :: ks).length := by
  have hle := counted_le_length ks seen
  rw [length_cons, Nat.lt_succ_iff]
  cases k with
  | skip => exact hle
  | stop => exact hle
  | key => exact absurd rfl hkey
  | rolled c =>
    rw [counted, if_pos (hseen c mem_cons_self)]
    exact hle

end Count

section Visit

variable {params : Params} {max : Nat} {bigger : Bytes}

structure Counts (found : Found) (s : Nat × List Bytes) : Prop where
  count : found.count = s.1
  mem_iff : ∀ c, c ∈ keys found.commonPrefixes ↔ c ∈ s.2

def Follows (turn : Found × Bool) : Option (Nat × List Bytes) → Prop
  | none => turn.2 = true
  | some s => turn.2 = false ∧ Counts turn.1 s

theorem addEntry_follows {obj : ObjKey} {ns : Bytes} (h : Counts found s) :
    Follows (addEntry params max bigger entry obj ns found)
      (step max s (match Listing.delimPos params.delim obj.name params.keyPrefix.length with
        | some pos => .rolled (obj.name.take (pos + 1))
        | none => .key)) := by
  rw [addEntry]
  cases Listing.delimPos params.delim obj.name params.keyPrefix.length with
  | none =>
    dsimp only [step]
    rw [h.count]
    split_ifs
    · rfl
    · exact ⟨rfl, rfl, h.mem_iff⟩
  | some pos =>
    dsimp only [step]
    rw [h.count, if_congr (h.mem_iff _) rfl rfl]
    split_ifs
    · exact ⟨rfl, h⟩
    · rfl
    · refine ⟨rfl, rfl, fun c => ?_⟩
      rw [mem_keys_insert, h.mem_iff, mem_cons]

/-- The loop counts by the kind of each entry. -/
theorem visitEntry_follows (h : Counts found s) :
    Follows (visitEntry params max bigger entry found) (step max s (kind params entry)) := by
  rw [visitEntry, kind]
  cases RgwObj.parseRawOid entry.key.name with
  | none => exact ⟨rfl, h⟩
  | some parsed =>
    dsimp only
    -- Not visible, in another namespace, at the end marker; then with and without room for a
    -- marker.
    split_ifs
    · exact ⟨rfl, h⟩
    · rfl
    · exact ⟨rfl, h⟩
    · rfl
    · exact addEntry_follows ⟨h.count, h.mem_iff⟩
    · exact addEntry_follows h
    · exact ⟨rfl, h.count, h.mem_iff⟩
    · exact ⟨rfl, h⟩

theorem visit_follows {entries : List ObjEnt} (h : Counts found s) :
    Follows (visit params max bigger entries found)
    ((entries.map (kind params)).foldlM (step max) s) := by
  induction entries generalizing found s with
  | nil => exact ⟨rfl, h⟩
  | cons entry entries ih =>
    have hentry : Follows (visitEntry params max bigger entry found)
      (step max s (kind params entry)) :=
      visitEntry_follows h
    rw [visit, map_cons, foldlM_cons]
    match hturn : visitEntry params max bigger entry found, hstep : step max s (kind params entry),
      hentry with
    | (found', true), none, _ => rfl
    | (found', false), some s', hentry => exact ih hentry.2

end Visit

section Loop

variable {params : Params} {max : Nat} {bigger : Bytes} {index : Index}
  {dir : List (Bytes × ObjEnt)}
  (hindex : ∀ start n, ∃ last, index start (curPrefix params) n params.listVersions =
    some ⟨dir.take n, decide (n < dir.length), last⟩)

include hindex

theorem listLoop_succ (cur : ObjKey) {turn : Found × Bool}
    (htruncated : found.truncated = true) (hcount : found.count ≤ max)
    (hturn : visit params max bigger ((dir.take (max + 1 - found.count)).map Prod.snd) found =
      turn) :
    (turn.2 = true → ∀ fuel, listLoop params max bigger index (fuel + 1) cur found = some turn.1) ∧
      (turn.2 = false → ∃ cur', ∀ fuel, listLoop params max bigger index (fuel + 1) cur found =
        listLoop params max bigger index fuel cur'
          { turn.1 with truncated := decide (max + 1 - found.count < dir.length) }) := by
  obtain ⟨last, hlast⟩ := hindex
    (if cur.name < found.skipAfterDelim then ⟨found.skipAfterDelim, []⟩
      else cur) (max + 1 - found.count)
  match turn, hturn with
  | (found', true), hturn =>
    refine ⟨fun _ fuel => ?_, fun h => (by cases h)⟩
    rw [listLoop, if_pos ⟨htruncated, hcount⟩]
    dsimp only
    rw [hlast]
    dsimp only
    rw [hturn]
  | (found', false), hturn =>
    refine ⟨fun h => (by cases h), fun _ => ⟨(last.map fun name => ⟨name, []⟩).getD
      (if cur.name < found.skipAfterDelim then ⟨found.skipAfterDelim, []⟩ else cur),
        fun fuel => ?_⟩⟩
    rw [listLoop, if_pos ⟨htruncated, hcount⟩]
    dsimp only
    rw [hlast]
    dsimp only
    rw [hturn]

def kinds (params : Params) (dir : List (Bytes × ObjEnt)) : List Kind :=
  dir.map fun e => kind params e.2

theorem listLoop_succ_counts (cur : ObjKey)
    (htruncated : found.truncated = true) (hcounts : Counts found s) (hs : s.1 ≤ max) :
    (((kinds params dir).take (max + 1 - s.1)).foldlM (step max) s = none →
      ∃ r, ∀ fuel, listLoop params max bigger index (fuel + 1) cur found = some r) ∧
    ∀ s', ((kinds params dir).take (max + 1 - s.1)).foldlM (step max) s = some s' →
      ∃ cur' found', Counts found' s' ∧ found'.truncated = decide (max + 1 - s.1 < dir.length) ∧
        ∀ fuel, listLoop params max bigger index (fuel + 1) cur found =
          listLoop params max bigger index fuel cur' found' := by
  have hkinds : ((dir.take (max + 1 - s.1)).map Prod.snd).map (kind params) =
      (kinds params dir).take (max + 1 - s.1) := by
    rw [kinds, ← map_take, List.map_map]
    rfl
  have hfollows : Follows (visit params max bigger ((dir.take (max + 1 - s.1)).map Prod.snd) found)
      (((dir.take (max + 1 - s.1)).map Prod.snd).map (kind params) |>.foldlM (step max) s) :=
    visit_follows hcounts
  obtain ⟨hleave, hgo⟩ := listLoop_succ hindex cur htruncated (hcounts.count ▸ hs) rfl
  rw [hcounts.count] at hleave hgo
  rw [hkinds] at hfollows
  constructor
  · intro hnone
    rw [hnone] at hfollows
    exact ⟨_, hleave hfollows⟩
  · intro s' hsome
    rw [hsome] at hfollows
    obtain ⟨cur', hcur'⟩ := hgo hfollows.1
    refine ⟨cur', _, ?_, ?_, hcur'⟩
    · exact ⟨hfollows.2.count, hfollows.2.mem_iff⟩
    · rfl

/-- A full page that does not begin with a key is read again and again. -/
theorem listLoop_eq_none (hkinds : kinds params dir = k :: ks) (hkey : k ≠ .key)
    (hmore : max + 1 < dir.length) (hstop : .stop ∉ (kinds params dir).take (max + 1)) {fuel : Nat}
    (htruncated : found.truncated = true) (hcounts : Counts found s)
    (hs : s.1 ≤ max) (hseen : ∀ c, .rolled c ∈ (kinds params dir).take (max + 1) → c ∈ s.2) :
    listLoop params max bigger index fuel cur found = none := by
  induction fuel generalizing cur found s with
  | zero => rfl
  | succ fuel ih =>
    obtain ⟨n, hn⟩ : ∃ n, max + 1 - s.1 = n + 1 := ⟨max - s.1, by omega⟩
    have hsub : (kinds params dir).take (max + 1 - s.1) <+: (kinds params dir).take (max + 1) :=
      take_prefix_take_left (by omega)
    have hseen' : ∀ c, .rolled c ∈ (kinds params dir).take (max + 1 - s.1) → c ∈ s.2 :=
      fun c hc => hseen c (hsub.subset hc)
    have hlt : s.1 + counted ((kinds params dir).take (max + 1 - s.1)) s.2 ≤ max := by
      have hlength : ((kinds params dir).take (max + 1 - s.1)).length ≤ max + 1 - s.1 :=
        length_take_le _ _
      rw [hkinds, hn, take_succ_cons] at hseen' hlength ⊢
      have := counted_lt_length hkey hseen'
      omega
    cases hpass : ((kinds params dir).take (max + 1 - s.1)).foldlM (step max) s with
    | none =>
      rcases (foldlM_step_eq_none_iff hs).mp hpass with hmem | hgt
      · exact absurd (hsub.subset hmem) hstop
      · omega
    | some s' =>
      obtain ⟨hs', -, hgrow, -⟩ := foldlM_step_eq_some hs hpass
      obtain ⟨cur', found', hcounts', htruncated', hloop⟩ :=
        (listLoop_succ_counts hindex cur htruncated hcounts hs).2 s' hpass
      rw [hloop]
      refine ih ?_ hcounts' hs' fun c hc => hgrow (hseen c hc)
      rw [htruncated', decide_eq_true_iff]
      omega

omit hindex in
theorem listLoop_of_not_truncated (h : found.truncated = false) :
    listLoop params max bigger index 1 cur found = some found := by
  rw [listLoop, if_neg fun hgo => by rw [h] at hgo; exact Bool.false_ne_true hgo.1]

/-- From a page that begins with a key the loop comes to its end. -/
theorem listLoop_ends (hkinds : kinds params dir = .key :: ks) (hcounts : Counts found s)
    (hs : s.1 ≤ max) :
    ∃ fuel r, listLoop params max bigger index fuel cur found = some r := by
  induction hgap : max - s.1 using Nat.strong_induction_on generalizing cur found s with
  | _ gap ih =>
    cases htruncated : found.truncated with
    | false => exact ⟨1, found, listLoop_of_not_truncated htruncated⟩
    | true =>
      cases hpass : ((kinds params dir).take (max + 1 - s.1)).foldlM (step max) s with
      | none =>
        obtain ⟨r, hr⟩ := (listLoop_succ_counts hindex cur htruncated hcounts hs).1 hpass
        exact ⟨0 + 1, r, hr 0⟩
      | some s' =>
        obtain ⟨hs', hcount, -, -⟩ := foldlM_step_eq_some hs hpass
        have hfirst : s.1 < s'.1 := by
          obtain ⟨n, hn⟩ : ∃ n, max + 1 - s.1 = n + 1 := ⟨max - s.1, by omega⟩
          rw [hkinds, hn, take_succ_cons, counted] at hcount
          omega
        obtain ⟨cur', found', hcounts', -, hloop⟩ :=
          (listLoop_succ_counts hindex cur htruncated hcounts hs).2 s' hpass
        obtain ⟨fuel, r, hr⟩ := ih (max - s'.1) (by omega) hcounts' hs' rfl
        exact ⟨fuel + 1, r, (hloop fuel).trans hr⟩

/-- The loop ends exactly if the directory fits in one page, the page stops it, or begins with a
key. -/
theorem listLoop_ends_iff (hcounts : Counts found (0, [])) (htruncated : found.truncated = true) :
    (∃ fuel r, listLoop params max bigger index fuel cur found = some r) ↔
      dir.length ≤ max + 1 ∨ .stop ∈ (kinds params dir).take (max + 1) ∨
      (kinds params dir).head? = some .key ∨
        ((∀ k ∈ (kinds params dir).take (max + 1), k ≠ .skip ∧ k ≠ .stop) ∧
          (((kinds params dir).take (max + 1)).filterMap Kind.rolledTo).Nodup) := by
  by_cases hmore : max + 1 < dir.length
  swap
  · refine iff_of_true ?_ (.inl (not_lt.mp hmore))
    cases hpass : ((kinds params dir).take (max + 1 - 0)).foldlM (step max) (0, []) with
    | none =>
      obtain ⟨r, hr⟩ := (listLoop_succ_counts hindex cur htruncated hcounts (Nat.zero_le _)).1 hpass
      exact ⟨0 + 1, r, hr 0⟩
    | some s' =>
      obtain ⟨cur', found', -, htruncated', hloop⟩ :=
        (listLoop_succ_counts hindex cur htruncated hcounts (Nat.zero_le _)).2 s' hpass
      refine ⟨1 + 1, found', (hloop 1).trans (listLoop_of_not_truncated ?_)⟩
      rw [htruncated', decide_eq_false_iff_not]
      exact hmore
  have hlength : ((kinds params dir).take (max + 1)).length = max + 1 := by
    rw [length_take, kinds, length_map]
    omega
  have hall : ((∀ k ∈ (kinds params dir).take (max + 1), k ≠ .skip ∧ k ≠ .stop) ∧
      (((kinds params dir).take (max + 1)).filterMap Kind.rolledTo).Nodup) ↔
        max < counted ((kinds params dir).take (max + 1)) [] := by
    have hle := counted_le_length ((kinds params dir).take (max + 1)) []
    have heq := counted_eq_length_iff ((kinds params dir).take (max + 1)) []
    simp only [not_mem_nil, not_false_eq_true, implies_true, and_true] at heq
    rw [← heq]
    omega
  rw [hall, or_iff_right (not_le.mpr hmore)]
  obtain ⟨k, ks, hkinds⟩ : ∃ k ks, kinds params dir = k :: ks := by
    refine exists_cons_of_ne_nil fun hnil => ?_
    rw [hnil] at hlength
    cases hlength
  cases hpass : ((kinds params dir).take (max + 1 - 0)).foldlM (step max) (0, []) with
  | none =>
    obtain ⟨r, hr⟩ := (listLoop_succ_counts hindex cur htruncated hcounts (Nat.zero_le _)).1 hpass
    refine iff_of_true ⟨0 + 1, r, hr 0⟩ ?_
    rcases (foldlM_step_eq_none_iff (Nat.zero_le _)).mp hpass with hstop | hgt
    · exact .inl hstop
    · exact .inr (.inr (by simpa using hgt))
  | some s' =>
    obtain ⟨hs', -, -, hseen⟩ := foldlM_step_eq_some (Nat.zero_le _) hpass
    obtain ⟨cur', found', hcounts', htruncated', hloop⟩ :=
      (listLoop_succ_counts hindex cur htruncated hcounts (Nat.zero_le _)).2 s' hpass
    have hnot := (not_congr (foldlM_step_eq_none_iff (Nat.zero_le max))).mp
      (hpass ▸ some_ne_none s')
    have hstop : .stop ∉ (kinds params dir).take (max + 1) := (not_or.mp hnot).1
    have hle : ¬ max < counted ((kinds params dir).take (max + 1)) [] := by
      simpa using (not_or.mp hnot).2
    rw [or_iff_right hstop, or_iff_left hle, hkinds, head?_cons, some_inj]
    constructor
    · rintro ⟨fuel, r, hr⟩
      by_contra hkey
      match fuel, hr with
      | fuel + 1, hr =>
        have hnone : listLoop params max bigger index fuel cur' found' = none := by
          refine listLoop_eq_none hindex hkinds hkey hmore hstop ?_ hcounts' hs' hseen
          rw [htruncated', decide_eq_true_iff]
          exact hmore
        rw [hloop fuel, hnone] at hr
        cases hr
    · rintro rfl
      exact listLoop_ends hindex hkinds hcounts (Nat.zero_le _)

end Loop

section Directory

variable {host : DirScan.StatHost} {t : FileTree} {sh : ShellHost} {G : Global} {bucket : Bytes}

def ents (dir : List (Bytes × DirScan.DirEnt)) : List (Bytes × ObjEnt) :=
  dir.map fun e => (e.1, objEnt e.2)

theorem sorted_of_scan {start filterPrefix : Bytes} {n : Nat} {dir : List (Bytes × DirScan.DirEnt)}
    (h : DirScan.issueBucketListOp host t sh G bucket start filterPrefix n = some dir) :
    Sorted dir := by
  have hforget : Listing.issueBucketListOp sh t G bucket start filterPrefix n =
      some (DirScan.forget dir) := by
    rw [← DirScan.forget_issueBucketListOp host, h]
    rfl
  have := BucketIndex.sorted_of_issue hforget
  rwa [Sorted, DirScan.keys_forget] at this

theorem dirIndex_eq {dir : List (Bytes × DirScan.DirEnt)}
    (h : DirScan.issueBucketListOp host t sh G bucket [] filterPrefix 0 = some dir) (start : ObjKey)
    (n : Nat)
    (versions : Bool) : dirIndex host t sh G bucket start filterPrefix n versions =
      some ⟨(ents dir).take n, decide (n < (ents dir).length), (keys (dir.take n)).getLast?⟩ := by
  have hscan : DirScan.issueBucketListOp host t sh G bucket start.name filterPrefix n = some dir :=
    h
  rw [dirIndex, hscan, bind_eq_bind, bind_some,
    BucketIndex.clsBucketList_singleton objEnt (sorted_of_scan h), ents, map_take, length_map]
  rfl

theorem dirIndex_eq_none
    (h : DirScan.issueBucketListOp host t sh G bucket [] filterPrefix 0 = none) (start : ObjKey)
    (n : Nat)
    (versions : Bool) : dirIndex host t sh G bucket start filterPrefix n versions = none := by
  have hscan : DirScan.issueBucketListOp host t sh G bucket start.name filterPrefix n = none := h
  rw [dirIndex, hscan]
  rfl

end Directory

/-- A listing over a directory ends exactly if it is refused, or the scan is defined and its entries
fit on one page, or the first page has an entry to stop at, starts with a key, or is counted whole.
-/
theorem listObjects_ends_iff (host : DirScan.StatHost) (t : FileTree) (sh : ShellHost) (G : Global)
    (bucket : Bytes) (params : Params) (max : Nat) :
    (∃ fuel r, listObjects (dirIndex host t sh G bucket) bucket params max fuel = some r) ↔
      bucket.head? = some 46 ∨ Listing.biggerThanDelim params.delim = none ∨
        ∃ dir, DirScan.issueBucketListOp host t sh G bucket [] (curPrefix params) 0 = some dir ∧
          (dir.length ≤ max + 1 ∨ .stop ∈ (kinds params (ents dir)).take (max + 1) ∨
            (kinds params (ents dir)).head? = some .key ∨
            ((∀ k ∈ (kinds params (ents dir)).take (max + 1), k ≠ .skip ∧ k ≠ .stop) ∧
              (((kinds params (ents dir)).take (max + 1)).filterMap Kind.rolledTo).Nodup)) := by
  by_cases hbucket : bucket.head? = some 46
  · refine iff_of_true ⟨0, .error (-Err.einval), ?_⟩ (.inl hbucket)
    rw [listObjects, if_pos hbucket]
  rw [or_iff_right hbucket]
  cases hbigger : Listing.biggerThanDelim params.delim with
  | none =>
    refine iff_of_true ⟨0, .error (-Err.einval), ?_⟩ (.inl rfl)
    rw [listObjects, if_neg hbucket, hbigger]
  | some bigger =>
    have hloop : (∃ fuel r, listObjects (dirIndex host t sh G bucket) bucket params max fuel =
      some r) ↔
        ∃ fuel r, listLoop params max bigger (dirIndex host t sh G bucket) fuel
          (startMarker params bigger)
          { marker := params.marker } = some r := by
      refine exists_congr fun fuel => ?_
      rw [listObjects, if_neg hbucket, hbigger]
      simp [map_eq_some_iff]
    rw [hloop, or_iff_right (by simp)]
    cases hscan : DirScan.issueBucketListOp host t sh G bucket [] (curPrefix params) 0 with
    | none =>
      refine iff_of_false ?_ (by simp)
      rintro ⟨fuel, r, hr⟩
      match fuel, hr with
      | fuel + 1, hr =>
        rw [listLoop, if_pos ⟨rfl, Nat.zero_le _⟩] at hr
        dsimp only at hr
        rw [dirIndex_eq_none hscan] at hr
        cases hr
    | some dir =>
      have hindex : ∀ start n, ∃ last, dirIndex host t sh G bucket start (curPrefix params) n
          params.listVersions = some ⟨(ents dir).take n, decide (n < (ents dir).length), last⟩ :=
        fun start n => ⟨_, dirIndex_eq hscan start n params.listVersions⟩
      rw [listLoop_ends_iff hindex ⟨rfl, by simp [keys]⟩ rfl]
      simp only [some.injEq, exists_eq_left', ents, length_map]

def twoUnderscores : FileTree :=
  (Sample.tree.writeFile (ascii "_a" :: Sample.base) []).writeFile (ascii "_b" :: Sample.base) []

/-- A listing of them with a limit of zero looks at the first one for ever. -/
theorem twoUnderscores_never_listed :
    ¬ ∃ fuel, (listObjects
      (dirIndex DirScan.noTimes twoUnderscores Listing.byteOrderShell Sample.G Sample.bucket)
      Sample.bucket {} 0 fuel).isSome := by
  rintro ⟨fuel, hsome⟩
  have hscan : DirScan.issueBucketListOp DirScan.noTimes twoUnderscores Listing.byteOrderShell
      Sample.G Sample.bucket [] (curPrefix {}) 0 =
        some [(ascii "_a", ⟨ascii "_a", 0, 0⟩), (ascii "_b", ⟨ascii "_b", 0, 0⟩)] := by decide
  have hindex : ∀ start n, ∃ last,
    dirIndex DirScan.noTimes twoUnderscores Listing.byteOrderShell Sample.G
      Sample.bucket start (curPrefix {}) n false =
        some ⟨(ents _).take n, decide (n < (ents _).length), last⟩ :=
    fun start n => ⟨_, dirIndex_eq hscan start n false⟩
  change ((listLoop {} 0 [] _ fuel (startMarker {} []) {}).map Except.ok).isSome at hsome
  have hkinds : kinds {} (ents [(ascii "_a", ⟨ascii "_a", 0, 0⟩),
    (ascii "_b", ⟨ascii "_b", 0, 0⟩)]) =
      [.skip, .skip] := by decide
  rw [listLoop_eq_none (s := (0, [])) hindex hkinds (by decide) (by decide)
    (by rw [hkinds]; decide) rfl
    ⟨rfl, by simp [keys]⟩ (Nat.zero_le 0) (by rw [hkinds]; simp)] at hsome
  cases hsome

end RadosGateway.ListObjects
