import RadosGateway.KeyListing
import RadosGateway.Proof.ListObjects

/-!
# Listing a set of keys in pages

Over an ideal index `list_objects` is a listing in pages: a pass over a page is a walk over the
items of its keys, and the marker for the next page jumps as far as `resume` says. -/

namespace RadosGateway.KeyListing

open Text ListObjects List Option

variable {k : Bytes} {fuel : Nat}

theorem indexKeyName_of_eq (h : k.head? = some 95) : Listing.indexKeyName k = 95 :: k := by
  rw [Listing.indexKeyName, if_pos h]
  rfl

theorem indexKeyName_of_ne (h : k.head? ≠ some 95) : Listing.indexKeyName k = k := by
  rw [Listing.indexKeyName, if_neg h]

variable {a b s cur : Bytes} {R : List Bytes} {res : List Item × Bool}

/-- Keys of the index are ordered as names are. -/
theorem indexKeyName_lt (h : a < b) : Listing.indexKeyName a < Listing.indexKeyName b := by
  by_cases ha : a.head? = some 95
  · rw [indexKeyName_of_eq ha]
    by_cases hb : b.head? = some 95
    · rw [indexKeyName_of_eq hb, cons_lt_cons_iff]
      exact .inr ⟨rfl, h⟩
    · rw [indexKeyName_of_ne hb]
      cases a with
      | nil => cases ha
      | cons x a =>
        cases b with
        | nil => exact absurd h (not_lt_nil _)
        | cons y b =>
          obtain rfl : x = 95 := some.inj ha
          rw [cons_lt_cons_iff] at h ⊢
          refine .inl (h.resolve_right fun hxy => hb ?_)
          rw [← hxy.1, head?_cons]
  · rw [indexKeyName_of_ne ha]
    by_cases hb : b.head? = some 95
    · rw [indexKeyName_of_eq hb]
      cases b with
      | nil => cases hb
      | cons y b =>
        obtain rfl : y = 95 := some.inj hb
        cases a with
        | nil => exact nil_lt_cons _ _
        | cons x a =>
          rw [cons_lt_cons_iff] at h ⊢
          refine .inl (h.resolve_right fun hxy => ha ?_)
          rw [hxy.1, head?_cons]
    · rw [indexKeyName_of_ne hb]
      exact h

theorem indexKeyName_lt_iff : Listing.indexKeyName a < Listing.indexKeyName b ↔ a < b := by
  refine ⟨fun h => ?_, indexKeyName_lt⟩
  by_contra hab
  by_cases hba : b < a
  · exact Std.Asymm.asymm _ _ h (indexKeyName_lt hba)
  · have heq : a = b := Std.Trichotomous.trichotomous _ _ hab hba
    rw [heq] at h
    exact Std.Irrefl.irrefl _ h

theorem indexKeyName_prefix_iff {p k : Bytes} : Listing.indexKeyName p <+: Listing.indexKeyName k ↔
    p <+: k := by
  cases p with
  | nil => exact iff_of_true nil_prefix nil_prefix
  | cons x p =>
    cases k with
    | nil =>
      refine iff_of_false (fun h => ?_) (by simp)
      have hnil : Listing.indexKeyName (x :: p) = [] := prefix_nil.mp h
      rw [Listing.indexKeyName] at hnil
      split_ifs at hnil
      exact cons_ne_nil _ _ hnil
    | cons y k =>
      by_cases hx : x = 95
      · rw [indexKeyName_of_eq (by rw [head?_cons, hx])]
        by_cases hy : y = 95
        · rw [indexKeyName_of_eq (by rw [head?_cons, hy]), cons_prefix_cons, and_iff_right rfl]
        · rw [indexKeyName_of_ne (by simpa using hy), cons_prefix_cons, cons_prefix_cons]
          exact iff_of_false (fun h => hy h.1.symm) fun h => hy (h.1.symm.trans hx)
      · rw [indexKeyName_of_ne (by simpa using hx)]
        by_cases hy : y = 95
        · rw [indexKeyName_of_eq (by rw [head?_cons, hy]), cons_prefix_cons, cons_prefix_cons]
          exact iff_of_false (fun h => hx h.1) fun h => hx (h.1.trans hy)
        · rw [indexKeyName_of_ne (by simpa using hy)]

theorem parseRawOid_indexKeyName (k : Bytes) :
    RgwObj.parseRawOid (Listing.indexKeyName k) = some { name := k } := by
  rw [RgwObj.parseRawOid]
  by_cases hk : k.head? = some 95
  · rw [indexKeyName_of_eq hk, if_neg (by simp)]
    cases k with
    | nil => cases hk
    | cons c k =>
      obtain rfl : c = 95 := some.inj hk
      exact if_pos rfl
  · rw [indexKeyName_of_ne hk, if_pos hk]

theorem findStr_singleton (d : UInt8) (s : Bytes) :
    Listing.findStr [d] s = if d ∈ s then some (s.takeWhile (· ≠ d)).length else none := by
  induction s with
  | nil => rfl
  | cons c s ih =>
    have hhead : [d] <+: c :: s ↔ d = c := by
      rw [cons_prefix_cons, and_iff_left nil_prefix]
    rw [Listing.findStr, if_congr hhead rfl rfl, ih]
    by_cases hc : d = c
    · rw [if_pos hc, if_pos (hc ▸ mem_cons_self), takeWhile_cons_of_neg (by simp [hc])]
      rfl
    · rw [if_neg hc, takeWhile_cons_of_pos (by simpa using Ne.symm hc), length_cons]
      by_cases hs : d ∈ s
      · rw [if_pos hs, if_pos (mem_cons_of_mem c hs)]
        rfl
      · rw [if_neg hs, if_neg fun hmem => hs ((mem_cons.mp hmem).resolve_left hc)]
        rfl

theorem delimPos_singleton (d : UInt8) (s : Bytes) (start : Nat) : Listing.delimPos [d] s start =
      if d ∈ s.drop start then some (((s.drop start).takeWhile (· ≠ d)).length + start)
        else none := by
  rw [Listing.delimPos, if_neg (cons_ne_nil _ _), findStr_singleton]
  split_ifs <;> rfl

theorem takeWhile_append_drop {d : UInt8} (h : d ∈ s) :
    ∃ rest, s = s.takeWhile (· ≠ d) ++ d :: rest := by
  induction s with
  | nil => cases h
  | cons c s ih =>
    by_cases hc : c = d
    · exact ⟨s, by rw [takeWhile_cons_of_neg (by simpa using hc), hc, nil_append]⟩
    · obtain ⟨rest, hrest⟩ := ih ((mem_cons.mp h).resolve_left (Ne.symm hc))
      refine ⟨rest, ?_⟩
      rw [takeWhile_cons_of_pos (by simpa using hc), cons_append, ← hrest]

theorem notMem_takeWhile (d : UInt8) (s : Bytes) : d ∉ s.takeWhile (· ≠ d) := by
  intro h
  simpa using mem_takeWhile_imp h

theorem bigger_eq {d : UInt8} (h : d < 0x80) :
    Listing.biggerThanDelim [d] = some (bigger d) ∧ ∃ b s, bigger d = b :: s ∧ d < b ∧
    d ∉ b :: s := by
  have hall : ∀ n < 128, ∃ t ∈ Listing.biggerThanDelim [UInt8.ofNat n],
      (∃ b ∈ t.head?, UInt8.ofNat n < b) ∧ UInt8.ofNat n ∉ t := by
    decide
  have hd := hall d.toNat h
  rw [UInt8.ofNat_toNat] at hd
  obtain ⟨t, ht, ⟨b, hb, hlt⟩, hnot⟩ := hd
  obtain ⟨s, rfl⟩ := head?_eq_some_iff.mp hb
  rw [bigger, mem_def.mp ht]
  exact ⟨rfl, b, s, rfl, hlt, hnot⟩

theorem biggerThanDelim_eq_none {d : UInt8} (h : ¬ d < 0x80) :
    Listing.biggerThanDelim [d] = none := by
  rw [Listing.biggerThanDelim, if_neg (cons_ne_nil _ _), decodeUtf8, if_pos (UInt8.not_lt.mp h)]
  rfl

section

variable {pre : Bytes} {d : UInt8}

theorem item_eq_key (h : d ∉ k.drop pre.length) : item pre d k = .key k := by
  rw [item, if_neg h]

theorem item_eq_common (h : d ∈ k.drop pre.length) :
    item pre d k = .common (k.take pre.length ++ (k.drop pre.length).takeWhile (· ≠ d) ++ [d]) := by
  rw [item, if_pos h]

theorem eq_of_item_eq_key {k k' : Bytes} (h : item pre d k = .key k') : k = k' := by
  rw [item] at h
  split_ifs at h
  exact Item.key.inj h

theorem exists_of_item_eq_common {k c : Bytes} (h : item pre d k = .common c) :
    ∃ p w rest, p.length = pre.length ∧ d ∉ w ∧ k = p ++ w ++ d :: rest ∧ c = p ++ w ++ [d] := by
  rw [item] at h
  split_ifs at h with hd
  obtain ⟨rest, hrest⟩ := takeWhile_append_drop hd
  have hlength : pre.length ≤ k.length := by
    by_contra hshort
    rw [drop_of_length_le (by omega)] at hd
    cases hd
  refine ⟨k.take pre.length, (k.drop pre.length).takeWhile (· ≠ d), rest, ?_,
    notMem_takeWhile d _, ?_,
    (Item.common.inj h).symm⟩
  · rw [length_take, Nat.min_eq_left hlength]
  · rw [append_assoc, ← hrest, take_append_drop]

theorem prefix_of_item_eq_common {k c : Bytes} (h : item pre d k = .common c) : c <+: k := by
  obtain ⟨p, w, rest, -, -, rfl, rfl⟩ := exists_of_item_eq_common h
  exact ⟨rest, by simp⟩

theorem mem_drop_cons {x : UInt8} {n : Nat} (h : d ∈ s.drop n) : d ∈ (x :: s).drop n := by
  have hsub : (x :: s).drop (n + 1) <:+ (x :: s).drop n := drop_suffix_drop_left _ (Nat.le_succ n)
  exact hsub.subset h

theorem mem_drop_indexKeyName {k c : Bytes} (h : item pre d k = .common c) :
    d ∈ (Listing.indexKeyName c).drop pre.length := by
  obtain ⟨p, w, -, hp, -, -, rfl⟩ := exists_of_item_eq_common h
  have hd : d ∈ (p ++ w ++ [d]).drop pre.length := by
    rw [← hp, append_assoc, drop_left]
    exact mem_append_right _ mem_cons_self
  rw [Listing.indexKeyName]
  split_ifs
  · exact mem_drop_cons hd
  · exact hd

/-- A place that is in no common prefix is before all keys of an item or behind all of them. -/
theorem lt_of_item_eq {place k k' : Bytes} (hplace : d ∉ place.drop pre.length)
    (hitem : item pre d k = item pre d k')
    (h : place < Listing.indexKeyName k') : place < Listing.indexKeyName k := by
  cases hk : item pre d k with
  | key x =>
    obtain rfl := eq_of_item_eq_key hk
    rw [hk] at hitem
    rw [← eq_of_item_eq_key hitem.symm]
    exact h
  | common c =>
    by_contra hle
    rw [hk] at hitem
    have hc : Listing.indexKeyName c <+: place :=
      prefix_of_between (indexKeyName_prefix_iff.mpr (prefix_of_item_eq_common hk))
        (indexKeyName_prefix_iff.mpr (prefix_of_item_eq_common hitem.symm)) hle h
    exact hplace ((hc.drop pre.length).subset (mem_drop_indexKeyName hk))

theorem notMem_drop_append {p w : Bytes} (hp : p.length = pre.length) (hw : d ∉ w) (hd : d < 0x80) :
    d ∉ (p ++ w ++ bigger d).drop pre.length := by
  obtain ⟨-, b, s, hb, -, hnot⟩ := bigger_eq hd
  rw [← hp, append_assoc, drop_left, mem_append, hb]
  exact fun h => h.elim hw hnot

theorem notMem_drop_skipAfter {known : List Item} (hknown : ∀ i ∈ known, ∃ k, item pre d k = i)
    (hd : d < 0x80) :
    d ∉ (skipAfter d known).drop pre.length := by
  rw [skipAfter]
  cases hlast : (known.filterMap Item.common?).getLast? with
  | none =>
    rw [drop_nil]
    exact not_mem_nil
  | some c =>
    dsimp only
    obtain ⟨i, hi, hc⟩ := mem_filterMap.mp (mem_of_getLast? hlast)
    obtain ⟨k, rfl⟩ := hknown i hi
    have hk : item pre d k = .common c := by
      cases hitem : item pre d k with
      | key x => rw [hitem] at hc; cases hc
      | common x => rw [hitem] at hc; rw [some.inj hc]
    obtain ⟨p, w, -, hp, hw, -, rfl⟩ := exists_of_item_eq_common hk
    rw [dropLast_concat]
    exact notMem_drop_append hp hw hd

theorem resume_concat (known : List Item) (page : List Bytes) (k : Bytes) :
    resume d known (page ++ [k]) =
      if Listing.indexKeyName k < skipAfter d known then skipAfter d known
        else Listing.indexKeyName k := by
  rw [resume, getLast?_concat]

theorem not_resume_lt_skipAfter (known : List Item) (page : List Bytes) :
    ¬ resume d known page < skipAfter d known := by
  rw [resume]
  cases page.getLast? with
  | none => exact Std.Irrefl.irrefl _
  | some k =>
    dsimp only
    split_ifs with h
    · exact Std.Irrefl.irrefl _
    · exact h

/-- The place behind a common prefix is behind all of its keys. -/
theorem jumps (pre : Bytes) (hd : d < 0x80) : Rollup.Jumps (item pre d) (past d) (· < ·) where
  page := by
    intro known page k hpage hk
    rw [past, decide_eq_false_iff_not]
    rcases eq_nil_or_concat' page with rfl | ⟨page, l, rfl⟩
    · cases hk
    have hle : ¬ Listing.indexKeyName l < Listing.indexKeyName k := by
      rw [indexKeyName_lt_iff]
      rcases mem_append.mp hk with hk | hk
      · exact Std.Asymm.asymm _ _ ((pairwise_append.mp hpage).2.2 k hk l mem_cons_self)
      · rw [mem_singleton.mp hk]
        exact Std.Irrefl.irrefl _
    rw [resume_concat]
    split_ifs with hskip
    · exact fun h => hle (Trans.trans hskip h)
    · exact hle
  upward := by
    intro known page k k' hlt hpast
    rw [past, decide_eq_true_iff] at hpast ⊢
    exact Trans.trans hpast (indexKeyName_lt hlt)
  whole := by
    intro known page k k' hknown hbehind hitem hpast
    rw [past, decide_eq_true_iff] at hpast ⊢
    have hskip := lt_of_item_eq (notMem_drop_skipAfter hknown hd) hitem
    rcases eq_nil_or_concat' page with rfl | ⟨page, l, rfl⟩
    · exact hskip hpast
    rw [resume_concat] at hpast ⊢
    split_ifs at hpast ⊢
    · exact hskip hpast
    · exact indexKeyName_lt (hbehind l (mem_append_right _ mem_cons_self))
  again := by
    intro known page k k' hpast hlt
    rw [past, decide_eq_true_iff] at hpast ⊢
    have hskip : ¬ Listing.indexKeyName k < skipAfter d known :=
      fun h => not_resume_lt_skipAfter known page (Trans.trans hpast h)
    change resume d known ([] ++ [k]) < _
    rw [resume_concat, if_neg hskip]
    exact indexKeyName_lt hlt

structure Keeps (K : KeySet) (d : UInt8) (known : List Item) (found : Found) : Prop where
  count : found.count = known.length
  skip : found.skipAfterDelim = skipAfter d known
  result : found.result = (known.filterMap Item.key?).map K.shown
  common : ∀ c, c ∈ SortedMap.keys found.commonPrefixes ↔ .common c ∈ known

variable {K : KeySet} {m : Bytes} {n : Nat} {known : List Item} {found : Found}

theorem skipAfter_concat_key (known : List Item) (k : Bytes) :
    skipAfter d (known ++ [.key k]) = skipAfter d known := by
  have hlast : (known ++ [Item.key k]).filterMap Item.common? =
    known.filterMap Item.common? ++ [] :=
    filterMap_append ..
  rw [skipAfter, hlast, append_nil, skipAfter]

theorem skipAfter_concat_common (known : List Item) (c : Bytes) :
    skipAfter d (known ++ [.common c]) = c.dropLast ++ bigger d := by
  have hlast : (known ++ [Item.common c]).filterMap Item.common? = known.filterMap Item.common? ++
    [c] :=
    filterMap_append ..
  rw [skipAfter, hlast, getLast?_concat]

theorem Keeps.addKey (h : Keeps K d known found) (k : Bytes) : Keeps K d (known ++ [.key k])
      { found with result := found.result ++ [K.shown k], count := found.count + 1 } where
  count := by rw [length_append, ← h.count, length_singleton]
  skip := by rw [skipAfter_concat_key, ← h.skip]
  result := by
    rw [filterMap_append, map_append, ← h.result]
    rfl
  common c := by
    rw [mem_append, ← h.common]
    simp

theorem Keeps.addCommon (h : Keeps K d known found) (c : Bytes) (next : ObjKey) :
    Keeps K d (known ++ [.common c])
      { found with
        nextMarker := next,
        commonPrefixes := SortedMap.insert c true found.commonPrefixes,
        skipAfterDelim := c.dropLast ++ bigger d,
        count := found.count + 1 } where
  count := by rw [length_append, ← h.count, length_singleton]
  skip := by rw [skipAfter_concat_common]
  result := by
    rw [filterMap_append, map_append, ← h.result]
    exact (append_nil _).symm
  common c' := by
    rw [SortedMap.mem_keys_insert, h.common, mem_append, mem_singleton, Item.common.injEq, or_comm]

def Turns (K : KeySet) (d : UInt8) (turn : Found × Bool) (walked : List Item × Bool) : Prop :=
  Keeps K d walked.1 turn.1 ∧ turn.2 = walked.2 ∧ (turn.2 = true → turn.1.truncated = true)

/-- One entry is one item of the walk. -/
theorem addEntry_turns (h : Keeps K d known found) (hkey : .key k ∉ known) :
    Turns K d (addEntry (params pre d m) n (bigger d) (K.entry k) ⟨k, []⟩ [] found)
      (Rollup.walk n [item pre d k] known) := by
  have hpos : Listing.delimPos (params pre d m).delim k (params pre d m).keyPrefix.length = _ :=
    delimPos_singleton d k pre.length
  rw [addEntry, hpos, Rollup.walk, Rollup.walk, ← h.count]
  by_cases hd : d ∈ k.drop pre.length
  · obtain ⟨rest, hrest⟩ := takeWhile_append_drop hd
    generalize hw : (k.drop pre.length).takeWhile (· ≠ d) = w at hrest
    have hcut : k.take (w.length + pre.length) = k.take pre.length ++ w := by
      rw [add_comm, take_add, hrest, take_left]
    have hnext : k.take (w.length + pre.length + 1) = k.take pre.length ++ w ++ [d] := by
      rw [add_right_comm, add_comm, take_add, hrest, take_append, append_assoc]
      simp
    rw [if_pos hd, item_eq_common hd, hw]
    dsimp only
    rw [hcut, hnext, if_congr (h.common _) rfl rfl]
    split_ifs with hknown hfull
    · exact ⟨h, rfl, (absurd · Bool.false_ne_true)⟩
    · exact ⟨{ h with }, rfl, fun _ => rfl⟩
    · refine ⟨?_, rfl, (absurd · Bool.false_ne_true)⟩
      have hadd := h.addCommon (k.take pre.length ++ w ++ [d]) ⟨k.take pre.length ++ w ++ [d], []⟩
      rwa [dropLast_concat] at hadd
  · rw [if_neg hd, item_eq_key hd, if_neg hkey]
    split_ifs with hfull
    · exact ⟨{ h with }, rfl, fun _ => rfl⟩
    · exact ⟨h.addKey k, rfl, (absurd · Bool.false_ne_true)⟩

theorem visitEntry_turns (h : Keeps K d known found) (hk : k ∈ K.keys) (hpre : pre <+: k)
    (hkey : .key k ∉ known) :
    Turns K d (visitEntry (params pre d m) n (bigger d) (K.entry k) found)
    (Rollup.walk n [item pre d k] known) := by
  have hpre' : (params pre d m).keyPrefix <+: k := hpre
  have hend : ¬ ((curEndMarker (params pre d m)).name ≠ [] ∧
    (curEndMarker (params pre d m)).le ⟨k, []⟩ = true) :=
    fun hend => hend.1 rfl
  rw [visitEntry, K.key_entry k hk, parseRawOid_indexKeyName]
  dsimp only
  rw [K.isVisible_entry k hk, if_neg (by simp [params]), if_neg (by simp [params]), if_neg hend,
    if_pos hpre']
  apply addEntry_turns _ hkey
  split_ifs
  · exact { h with }
  · exact h

/-- One page is a walk over its entries. -/
theorem visit_turns {page : List Bytes} (h : Keeps K d known found)
    (hsorted : page.Pairwise (· < ·))
    (hpage : ∀ k ∈ page, k ∈ K.keys ∧ pre <+: k) (hkey : ∀ k ∈ page, .key k ∉ known) :
    Turns K d (visit (params pre d m) n (bigger d) (page.map K.entry) found)
      (Rollup.walk n (page.map (item pre d)) known) := by
  induction page generalizing known found with
  | nil => exact ⟨h, rfl, (absurd · Bool.false_ne_true)⟩
  | cons k page ih =>
    obtain ⟨hlt, hsorted⟩ := pairwise_cons.mp hsorted
    obtain ⟨⟨hk, hpre⟩, hpage⟩ := forall_mem_cons.mp hpage
    obtain ⟨hnew, hkey⟩ := forall_mem_cons.mp hkey
    have hturn : Turns K d (visitEntry (params pre d m) n (bigger d) (K.entry k) found)
        (Rollup.walk n [item pre d k] known) := visitEntry_turns h hk hpre hnew
    rw [map_cons, map_cons, visit, Rollup.walk_cons, ← hturn.2.1]
    generalize visitEntry (params pre d m) n (bigger d) (K.entry k) found = turn at hturn ⊢
    obtain ⟨found', _ | _⟩ := turn
    · refine ih hturn.1 hsorted hpage fun k' hk' hmem => ?_
      rcases Rollup.mem_of_mem_walk hmem with hmem | hmem
      · exact hkey k' hk' hmem
      · obtain rfl := eq_of_item_eq_key (mem_singleton.mp hmem).symm
        exact Std.Irrefl.irrefl _ (hlt _ hk')
    · exact hturn

theorem mem_behind {start k : Bytes} :
    k ∈ K.behind start (Listing.indexKeyName pre) ↔ k ∈ K.keys ∧ start < Listing.indexKeyName k ∧
    pre <+: k := by
  rw [KeySet.behind, mem_filter, decide_eq_true_iff, indexKeyName_prefix_iff]

theorem pairwise_behind (start p : Bytes) : (K.behind start p).Pairwise (· < ·) :=
  K.sorted.sublist filter_sublist

theorem filter_behind {start place : Bytes} {p : Bytes}
    (h : ∀ k, place < Listing.indexKeyName k → start < Listing.indexKeyName k) :
    (K.behind start p).filter (fun k => place < Listing.indexKeyName k) = K.behind place p := by
  rw [KeySet.behind, KeySet.behind, List.filter_filter]
  apply filter_congr
  intro k _
  rw [← Bool.decide_and, decide_eq_decide]
  exact ⟨fun hk => ⟨hk.1, hk.2.2⟩, fun hk => ⟨hk.1, h k hk.1, hk.2⟩⟩

def place (d : UInt8) (known : List Item) (cur : Bytes) : Bytes :=
  if cur < skipAfter d known then skipAfter d known else cur

theorem listLoop_succ_eq (h : Keeps K d known found)
    (htruncated : found.truncated = true) (hroom : known.length ≤ n)
    (hR : R = K.behind (place d known cur) (Listing.indexKeyName pre)) :
    listLoop (params pre d m) n (bigger d) K.index (fuel + 1) ⟨cur, []⟩ found =
      match visit (params pre d m) n (bigger d)
    ((R.take (n + 1 - known.length)).map K.entry) found with
      | (found, true) => some found
      | (found, false) =>
        listLoop (params pre d m) n (bigger d) K.index fuel
          (((R.take (n + 1 - known.length)).getLast?.map fun k => ⟨Listing.indexKeyName k, []⟩).getD
            ⟨place d known cur, []⟩)
          { found with truncated := decide (n + 1 - known.length < R.length) } := by
  have hprefix : curPrefix (params pre d m) = Listing.indexKeyName pre :=
    congrArg ObjKey.name (indexKey_keyObj pre)
  have hcur : (if (⟨cur, []⟩ : ObjKey).name < found.skipAfterDelim then ⟨found.skipAfterDelim, []⟩
    else ⟨cur, []⟩ :
      ObjKey) = ⟨place d known cur, []⟩ := by
    rw [h.skip, place]
    split_ifs <;> rfl
  rw [listLoop, if_pos ⟨htruncated, h.count ▸ hroom⟩]
  dsimp only
  rw [hcur, hprefix, h.count, KeySet.index]
  dsimp only
  rw [← hR, List.map_map, Option.map_map]
  rfl

/-- The loop over pages is a scan. -/
theorem listLoop_scans (hd : d < 0x80) (h : Keeps K d known found)
    (htruncated : found.truncated = true) (hroom : known.length ≤ n)
    (hR : R = K.behind (place d known cur) (Listing.indexKeyName pre))
    (hkey : ∀ k ∈ R, .key k ∉ known)
    (hscan : Rollup.scan (item pre d) (past d) n fuel R known = some res) :
    ∃ found', listLoop (params pre d m) n (bigger d) K.index (fuel + 1) ⟨cur, []⟩ found =
      some found' ∧
      Keeps K d res.1 found' ∧ found'.truncated = res.2 := by
  induction fuel generalizing cur R known found with
  | zero => cases hscan
  | succ fuel ih =>
    have hmem : ∀ k ∈ R, k ∈ K.keys ∧ place d known cur < Listing.indexKeyName k ∧ pre <+: k := by
      intro k hk
      rw [hR] at hk
      exact mem_behind.mp hk
    have hsorted : R.Pairwise (· < ·) := hR ▸ pairwise_behind _ _
    have hpageSorted : (R.take (n + 1 - known.length)).Pairwise (· < ·) :=
      hsorted.sublist (take_sublist _ _)
    have hturn : Turns K d
        (visit (params pre d m) n (bigger d) ((R.take (n + 1 - known.length)).map K.entry) found)
        (Rollup.walk n ((R.take (n + 1 - known.length)).map (item pre d)) known) := by
      refine visit_turns h hpageSorted (fun k hk => ?_) fun k hk => ?_
      · obtain ⟨hk, -, hpre⟩ := hmem k (mem_of_mem_take hk)
        exact ⟨hk, hpre⟩
      · exact hkey k (mem_of_mem_take hk)
    rw [listLoop_succ_eq h htruncated hroom hR]
    rw [Rollup.scan] at hscan
    generalize hpage : R.take (n + 1 - known.length) = page at *
    have hknown : ∀ i ∈ (Rollup.walk n (page.map (item pre d)) known).1, i ∈ known ∨
      i ∈ page.map (item pre d) :=
      fun i hi => Rollup.mem_of_mem_walk hi
    have hroom' : (Rollup.walk n (page.map (item pre d)) known).1.length ≤ n :=
      Rollup.length_walk_le hroom
    generalize visit (params pre d m) n (bigger d) (page.map K.entry) found = turn at *
    generalize Rollup.walk n (page.map (item pre d)) known = walked at *
    obtain ⟨found', full⟩ := turn
    obtain ⟨known', _⟩ := walked
    obtain ⟨hkeeps, rfl, hleft⟩ := hturn
    cases full with
    | true =>
      cases hscan
      exact ⟨found', rfl, hkeeps, hleft rfl⟩
    | false =>
      dsimp only at hscan hkeeps hknown hroom' ⊢
      have hkeeps' : ∀ b, Keeps K d known' { found' with truncated := b } :=
        fun b => ⟨hkeeps.count, hkeeps.skip, hkeeps.result, hkeeps.common⟩
      by_cases hmore : n + 1 - known.length < R.length
      swap
      · rw [if_neg hmore] at hscan
        cases hscan
        refine ⟨_, ?_, hkeeps' false, rfl⟩
        rw [decide_eq_false hmore, listLoop, if_neg fun hgo => Bool.false_ne_true hgo.1]
      rw [if_pos hmore] at hscan
      rw [decide_eq_true hmore]
      rcases eq_nil_or_concat' page with rfl | ⟨page, l, rfl⟩
      · have hlength := congrArg List.length hpage
        rw [length_take, length_nil] at hlength
        omega
      have hl : l ∈ R := mem_of_mem_take (hpage ▸ mem_append_right _ mem_cons_self)
      have hpassed : ∀ k ∈ page ++ [l], past d known' (page ++ [l]) k = false :=
        fun k hk => (jumps pre hd).page hpageSorted hk
      have hlater : place d known cur < resume d known' (page ++ [l]) := by
        have hnot := hpassed l (mem_append_right _ mem_cons_self)
        rw [past, decide_eq_false_iff_not] at hnot
        exact lt_of_lt_of_not_lt (hmem l hl).2.1 hnot
      rw [getLast?_concat]
      have hplace : place d known' (Listing.indexKeyName l) = resume d known' (page ++ [l]) :=
        (resume_concat known' page l).symm
      refine ih (hkeeps' true) rfl hroom' ?_ (fun k hk hkey' => ?_) hscan
      · rw [hR, hplace]
        exact filter_behind fun k hk => Trans.trans hlater hk
      · obtain ⟨hkR, hpast⟩ := mem_filter.mp hk
        rcases hknown _ hkey' with hold | hnew
        · exact hkey k hkR hold
        · obtain ⟨k', hk', hitem⟩ := List.mem_map.mp hnew
          obtain rfl := eq_of_item_eq_key hitem
          rw [hpassed k' hk'] at hpast
          cases hpast

/-- A marker inside of a common prefix is moved behind it. -/
theorem startMarker_cases (pre m : Bytes) (d : UInt8) :
    (Listing.startMarker ⟨pre, [d], m, []⟩ (bigger d) = Listing.indexKeyName m ∧
      d ∉ (Listing.indexKeyName m).drop pre.length) ∨
    ∃ p w rest, p.length = pre.length ∧ d ∉ w ∧ Listing.indexKeyName m = p ++ w ++ d :: rest ∧
      Listing.startMarker ⟨pre, [d], m, []⟩ (bigger d) = p ++ w ++ bigger d := by
  rw [Listing.startMarker]
  generalize Listing.indexKeyName m = x
  rw [delimPos_singleton]
  by_cases hd : d ∈ x.drop pre.length
  · obtain ⟨rest, hrest⟩ := takeWhile_append_drop hd
    have hlength : pre.length ≤ x.length := by
      by_contra hshort
      rw [drop_of_length_le (by omega)] at hd
      cases hd
    rw [if_pos hd]
    dsimp only
    refine .inr ⟨x.take pre.length, (x.drop pre.length).takeWhile (· ≠ d), rest, ?_,
      notMem_takeWhile d _, ?_, ?_⟩
    · rw [length_take, Nat.min_eq_left hlength]
    · rw [append_assoc, ← hrest, take_append_drop]
    · congr 1
      rw [add_comm, take_add]
      congr 1
      exact (prefix_iff_eq_take.mp (List.takeWhile_prefix _)).symm
  · rw [if_neg hd]
    exact .inl ⟨rfl, hd⟩

theorem notMem_drop_startMarker (hd : d < 0x80) (m : Bytes) :
    d ∉ (Listing.startMarker ⟨pre, [d], m, []⟩ (bigger d)).drop pre.length := by
  rcases startMarker_cases pre m d with ⟨hstart, hnot⟩ | ⟨p, w, rest, hp, hw, -, hstart⟩
  · rw [hstart]
    exact hnot
  · rw [hstart]
    exact notMem_drop_append hp hw hd

theorem mem_listedKeys_of_startMarker_lt (hd : d < 0x80) (hk : k ∈ K.keys) (hpre : pre <+: k)
    (hlt : Listing.startMarker ⟨pre, [d], m, []⟩ (bigger d) < Listing.indexKeyName k) :
    k ∈ listedKeys pre d K m := by
  obtain ⟨-, b, s, hb, hdb, -⟩ := bigger_eq hd
  -- If the marker has the beginning of a common prefix, the start is behind all keys that have it.
  have hcovered : ∀ c, item pre d k = .common c → ¬ c <+: m := by
    intro c hc hcm
    have hcm : Listing.indexKeyName c <+: Listing.indexKeyName m := indexKeyName_prefix_iff.mpr hcm
    have hdc := mem_drop_indexKeyName hc
    rcases startMarker_cases pre m d with ⟨-, hnot⟩ | ⟨p, w, rest, hp, hw, hm, hstart⟩
    · exact hnot ((hcm.drop _).subset hdc)
    have hcut : p ++ w ++ [d] <+: Listing.indexKeyName c := by
      have hm' : p ++ w ++ [d] <+: Listing.indexKeyName m := ⟨rest, by rw [hm]; simp⟩
      rcases prefix_or_prefix_of_prefix hm' hcm with hcut | hcut
      · exact hcut
      rcases prefix_concat_iff.mp hcut with heq | hshort
      · exact heq ▸ prefix_rfl
      · have hdw := (hshort.drop pre.length).subset hdc
        rw [← hp, drop_left] at hdw
        exact absurd hdw hw
    obtain ⟨t, ht⟩ := hcut.trans (indexKeyName_prefix_iff.mpr (prefix_of_item_eq_common hc))
    rw [hstart, ← ht, hb, append_assoc _ [d] t] at hlt
    exact Std.Asymm.asymm _ _ hlt (append_cons_lt_append_cons hdb _ _ _)
  have hmarker : ¬ Listing.startMarker ⟨pre, [d], m, []⟩ (bigger d) < Listing.indexKeyName m := by
    rcases startMarker_cases pre m d with ⟨hstart, -⟩ | ⟨p, w, rest, -, -, hm, hstart⟩
    · rw [hstart]
      exact Std.Irrefl.irrefl _
    · rw [hstart, hm, hb]
      exact Std.Asymm.asymm _ _ (append_cons_lt_append_cons hdb _ _ _)
  rw [listedKeys, mem_filter, decide_eq_true_iff]
  refine ⟨hk, indexKeyName_lt_iff.mp (lt_of_not_lt_of_lt hmarker hlt), hpre, ?_⟩
  cases hc : item pre d k with
  | key x => rfl
  | common c => exact decide_eq_false (hcovered c hc)

theorem mem_listedKeys (h : k ∈ listedKeys pre d K m) : k ∈ K.keys ∧ pre <+: k := by
  rw [listedKeys, mem_filter, decide_eq_true_iff] at h
  exact ⟨h.1, h.2.2.1⟩

theorem pairwise_listedKeys : (listedKeys pre d K m).Pairwise (· < ·) :=
  K.sorted.sublist filter_sublist

theorem behind_startMarker (hd : d < 0x80) (hstart : ∀ k ∈ listedKeys pre d K m,
      Listing.startMarker ⟨pre, [d], m, []⟩ (bigger d) < Listing.indexKeyName k) :
    K.behind (Listing.startMarker ⟨pre, [d], m, []⟩ (bigger d))
    (Listing.indexKeyName pre) = listedKeys pre d K m := by
  apply List.Pairwise.eq_of_mem_iff (pairwise_behind _ _) pairwise_listedKeys
  intro k
  rw [mem_behind]
  constructor
  · rintro ⟨hk, hlt, hpre⟩
    exact mem_listedKeys_of_startMarker_lt hd hk hpre hlt
  · intro hk
    obtain ⟨hmem, hpre⟩ := mem_listedKeys hk
    exact ⟨hmem, hstart k hk, hpre⟩

theorem walk_listedKeys (n : Nat) : Rollup.walk n ((listedKeys pre d K m).map (item pre d)) [] =
      ((items pre d K m).take n, decide (n < (items pre d K m).length)) := by
  rw [Rollup.walk_eq (Nat.zero_le n), Rollup.fresh_nil, nil_append, length_nil, Nat.sub_zero,
    zero_add]
  rfl

/-- A right answer has every item that it is to list. -/
theorem Keeps.mem_of_lists (h : Keeps K d known found) (hlists : Lists pre d K m n found) {i : Item}
    (hi : i ∈ (items pre d K m).take n) : i ∈ known := by
  cases i with
  | common c => exact (h.common c).mp ((hlists.commonPrefixes c).mpr hi)
  | key k =>
    have hinj : Function.Injective K.shown :=
      fun k k' heq => congrArg (fun e : ObjEnt => e.key.name) heq
    have hkeys : known.filterMap Item.key? = ((items pre d K m).take n).filterMap Item.key? := by
      apply hinj.list_map
      rw [← h.result, hlists.result]
    have hk : k ∈ ((items pre d K m).take n).filterMap Item.key? :=
      mem_filterMap.mpr ⟨.key k, hi, rfl⟩
    rw [← hkeys, mem_filterMap] at hk
    obtain ⟨i, hknown, hik⟩ := hk
    cases i with
    | common c => cases hik
    | key x =>
      cases hik
      exact hknown

/-- `list_objects` as a scan over the keys behind the marker. -/
theorem listObjects_scans (K : KeySet) (pre m : Bytes) (n : Nat) {bucket : Bytes}
    (hbucket : bucket.head? ≠ some 46) (hd : d < 0x80)
    (hfuel : K.keys.length + 2 ≤ fuel) : ∃ res found, Rollup.scan (item pre d) (past d) n (fuel - 1)
        (K.behind (Listing.startMarker ⟨pre, [d], m, []⟩ (bigger d)) (Listing.indexKeyName pre))
    [] = some res ∧
      listObjects K.index bucket (params pre d m) n fuel = some (.ok found) ∧
      Keeps K d res.1 found ∧
        found.truncated = res.2 := by
  have hlength : (K.behind (Listing.startMarker ⟨pre, [d], m, []⟩ (bigger d))
    (Listing.indexKeyName pre)).length ≤
      K.keys.length := length_filter_le _ _
  obtain ⟨res, hres⟩ : ∃ res, Rollup.scan (item pre d) (past d) n (fuel - 1)
      (K.behind (Listing.startMarker ⟨pre, [d], m, []⟩ (bigger d)) (Listing.indexKeyName pre)) [] =
        some res :=
    Rollup.scan_isSome (jumps pre hd) (pairwise_behind _ _) (Nat.zero_le n) (by omega)
  have hkeeps : Keeps K d [] { marker := (params pre d m).marker } :=
    ⟨rfl, rfl, rfl, fun c => by simp [SortedMap.keys]⟩
  have hplace : place d [] (Listing.startMarker ⟨pre, [d], m, []⟩ (bigger d)) =
      Listing.startMarker ⟨pre, [d], m, []⟩ (bigger d) := if_neg (not_lt_nil _)
  obtain ⟨found, hloop, hfound, htruncated⟩ := listLoop_scans (m := m) hd hkeeps rfl (Nat.zero_le n)
    (by rw [hplace]) (fun k _ => not_mem_nil) hres
  refine ⟨res, found, hres, ?_, hfound, htruncated⟩
  have hstart : startMarker (params pre d m) (bigger d) =
    ⟨Listing.startMarker ⟨pre, [d], m, []⟩ (bigger d), []⟩ :=
    startMarker_plain ⟨pre, [d], m, []⟩ (bigger d)
  have hbigger : Listing.biggerThanDelim (params pre d m).delim = some (bigger d) :=
    (bigger_eq hd).1
  rw [listObjects, if_neg hbucket, hbigger]
  dsimp only
  rw [hstart, show fuel = fuel - 1 + 1 by omega, hloop]
  rfl

theorem start_of_lists (hd : d < 0x80) (hn : 1 ≤ n)
    (hscan : Rollup.scan (item pre d) (past d) n fuel
      (K.behind (Listing.startMarker ⟨pre, [d], m, []⟩ (bigger d)) (Listing.indexKeyName pre))
    [] = some res)
    (hkeeps : Keeps K d res.1 found) (hlists : Lists pre d K m n found) :
    ∀ k ∈ listedKeys pre d K m, Listing.startMarker ⟨pre, [d], m, []⟩ (bigger d) <
      Listing.indexKeyName k := by
  have hsorted : (listedKeys pre d K m).Pairwise (· < ·) := pairwise_listedKeys
  have hfirst : ∀ {i}, i ∈ (items pre d K m).take n → i ∈ res.1 :=
    fun hi => hkeeps.mem_of_lists hlists hi
  rw [items] at hfirst
  cases hkeys : listedKeys pre d K m with
  | nil => exact forall_mem_nil _
  | cons k₀ keys =>
    rw [hkeys] at hfirst hsorted
    obtain ⟨j, rfl⟩ : ∃ j, n = j + 1 := ⟨n - 1, by omega⟩
    have hmem : item pre d k₀ ∈ res.1 := hfirst mem_cons_self
    obtain ⟨k', hk', hitem⟩ :=
      (Rollup.mem_of_scan (Nat.zero_le _) hscan hmem).resolve_left not_mem_nil
    have hk₀ : Listing.startMarker ⟨pre, [d], m, []⟩ (bigger d) < Listing.indexKeyName k₀ :=
      lt_of_item_eq (notMem_drop_startMarker hd m) hitem.symm (mem_behind.mp hk').2.1
    intro k hk
    rcases mem_cons.mp hk with rfl | hk
    · exact hk₀
    · exact Trans.trans hk₀ (indexKeyName_lt ((pairwise_cons.mp hsorted).1 k hk))

end

/-- Over an ideal index `list_objects` finds the first items of a listing with a one-byte delimiter,
and knows whether there are more, exactly if it passes over no key that is to be listed. -/
theorem listObjects_lists_iff (K : KeySet) (bucket pre : Bytes) (d : UInt8) (m : Bytes)
    (n fuel : Nat) (hn : 1 ≤ n)
    (hfuel : K.keys.length + 2 ≤ fuel) :
    (∃ found, listObjects K.index bucket (params pre d m) n fuel = some (.ok found) ∧
      Lists pre d K m n found) ↔
      PassesNone K bucket pre d m n := by
  constructor
  · rintro ⟨found, hok, hlists⟩
    have hbucket : bucket.head? ≠ some 46 := by
      intro hbucket
      rw [listObjects, if_pos hbucket] at hok
      cases hok
    have hd : d < 0x80 := by
      by_contra hd
      have hbigger : Listing.biggerThanDelim (params pre d m).delim = none :=
        biggerThanDelim_eq_none hd
      rw [listObjects, if_neg hbucket, hbigger] at hok
      cases hok
    obtain ⟨res, found', hscan, hok', hkeeps, htruncated⟩ :=
      listObjects_scans K pre m n hbucket hd hfuel
    rw [hok'] at hok
    obtain rfl := Except.ok.inj (some.inj hok)
    have hstart := start_of_lists hd hn hscan hkeeps hlists
    refine ⟨hbucket, hd, hstart, fun hlost => ?_⟩
    rw [behind_startMarker hd hstart] at hscan
    have hlength : (listedKeys pre d K m).length ≤ K.keys.length := length_filter_le _ _
    rcases hlost.wrong (jumps pre hd) pairwise_listedKeys (forall_mem_nil _) (Nat.zero_le n)
      (by omega) hscan
      with ⟨i, hi, hmissing⟩ | hend
    · rw [walk_listedKeys] at hi
      exact hmissing (hkeeps.mem_of_lists hlists hi)
    · rw [walk_listedKeys, ← htruncated] at hend
      exact hend hlists.truncated
  · rintro ⟨hbucket, hd, hstart, hpages⟩
    obtain ⟨res, found, hscan, hok, hkeeps, htruncated⟩ :=
      listObjects_scans K pre m n hbucket hd hfuel
    have hlength : (listedKeys pre d K m).length ≤ K.keys.length := length_filter_le _ _
    rw [behind_startMarker hd hstart,
      Rollup.scan_eq_walk (jumps pre hd) pairwise_listedKeys (Nat.zero_le n) (by omega) hpages,
        walk_listedKeys] at hscan
    cases hscan
    exact ⟨found, hok, hkeeps.result, hkeeps.common, htruncated⟩

def emptyObjects (keys : List Bytes) (sorted : keys.Pairwise (· < ·)) : KeySet where
  keys := keys
  sorted := sorted
  entry k := objEnt ⟨Listing.indexKeyName k, 0, 0⟩
  key_entry _ _ := rfl
  isVisible_entry k _ := by
    have hflags : (objEnt ⟨Listing.indexKeyName k, 0, 0⟩).flags = 0 := rfl
    rw [ObjEnt.isVisible, hflags]
    rfl

def threeObjects : KeySet := emptyObjects [ascii "a/x", ascii "a/y", ascii "b"] (by decide)

/-- One page of a listing with a delimiter. -/
theorem threeObjects_listed :
    ∃ found, listObjects threeObjects.index (ascii "bucket")
    (params [] 47 []) 1 5 = some (.ok found) ∧
      Lists [] 47 threeObjects [] 1 found := by
  refine (listObjects_lists_iff threeObjects (ascii "bucket") [] 47 [] 1 5 (by decide)
    (by decide)).mpr ⟨by decide,
    by decide, by decide, fun hlost => ?_⟩
  cases hlost with
  | one hcut hroom hk hnew hlost => exact absurd hroom (by decide)
  | all hcut hfull hk hnew hlost => exact absurd (hlost (ascii "b") (by decide)) (by decide)
  | later hcut hroom hlost => exact absurd hroom (by decide)

def fourObjects : KeySet := emptyObjects [ascii "a/x", ascii "a/y", ascii "a/z", ascii "a0"]
    (by decide)

/-- The key behind the common prefix is the upper bound that the next page starts behind. -/
theorem upper_bound_passed_over :
    ¬ ∃ found, listObjects fourObjects.index (ascii "bucket")
    (params [] 47 []) 2 6 = some (.ok found) ∧
      Lists [] 47 fourObjects [] 2 found := by
  rintro ⟨found, hok, hlists⟩
  have hlist : (listObjects fourObjects.index (ascii "bucket") (params [] 47 []) 2 6).map
      (Except.map fun found => found.result.length) = some (.ok 0) := by rfl
  rw [hok] at hlist
  have hlength : found.result.length = 0 := Except.ok.inj (some.inj hlist)
  rw [hlists.result, length_map] at hlength
  exact absurd hlength (by decide)

end RadosGateway.KeyListing
