import RadosGateway.Base.Run
import RadosGateway.DataChangesLog

/-!
# Which logs are listed page by page

A call that cuts a shard answers with the marker of the shard's beginning, so the next call lists
its records again. -/

namespace RadosGateway.DataLogListing

open List Paging

variable {α : Type} {m i : Nat} {rest shards : List (Shard α)} {entries : List α}

def records (shard : Shard α) : List α := shard.contents.getD []

/-- The shards fill whole calls. -/
def Aligned (m : Nat) : Nat → List (Shard α) → Prop
  | _, [] => True
  | acc, log :: rest =>
    acc + (records log).length ≤ m ∧
      Aligned m (if acc + (records log).length = m then 0 else acc + (records log).length) rest

theorem listLoop_full (hfull : entries.length = m) (marker : LogMarker) :
    listLoop m rest marker entries = ⟨0, entries, marker, some (decide (rest ≠ []))⟩ := by
  cases rest with
  | nil => rfl
  | cons log rest => exact if_neg (by omega)

/-- One shard: what fits in the page, or the rest of it. -/
theorem listLoop_cons {shard : Shard α} (hroom : entries.length < m) :
    listLoop m (shard :: rest) ⟨i, []⟩ entries =
      if m < entries.length + (records shard).length then
        ⟨0, entries ++ (records shard).take (m - entries.length), ⟨i, []⟩, some true⟩
      else listLoop m rest ⟨i + 1, []⟩ (entries ++ records shard) := by
  rw [listLoop, if_pos hroom]
  cases hcontents : shard.contents with
  | none =>
    have hrecords : records shard = [] := by rw [records, hcontents, Option.getD_none]
    rw [shard.missing hcontents, hrecords, length_nil, append_nil, if_pos rfl, if_neg (by omega)]
  | some log =>
    have hrecords : records shard = log := by rw [records, hcontents, Option.getD_some]
    rw [shard.listed log hcontents, hrecords]
    simp only [ENOENT, decide_eq_true_eq]
    rw [if_neg (by decide), if_neg (by decide)]
    by_cases hcut : m < entries.length + log.length
    · rw [if_pos hcut, if_pos (by omega)]
    · rw [if_neg hcut, if_neg (by omega), take_of_length_le (by omega)]

/-- A call ends between two shards, or it cuts a shard. -/
theorem listLoop_cases (rest : List (Shard α)) (hroom : entries.length < m) (i : Nat) :
    (∃ front back, rest = front ++ back ∧ (back = rest → rest = []) ∧
      (Aligned m entries.length rest ↔ Aligned m 0 back) ∧ listLoop m rest ⟨i, []⟩ entries =
        ⟨0, entries ++ front.flatMap records, ⟨i + front.length, []⟩, some (decide (back ≠ []))⟩) ∨
    ¬Aligned m entries.length rest ∧ ∃ front back part, rest = front ++ back ∧ part ≠ [] ∧
      listLoop m rest ⟨i, []⟩ entries =
        ⟨0, entries ++ front.flatMap records ++ part, ⟨i + front.length, []⟩, some true⟩ := by
  induction rest generalizing entries i with
  | nil => exact .inl ⟨[], [], rfl, fun _ => rfl, Iff.rfl, by simp [listLoop]⟩
  | cons log rest ih =>
    rw [listLoop_cons hroom, Aligned]
    by_cases hcut : m < entries.length + (records log).length
    · rw [if_pos hcut]
      refine .inr ⟨fun hand => absurd hand.1 (not_le.mpr hcut), [], log :: rest, _, rfl, ?_,
        by simp; rfl⟩
      rw [ne_eq, take_eq_nil_iff, ← length_eq_zero_iff]
      omega
    · rw [if_neg hcut, and_iff_right (not_lt.mp hcut)]
      by_cases hfull : entries.length + (records log).length = m
      · rw [if_pos hfull, listLoop_full (by rw [length_append, hfull])]
        exact .inl ⟨[log], rest, rfl, fun h => absurd (congrArg length h) (by simp), Iff.rfl,
          by simp⟩
      · rw [if_neg hfull, ← length_append]
        rcases @ih (entries ++ records log) (by rw [length_append]; omega) (i + 1) with
          ⟨front, back, rfl, -, haligned, heq⟩ | ⟨haligned, front, back, part, rfl, hpart, heq⟩
        · refine .inl ⟨log :: front, back, rfl, fun h =>
            absurd (congrArg length h) (by simp; omega), haligned, ?_⟩
          rw [heq, flatMap_cons, append_assoc, length_cons, add_right_comm, add_assoc]
        · refine .inr ⟨haligned, log :: front, back, part, rfl, hpart, ?_⟩
          rw [heq, flatMap_cons, append_assoc entries, length_cons, add_right_comm, add_assoc]

def Call (shards : List (Shard α)) (m : Nat) (marker : LogMarker) (page : Listed α) : Prop :=
  page.ret = 0 ∧ listEntries shards m marker = page

def nextMarker (page : Listed α) : Option LogMarker := if page.truncated = some true then
  some page.marker else none

/-- Where the shards are aligned with the pages, the pages hold all records in order. -/
theorem exists_pages (hm : 0 < m) (hrest : shards.drop i = rest) (h : Aligned m 0 rest) :
    ∃ pages, Pages (Call shards m) nextMarker ⟨i, []⟩ pages ∧
    pages.flatMap Listed.entries = rest.flatMap records := by
  induction hn : rest.length using Nat.strong_induction_on generalizing i rest with
  | _ n ih =>
    have hroom : ([] : List α).length < m := hm
    rcases listLoop_cases rest hroom i with
      ⟨front, back, rfl, hprogress, haligned, heq⟩ | ⟨hnot, -⟩
    · rw [← hrest] at heq
      by_cases hback : back = []
      · subst hback
        refine ⟨_, .last ⟨rfl, heq⟩ (by simp [nextMarker]), by simp⟩
      · have hlt : back.length < n := by
          rw [← hn, length_append]
          have hfront : front ≠ [] := fun h => hback (by simpa [h] using hprogress (by simp [h]))
          have := length_pos_iff.mpr hfront
          omega
        have hdrop : shards.drop (i + front.length) = back := by rw [← drop_drop, hrest, drop_left]
        obtain ⟨pages, hpages, hcontent⟩ := ih _ hlt hdrop (haligned.mp h) rfl
        refine ⟨_ :: pages, .more ⟨rfl, heq⟩ (by simp [nextMarker, hback]) hpages, ?_⟩
        rw [flatMap_cons, hcontent, flatMap_append, nil_append]
    · exact absurd h hnot

/-- Pages from a shard on list at least as many records as there are. -/
theorem length_le_of_pages (hm : 0 < m) {marker : LogMarker} {pages : List (Listed α)}
    (h : Pages (Call shards m) nextMarker marker pages) (hmarker : marker = ⟨i, []⟩) :
    ((shards.drop i).flatMap records).length ≤ (pages.flatMap Listed.entries).length ∧
      (pages.flatMap Listed.entries = (shards.drop i).flatMap records →
        Aligned m 0 (shards.drop i)) := by
  induction h generalizing i with
  | @last start page hcall hnext =>
    subst hmarker
    have hroom : ([] : List α).length < m := hm
    rcases listLoop_cases (shards.drop i) hroom i with
      ⟨front, back, hsplit, -, haligned, heq⟩ | ⟨-, front, back, part, -, -, heq⟩
    · obtain rfl : _ = page := heq.symm.trans hcall.2
      have hback : back = [] := by simpa [nextMarker] using hnext
      subst hback
      rw [hsplit]
      exact ⟨by simp, fun _ => hsplit ▸ haligned.mpr trivial⟩
    · obtain rfl : _ = page := heq.symm.trans hcall.2
      simp [nextMarker] at hnext
  | @more start start' page pages hcall hnext _ ih =>
    subst hmarker
    have hroom : ([] : List α).length < m := hm
    rcases listLoop_cases (shards.drop i) hroom i with
      ⟨front, back, hsplit, -, haligned, heq⟩ | ⟨-, front, back, part, hsplit, hpart, heq⟩
    · obtain rfl : _ = page := heq.symm.trans hcall.2
      have hdrop : shards.drop (i + front.length) = back := by rw [← drop_drop, hsplit, drop_left]
      have hstart : start' = ⟨i + front.length, []⟩ := by
        simp only [nextMarker] at hnext
        split_ifs at hnext
        exact (Option.some.inj hnext).symm
      obtain ⟨hlength, hcontent⟩ := ih hstart
      rw [hdrop] at hlength hcontent
      rw [hsplit, flatMap_cons, flatMap_append, nil_append, length_append, length_append]
      exact ⟨Nat.add_le_add_left hlength _, fun hall =>
        hsplit ▸ haligned.mpr (hcontent (append_cancel_left hall))⟩
    · obtain rfl : _ = page := heq.symm.trans hcall.2
      have hdrop : shards.drop (i + front.length) = back := by rw [← drop_drop, hsplit, drop_left]
      have hstart : start' = ⟨i + front.length, []⟩ := (Option.some.inj hnext).symm
      obtain ⟨hlength, -⟩ := ih hstart
      have hpos := length_pos_iff.mpr hpart
      rw [hdrop] at hlength
      have hlt : ((shards.drop i).flatMap records).length <
          (flatMap Listed.entries
            (⟨0, [] ++ front.flatMap records ++ part, ⟨i + front.length, []⟩, some true⟩ ::
              pages)).length := by
        rw [hsplit, flatMap_cons, flatMap_append, nil_append, length_append, length_append,
          length_append]
        omega
      exact ⟨hlt.le, fun hall => absurd (congrArg length hall) hlt.ne'⟩

/-- A shard that lists its records from the position that a marker of one byte stands for. -/
def Sample.shard (log : List α) : Shard α where
  timeLogList n marker :=
    let log := log.drop (marker.headD 0).toNat
    ⟨0, log.take n, n < log.length⟩
  contents := some log
  missing h := nomatch h
  listed log' h n := by
    cases h
    rfl

def Sample.missing : Shard α where
  timeLogList _ _ := { ret := -ENOENT }
  contents := none
  missing _ _ := rfl
  listed _ h := nomatch h

end RadosGateway.DataLogListing
