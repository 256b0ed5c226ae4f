import RadosGateway.BucketIndex
import RadosGateway.Proof.Listing

/-!
# The merge picks the smallest entries

The shards have no name in common, so there is one candidate for each iterator that is not at its
end, and the first candidate is smaller than everything that lies ahead of the iterators. -/

namespace RadosGateway.BucketIndex

open Text SortedMap
open List hiding keys not_lt
open Option hiding or_assoc

variable {D E : Type}

structure Shard (D : Type) where
  contents : List (Bytes × D)
  ret : ListRet D
  sorted : Sorted contents
  listed : ret.m <+: contents
  flag : ret.isTruncated = true ↔ ret.m ≠ contents

def Ahead (vcurrents : List (DirIter D)) (e : Bytes × D) : Prop :=
  ∃ (i : Nat) (entries : List (Bytes × D)), vcurrents[i]? = some (some entries) ∧ e ∈ entries

structure Apart (vcurrents : List (DirIter D)) : Prop where
  sorted : ∀ {i : Nat} {entries : List (Bytes × D)}, vcurrents[i]? = some (some entries) →
    Sorted entries
  disjoint : ∀ {i j : Nat} {entries entries' : List (Bytes × D)},
    vcurrents[i]? = some (some entries) →
    vcurrents[j]? = some (some entries') → i ≠ j → ∀ e ∈ entries, ∀ e' ∈ entries', e.1 ≠ e'.1

structure Tracks (vcurrents : List (DirIter D)) (candidates : List (Bytes × Nat)) : Prop where
  sorted : Sorted candidates
  mem_iff : ∀ {name : Bytes} {i : Nat}, (name, i) ∈ candidates ↔
    ∃ (d : D) (rest : List (Bytes × D)), vcurrents[i]? = some (some ((name, d) :: rest))

theorem getElem?_set_iff {vcurrents : List (DirIter D)} {pos i : Nat}
    {old rest entries : List (Bytes × D)}
    (hpos : vcurrents[pos]? = some (some old)) :
    (vcurrents.set pos (some rest))[i]? = some (some entries) ↔
      (i = pos ∧ entries = rest) ∨ (i ≠ pos ∧ vcurrents[i]? = some (some entries)) := by
  have hlt : pos < vcurrents.length := (List.getElem?_eq_some_iff.mp hpos).1
  by_cases h : pos = i
  · subst h
    simp [hlt, eq_comm]
  · simp [h, Ne.symm h]

section Step

variable {vcurrents : List (DirIter D)} {candidates : List (Bytes × Nat)} {pos : Nat}
  {e : Bytes × D}
  {rest : List (Bytes × D)}

/-- Shards stay apart when one of them goes on. -/
theorem Apart.advance (h : Apart vcurrents) (hpos : vcurrents[pos]? = some (some (e :: rest))) :
    Apart (vcurrents.set pos (some rest)) where
  sorted := by
    intro i entries hi
    rcases (getElem?_set_iff hpos).mp hi with ⟨rfl, rfl⟩ | ⟨-, hi⟩
    · exact (h.sorted hpos).of_cons
    · exact h.sorted hi
  disjoint := by
    intro i j entries entries' hi hj hij x hx x' hx'
    rcases (getElem?_set_iff hpos).mp hi with ⟨rfl, rfl⟩ | ⟨-, hold⟩
    · rcases (getElem?_set_iff hpos).mp hj with ⟨rfl, rfl⟩ | ⟨-, hj⟩
      · exact absurd rfl hij
      · exact h.disjoint hpos hj hij x (mem_cons_of_mem _ hx) x' hx'
    · rcases (getElem?_set_iff hpos).mp hj with ⟨rfl, rfl⟩ | ⟨-, hj⟩
      · exact h.disjoint hold hpos hij x hx x' (mem_cons_of_mem _ hx')
      · exact h.disjoint hold hj hij x hx x' hx'

theorem ahead_advance (hpos : vcurrents[pos]? = some (some (e :: rest))) (x : Bytes × D) :
    Ahead vcurrents x ↔ x = e ∨ Ahead (vcurrents.set pos (some rest)) x := by
  constructor
  · rintro ⟨i, entries, hi, hx⟩
    by_cases h : i = pos
    · subst h
      obtain rfl : e :: rest = entries := by simpa using hpos.symm.trans hi
      rcases mem_cons.mp hx with rfl | hx
      · exact .inl rfl
      · exact .inr ⟨i, rest, (getElem?_set_iff hpos).mpr (.inl ⟨rfl, rfl⟩), hx⟩
    · exact .inr ⟨i, entries, (getElem?_set_iff hpos).mpr (.inr ⟨h, hi⟩), hx⟩
  · rintro (rfl | ⟨i, entries, hi, hx⟩)
    · exact ⟨pos, _, hpos, mem_cons_self⟩
    · rcases (getElem?_set_iff hpos).mp hi with ⟨rfl, rfl⟩ | ⟨-, hi⟩
      · exact ⟨i, _, hpos, mem_cons_of_mem _ hx⟩
      · exact ⟨i, entries, hi, hx⟩

/-- The candidates are the first names of the shards that have one left. -/
theorem tracks_addCandidate {it : DirIter D} (hapart : Apart vcurrents)
    (hsorted : Sorted candidates)
    (hothers : ∀ {name : Bytes} {i : Nat}, (name, i) ∈ candidates ↔ i ≠ pos ∧
      ∃ (d : D) (rest : List (Bytes × D)), vcurrents[i]? = some (some ((name, d) :: rest)))
    (hpos : vcurrents[pos]? = some it) : Tracks vcurrents (addCandidate candidates it pos) := by
  have hsame : (∀ (e : Bytes × D) (rest : List (Bytes × D)), it ≠ some (e :: rest)) →
      Tracks vcurrents candidates := by
    intro hnone
    refine ⟨hsorted, fun {name i} => hothers.trans (and_iff_right_of_imp ?_)⟩
    rintro ⟨d, rest, hi⟩ rfl
    exact hnone _ _ (some.inj (hpos.symm.trans hi))
  match it, hpos, hsame with
  | none, _, hsame => exact hsame (by simp)
  | some [], _, hsame => exact hsame (by simp)
  | some ((name, d) :: rest), hpos, _ =>
    have hnew : name ∉ keys candidates := by
      intro hkey
      obtain ⟨⟨_, i⟩, hmem, rfl⟩ := List.mem_map.mp hkey
      obtain ⟨hi, d', rest', hd'⟩ := hothers.mp hmem
      exact hapart.disjoint hd' hpos hi _ mem_cons_self _ mem_cons_self rfl
    refine ⟨sorted_insert hsorted, fun {name' i} => ?_⟩
    change (name', i) ∈ SortedMap.insert name pos candidates ↔ _
    rw [(insert_perm hnew).mem_iff, mem_cons, hothers]
    constructor
    · rintro (heq | ⟨-, hi⟩)
      · cases heq
        exact ⟨d, rest, hpos⟩
      · exact hi
    · rintro ⟨d', rest', hi⟩
      by_cases h : i = pos
      · subst h
        obtain ⟨⟨rfl, -⟩, -⟩ : (name = name' ∧ d = d') ∧ rest = rest' := by
          simpa using hpos.symm.trans hi
        exact .inl rfl
      · exact .inr ⟨h, d', rest', hi⟩

theorem Tracks.advance (hapart : Apart vcurrents) (h : Tracks vcurrents ((e.1, pos) :: candidates))
    (hpos : vcurrents[pos]? = some (some (e :: rest))) :
    Tracks (vcurrents.set pos (some rest)) (addCandidate candidates (some rest) pos) := by
  obtain ⟨hfirst, hsorted⟩ := pairwise_cons.mp h.sorted
  refine tracks_addCandidate (hapart.advance hpos) hsorted (fun {name i} => ?_)
    ((getElem?_set_iff hpos).mpr (.inl ⟨rfl, rfl⟩))
  constructor
  · intro hmem
    obtain ⟨d, rest', hd⟩ := h.mem_iff.mp (mem_cons_of_mem _ hmem)
    have hne : i ≠ pos := by
      rintro rfl
      obtain ⟨rfl, -⟩ : e = (name, d) ∧ rest = rest' := by simpa using hpos.symm.trans hd
      exact Std.Irrefl.irrefl name (hfirst name (List.mem_map_of_mem hmem))
    exact ⟨hne, d, rest', (getElem?_set_iff hpos).mpr (.inr ⟨hne, hd⟩)⟩
  · rintro ⟨hne, d, rest', hd⟩
    have hd := (((getElem?_set_iff hpos).mp hd).resolve_left fun h => hne h.1).2
    refine (mem_cons.mp (h.mem_iff.mpr ⟨d, rest', hd⟩)).resolve_left ?_
    exact fun heq => hne (congrArg Prod.snd heq)

/-- The first candidate is the smallest name that is left. -/
theorem Tracks.first_le (hapart : Apart vcurrents) {name : Bytes}
    (h : Tracks vcurrents ((name, pos) :: candidates)) {x : Bytes × D} (hx : Ahead vcurrents x) :
    name = x.1 ∨ name < x.1 := by
  obtain ⟨i, entries, hi, hx⟩ := hx
  match entries, hi, hx with
  | (name', d) :: rest, hi, hx =>
    have hname' : name = name' ∨ name < name' := by
      rcases mem_cons.mp (h.mem_iff.mpr ⟨d, rest, hi⟩) with heq | hmem
      · exact .inl (congrArg Prod.fst heq).symm
      · exact .inr ((pairwise_cons.mp h.sorted).1 name' (List.mem_map_of_mem hmem))
    rcases mem_cons.mp hx with rfl | hx
    · exact hname'
    · have hlt : name' < x.1 := (pairwise_cons.mp (hapart.sorted hi)).1 x.1 (List.mem_map_of_mem hx)
      rcases hname' with rfl | hname'
      · exact .inr hlt
      · exact .inr (Trans.trans hname' hlt)

end Step

structure Merged (ent : D → E) (U : Set (Bytes × D)) (s : Merge D E) (taken : List (Bytes × D)) :
    Prop where
  apart : Apart s.vcurrents
  tracks : Tracks s.vcurrents s.candidates
  m_eq : s.m = taken.map fun e => (e.1, ent e.2)
  sorted : Sorted taken
  mem_iff : ∀ e, e ∈ U ↔ e ∈ taken ∨ Ahead s.vcurrents e
  lt : ∀ e ∈ taken, ∀ e', Ahead s.vcurrents e' → e.1 < e'.1

variable {ent : D → E} {U : Set (Bytes × D)} {s : Merge D E} {taken : List (Bytes × D)}

/-- The smallest candidate is the next name of the union. -/
theorem Merged.step {name : Bytes} {pos : Nat} {candidates : List (Bytes × Nat)}
    (h : Merged ent U s taken)
    (hcand : s.candidates = (name, pos) :: candidates) :
    ∃ (d : D) (rest : List (Bytes × D)), s.vcurrents[pos]? = some (some ((name, d) :: rest)) ∧
    Merged ent U
        { vcurrents := s.vcurrents.set pos (some rest)
          candidates := addCandidate candidates (some rest) pos
          m := SortedMap.insert name (ent d) s.m } (taken ++ [(name, d)]) := by
  have htracks := hcand ▸ h.tracks
  obtain ⟨d, rest, hpos⟩ := htracks.mem_iff.mp mem_cons_self
  have hahead : Ahead s.vcurrents (name, d) := ⟨pos, _, hpos, mem_cons_self⟩
  have hbefore : ∀ e ∈ taken, e.1 < name := fun e he => h.lt e he _ hahead
  refine ⟨d, rest, hpos, h.apart.advance hpos, Tracks.advance h.apart htracks hpos, ?_, ?_, ?_, ?_⟩
  · have hkeys : ∀ k ∈ keys s.m, ¬ name < k ∧ name ≠ k := by
      intro k hk
      rw [h.m_eq, keys, List.map_map] at hk
      obtain ⟨e, he, rfl⟩ := List.mem_map.mp hk
      refine ⟨fun hlt => Std.Asymm.asymm _ _ hlt (hbefore e he), ?_⟩
      rintro rfl
      exact Std.Irrefl.irrefl _ (hbefore e he)
    rw [insert_eq_append hkeys, h.m_eq, map_append, map_singleton]
  · rw [Sorted, keys, map_append, pairwise_append]
    refine ⟨h.sorted, pairwise_singleton _ _, ?_⟩
    intro k hk k' hk'
    obtain ⟨e, he, rfl⟩ := List.mem_map.mp hk
    obtain rfl : k' = name := by simpa using hk'
    exact hbefore e he
  · intro e
    rw [h.mem_iff, ahead_advance hpos, mem_append, mem_singleton, or_assoc]
  · intro e he x hx
    have hx' : Ahead s.vcurrents x := (ahead_advance hpos x).mpr (.inr hx)
    rcases mem_append.mp he with he | he
    · exact h.lt e he x hx'
    · obtain rfl := mem_singleton.mp he
      refine (Tracks.first_le h.apart htracks hx').resolve_left ?_
      -- The entries behind the one that was taken have other names.
      obtain ⟨i, entries, hi, hx⟩ := hx
      rcases (getElem?_set_iff hpos).mp hi with ⟨rfl, rfl⟩ | ⟨hne, hi⟩
      · intro heq
        have hlt := (pairwise_cons.mp (h.apart.sorted hpos)).1 x.1 (List.mem_map_of_mem hx)
        rw [← heq] at hlt
        exact Std.Irrefl.irrefl _ hlt
      · exact h.apart.disjoint hpos hi (Ne.symm hne) _ mem_cons_self x hx

/-- Run lemma of the merge. -/
theorem Merged.run (left : Nat) (h : Merged ent U s taken) :
    ∃ s' taken', mergeLoop ent left s = some s' ∧ Merged ent U s' taken' ∧
      taken'.length ≤ taken.length + left ∧
      (taken'.length = taken.length + left ∨ s'.candidates = []) := by
  induction left generalizing s taken with
  | zero => exact ⟨s, taken, rfl, h, le_rfl, .inl rfl⟩
  | succ left ih =>
    match hcand : s.candidates with
    | [] =>
      refine ⟨s, taken, ?_, h, Nat.le_add_right _ _, .inr hcand⟩
      rw [mergeLoop, hcand]
    | (name, pos) :: candidates =>
      obtain ⟨d, rest, hpos, hnext⟩ := h.step hcand
      obtain ⟨s', taken', hrun, h', hle, hend⟩ := ih hnext
      rw [length_append, length_singleton, add_right_comm, add_assoc] at hle hend
      refine ⟨s', taken', ?_, h', hle, hend⟩
      rw [mergeLoop, hcand]
      dsimp only
      rw [hpos]
      exact hrun

theorem Merged.not_ahead (h : Merged ent U s taken) (hempty : s.candidates = []) (e : Bytes × D) :
    ¬ Ahead s.vcurrents e := by
  rintro ⟨i, entries, hi, he⟩
  match entries, hi, he with
  | (name, d) :: rest, hi, _ =>
    have hmem := h.tracks.mem_iff.mpr ⟨d, rest, hi⟩
    rw [hempty] at hmem
    exact absurd hmem not_mem_nil

theorem Merged.smallest {n : Nat} (h : Merged ent U s taken) (hle : taken.length ≤ n)
    (hend : taken.length = n ∨ s.candidates = []) : Smallest n U taken where
  sorted := h.sorted
  mem e he := (h.mem_iff e).mpr (.inl he)
  length_le := hle
  rest := by
    intro e he hnot
    have hahead := ((h.mem_iff e).mp he).resolve_left hnot
    have hfull : taken.length = n := hend.resolve_right fun hempty => h.not_ahead hempty e hahead
    exact ⟨hfull, fun e' he' => h.lt e' he' e hahead⟩

theorem Tracks.push {vcurrents : List (DirIter D)} {it : DirIter D}
    {candidates : List (Bytes × Nat)}
    (hapart : Apart (vcurrents ++ [it])) (h : Tracks vcurrents candidates) :
    Tracks (vcurrents ++ [it]) (addCandidate candidates it vcurrents.length) := by
  refine tracks_addCandidate hapart h.sorted (fun {name i} => ?_) (by simp)
  rw [h.mem_iff]
  constructor
  · rintro ⟨d, rest, hi⟩
    have hlt := (List.getElem?_eq_some_iff.mp hi).1
    exact ⟨hlt.ne, d, rest, by rw [getElem?_append_left hlt]; exact hi⟩
  · rintro ⟨hne, d, rest, hi⟩
    have hlt : i < vcurrents.length := by
      have := (List.getElem?_eq_some_iff.mp hi).1
      rw [length_append, length_singleton] at this
      omega
    exact ⟨d, rest, by rw [← getElem?_append_left hlt]; exact hi⟩

theorem Apart.left {vcurrents vcurrents' : List (DirIter D)} (h : Apart (vcurrents ++ vcurrents')) :
    Apart vcurrents := by
  have hmono : ∀ {i : Nat} {x : DirIter D}, vcurrents[i]? = some x →
      (vcurrents ++ vcurrents')[i]? = some x := by
    intro i x hi
    rw [getElem?_append_left (List.getElem?_eq_some_iff.mp hi).1]
    exact hi
  exact ⟨fun hi => h.sorted (hmono hi), fun hi hj => h.disjoint (hmono hi) (hmono hj)⟩

theorem tracks_firstCandidates {vcurrents : List (DirIter D)} (h : Apart vcurrents) :
    Tracks vcurrents (firstCandidates vcurrents) := by
  induction vcurrents using List.reverseRecOn with
  | nil => exact ⟨List.Pairwise.nil, by simp [firstCandidates]⟩
  | append_singleton vcurrents it ih =>
    have hlast : firstCandidates (vcurrents ++ [it]) =
        addCandidate (firstCandidates vcurrents) it vcurrents.length := by
      simp [firstCandidates, zipIdx_append]
    rw [hlast]
    exact (ih h.left).push h

theorem getElem?_firstCurrents {results : List (ListRet D)} {i : Nat} {entries : List (Bytes × D)} :
    (firstCurrents results)[i]? = some (some entries) ↔
      ∃ j ret, i = results.length + j ∧ results[j]? = some ret ∧ ret.m = entries := by
  rw [firstCurrents, getElem?_append, length_replicate]
  split_ifs with hlt
  · rw [getElem?_replicate, if_pos hlt]
    constructor
    · intro h
      cases h
    · omega
  · rw [getElem?_map]
    constructor
    · intro h
      obtain ⟨ret, hret, heq⟩ := map_eq_some_iff.mp h
      exact ⟨i - results.length, ret, by omega, hret, some.inj heq⟩
    · rintro ⟨j, ret, rfl, hret, rfl⟩
      rw [Nat.add_sub_cancel_left, hret, map_some]

section Shards

variable {n : Nat} {shards : List (Shard D)}

def Disjoint (shards : List (Shard D)) : Prop :=
  shards.Pairwise fun shard shard' => ∀ e ∈ shard.contents, ∀ e' ∈ shard'.contents, e.1 ≠ e'.1

theorem Shard.mem_contents (shard : Shard D) {e : Bytes × D} (he : e ∈ shard.ret.m) :
    e ∈ shard.contents :=
  shard.listed.subset he

theorem apart_firstCurrents (h : Disjoint shards) :
    Apart (firstCurrents (shards.map Shard.ret)) where
  sorted := by
    intro i entries hi
    obtain ⟨j, ret, -, hret, rfl⟩ := getElem?_firstCurrents.mp hi
    obtain ⟨shard, hshard, rfl⟩ := List.mem_map.mp (mem_of_getElem? hret)
    exact shard.sorted.sublist (shard.listed.sublist.map Prod.fst)
  disjoint := by
    intro i i' entries entries' hi hi' hne e he e' he'
    obtain ⟨j, ret, rfl, hret, rfl⟩ := getElem?_firstCurrents.mp hi
    obtain ⟨j', ret', rfl, hret', rfl⟩ := getElem?_firstCurrents.mp hi'
    rw [getElem?_map] at hret hret'
    obtain ⟨shard, hshard, rfl⟩ := map_eq_some_iff.mp hret
    obtain ⟨shard', hshard', rfl⟩ := map_eq_some_iff.mp hret'
    obtain ⟨hj, rfl⟩ := List.getElem?_eq_some_iff.mp hshard
    obtain ⟨hj', rfl⟩ := List.getElem?_eq_some_iff.mp hshard'
    have hpairs := pairwise_iff_getElem.mp h
    rcases Nat.lt_or_gt_of_ne (fun hjj' : j = j' => hne (by rw [hjj'])) with hlt | hgt
    · exact hpairs j j' hj hj' hlt e (Shard.mem_contents _ he) e' (Shard.mem_contents _ he')
    · exact (hpairs j' j hj' hj hgt e' (Shard.mem_contents _ he') e (Shard.mem_contents _ he)).symm

theorem ahead_firstCurrents {e : Bytes × D} :
    Ahead (firstCurrents (shards.map Shard.ret)) e ↔ ∃ shard ∈ shards, e ∈ shard.ret.m := by
  constructor
  · rintro ⟨i, entries, hi, he⟩
    obtain ⟨j, ret, -, hret, rfl⟩ := getElem?_firstCurrents.mp hi
    obtain ⟨shard, hshard, rfl⟩ := List.mem_map.mp (mem_of_getElem? hret)
    exact ⟨shard, hshard, he⟩
  · rintro ⟨shard, hshard, he⟩
    obtain ⟨j, hj⟩ := mem_iff_getElem?.mp (List.mem_map_of_mem (f := Shard.ret) hshard)
    exact ⟨_, shard.ret.m, getElem?_firstCurrents.mpr ⟨j, shard.ret, rfl, hj, rfl⟩, he⟩

theorem merged_first (ent : D → E) (h : Disjoint shards) :
    Merged ent {e | ∃ shard ∈ shards, e ∈ shard.ret.m}
      { vcurrents := firstCurrents (shards.map Shard.ret)
        candidates := firstCandidates (firstCurrents (shards.map Shard.ret))
        m := [] } [] where
  apart := apart_firstCurrents h
  tracks := tracks_firstCandidates (apart_firstCurrents h)
  m_eq := rfl
  sorted := List.Pairwise.nil
  mem_iff e := by
    rw [ahead_firstCurrents]
    simp
  lt e he := absurd he not_mem_nil

theorem not_listed (h : Disjoint shards) {shard : Shard D} (hshard : shard ∈ shards) {e : Bytes × D}
    (he : e ∈ shard.contents) (hnot : e ∉ shard.ret.m) : ¬ ∃ shard' ∈ shards, e ∈ shard'.ret.m := by
  rintro ⟨shard', hshard', he'⟩
  by_cases heq : shard' = shard
  · exact hnot (heq ▸ he')
  · have : Std.Symm fun shard shard' : Shard D =>
        ∀ e ∈ shard.contents, ∀ e' ∈ shard'.contents, e.1 ≠ e'.1 :=
      ⟨fun a b hab e he e' he' => (hab e' he' e he).symm⟩
    exact h.forall hshard' hshard heq e (shard'.mem_contents he') e he rfl

theorem Shard.isTruncated_iff (shard : Shard D) :
    shard.ret.isTruncated = true ↔ ∃ e ∈ shard.contents, e ∉ shard.ret.m := by
  rw [shard.flag]
  obtain ⟨more, hmore⟩ := shard.listed
  constructor
  · intro hne
    match more, hmore with
    | [], hmore => exact absurd (by simpa using hmore) hne
    | e :: more, hmore =>
      refine ⟨e, hmore ▸ mem_append_right _ mem_cons_self, fun he => ?_⟩
      have hsorted : Sorted (shard.ret.m ++ e :: more) := hmore ▸ shard.sorted
      exact Std.Irrefl.irrefl e.1 (hsorted.lt_of_append he mem_cons_self)
  · rintro ⟨e, he, hnot⟩ heq
    exact hnot (heq ▸ he)

theorem any_notAtEnd {vcurrents : List (DirIter D)} :
    vcurrents.any DirIter.notAtEnd = true ↔ ∃ e, Ahead vcurrents e := by
  rw [List.any_eq_true]
  constructor
  · rintro ⟨it, hit, hmore⟩
    obtain ⟨i, hi⟩ := mem_iff_getElem?.mp hit
    match it, hmore, hi with
    | some (e :: rest), _, hi => exact ⟨e, i, e :: rest, hi, mem_cons_self⟩
  · rintro ⟨e, i, entries, hi, he⟩
    refine ⟨some entries, mem_of_getElem? hi, ?_⟩
    simpa [DirIter.notAtEnd] using ne_nil_of_mem he

/-- The listing is truncated exactly if an entry of a shard was not taken. -/
theorem Merged.isTruncated_iff {s : Merge D E} {taken : List (Bytes × D)}
    (hdisjoint : Disjoint shards)
    (h : Merged ent {e | ∃ shard ∈ shards, e ∈ shard.ret.m} s taken) :
    ((shards.map Shard.ret).any ListRet.isTruncated || s.vcurrents.any DirIter.notAtEnd) = true ↔
      ∃ shard ∈ shards, ∃ e ∈ shard.contents, e ∉ taken := by
  rw [Bool.or_eq_true, any_notAtEnd, List.any_map, List.any_eq_true]
  constructor
  · rintro (⟨shard, hshard, hflag⟩ | ⟨e, he⟩)
    · obtain ⟨e, he, hnot⟩ := shard.isTruncated_iff.mp hflag
      exact ⟨shard, hshard, e, he,
        fun htaken => not_listed hdisjoint hshard he hnot ((h.mem_iff e).mpr (.inl htaken))⟩
    · obtain ⟨shard, hshard, hlisted⟩ := (h.mem_iff e).mpr (.inr he)
      exact ⟨shard, hshard, e, shard.mem_contents hlisted, fun htaken =>
        Std.Irrefl.irrefl e.1 (h.lt e htaken e he)⟩
  · rintro ⟨shard, hshard, e, he, hnot⟩
    by_cases hlisted : e ∈ shard.ret.m
    · exact .inr ⟨e, ((h.mem_iff e).mp ⟨shard, hshard, hlisted⟩).resolve_left hnot⟩
    · exact .inl ⟨shard, hshard, shard.isTruncated_iff.mpr ⟨e, he, hlisted⟩⟩

theorem clsBucketList_spec (ent : D → E) (h : Disjoint shards) : ∃ (taken : List (Bytes × D))
    (truncated : Bool),
      clsBucketList ent n (shards.map Shard.ret) =
        some (taken.map (fun e => (e.1, ent e.2)), truncated, (keys taken).getLast?) ∧
      Smallest n {e | ∃ shard ∈ shards, e ∈ shard.ret.m} taken ∧
      (truncated = true ↔ ∃ shard ∈ shards, ∃ e ∈ shard.contents, e ∉ taken) := by
  obtain ⟨s, taken, hrun, hmerged, hle, hend⟩ := (merged_first ent h).run n
  rw [length_nil, zero_add] at hle hend
  refine ⟨taken, _, ?_, hmerged.smallest hle hend, hmerged.isTruncated_iff h⟩
  rw [clsBucketList]
  rw [hrun, bind_eq_bind, bind_some, hmerged.m_eq, getLast?_map, keys, getLast?_map, Option.map_map]
  rfl

end Shards

/-- With one shard the merge is a page of its directory. -/
theorem clsBucketList_singleton (ent : D → E) {dir : List (Bytes × D)} (hsorted : Sorted dir)
    (n : Nat) :
    clsBucketList ent n [{ m := dir }] =
      some ((dir.take n).map (fun e => (e.1, ent e.2)), decide (n < dir.length),
        (keys (dir.take n)).getLast?) := by
  let shard : Shard D := ⟨dir, { m := dir }, hsorted, prefix_rfl, by simp⟩
  obtain ⟨taken, truncated, heq, hsmallest, htruncated⟩ :=
    clsBucketList_spec (n := n) ent (pairwise_singleton _ shard)
  have hentries : {e | ∃ shard' ∈ [shard], e ∈ shard'.ret.m} = {e | e ∈ dir} := by
    simp [shard]
  rw [hentries] at hsmallest
  obtain rfl := hsmallest.unique (hsorted.smallest_take n)
  have hflag : truncated = decide (n < dir.length) := by
    rw [Bool.eq_iff_iff, htruncated, decide_eq_true_iff]
    constructor
    · rintro ⟨shard', hshard', e, he, hnot⟩
      obtain rfl := mem_singleton.mp hshard'
      by_contra hle
      exact hnot (by rwa [take_of_length_le (not_lt.mp hle)])
    · intro hlt
      have hdrop : dir.drop n ≠ [] := by simpa using hlt
      obtain ⟨e, he⟩ := exists_mem_of_ne_nil _ hdrop
      refine ⟨shard, mem_singleton_self _, e, mem_of_mem_drop he, fun htake => ?_⟩
      rw [← take_append_drop n dir] at hsorted
      exact Std.Irrefl.irrefl e.1 (hsorted.lt_of_append htake he)
  rw [← hflag, ← heq]
  rfl

theorem sorted_of_issue {sh : ShellHost} {t : Posix.FileTree} {G : Global}
    {bucket start filterPrefix : Bytes} {n : Nat}
    {dir : Listing.DirMap}
    (h : Listing.issueBucketListOp sh t G bucket start filterPrefix n = some dir) :
    Sorted dir := by
  obtain ⟨names, hshows, rfl⟩ := Listing.issueBucketListOp_eq_some_iff.mp h
  rw [Sorted, keys, List.map_map]
  exact (List.map_id names).symm ▸ hshows.increasing

/-- `cls_bucket_list` returns the smallest entries of all answers, with the largest of them as the
last entry, and says whether a shard has one that was not returned. If the shards list as many
entries as they are asked for, these are the smallest of all shards. -/
theorem clsBucketList_smallest (n : Nat) (shards : List (Shard BucketDirEntry))
    (h : Disjoint shards) :
    ∃ (taken : List (Bytes × BucketDirEntry)) (truncated : Bool),
      clsBucketList objEnt n (shards.map Shard.ret) =
        some (taken.map (fun e => (e.1, objEnt e.2)), truncated, (keys taken).getLast?) ∧
      Smallest n {e | ∃ shard ∈ shards, e ∈ shard.ret.m} taken ∧
      ((∀ shard ∈ shards, shard.ret.m = shard.contents.take n) →
        Smallest n {e | ∃ shard ∈ shards, e ∈ shard.contents} taken) ∧
      (truncated = true ↔ ∃ shard ∈ shards, ∃ e ∈ shard.contents, e ∉ taken) := by
  obtain ⟨taken, truncated, heq, hsmallest, htruncated⟩ := clsBucketList_spec objEnt h
  refine ⟨taken, truncated, heq, hsmallest, fun hfull => ?_, htruncated⟩
  have hlisted : {e | ∃ shard ∈ shards, e ∈ shard.ret.m} =
      {e | ∃ shard ∈ shards, e ∈ shard.contents.take n} := by
    ext e
    exact exists_congr fun shard => and_congr_right fun hshard => by rw [hfull shard hshard]
  rw [hlisted] at hsmallest
  exact hsmallest.of_take fun shard _ => shard.sorted

def namedEntry (name : Bytes) : Bytes × BucketDirEntry :=
  (name,
    { key := ⟨name, []⟩,
      ver := ⟨0, 0⟩,
      locator := [],
      exists_ := true,
      meta_ := ⟨0, 0, ⟨0, 0⟩, [], [], [], [], 0⟩,
      pendingMap := .empty,
      indexVer := 0,
      tag := [],
      flags := 0,
      versionedEpoch := 0 })

def twoShards : List (Shard BucketDirEntry) :=
  [{ contents := [namedEntry (ascii "a"), namedEntry (ascii "c")]
     ret := { m := [namedEntry (ascii "a")], isTruncated := true }
     sorted := by simp only [Sorted, keys, namedEntry]; decide
     listed := ⟨[namedEntry (ascii "c")], rfl⟩
     flag := by simp },
   { contents := [namedEntry (ascii "b")]
     ret := { m := [namedEntry (ascii "b")] }
     sorted := pairwise_singleton _ _
     listed := prefix_rfl
     flag := by simp }]

/-- One entry of two shards. -/
theorem clsBucketList_twoShards : Disjoint twoShards ∧ ∃ (taken : List (Bytes × BucketDirEntry))
    (truncated : Bool),
      clsBucketList objEnt 1 (twoShards.map Shard.ret) =
        some (taken.map (fun e => (e.1, objEnt e.2)), truncated, (keys taken).getLast?) ∧
      Smallest 1 {e | ∃ shard ∈ twoShards, e ∈ shard.ret.m} taken ∧
      Smallest 1 {e | ∃ shard ∈ twoShards, e ∈ shard.contents} taken := by
  have hdisjoint : Disjoint twoShards := by
    rw [Disjoint, twoShards, pairwise_pair]
    decide
  obtain ⟨taken, truncated, heq, hlisted, hall, -⟩ := clsBucketList_smallest 1 twoShards hdisjoint
  refine ⟨hdisjoint, taken, truncated, heq, hlisted, hall ?_⟩
  rw [twoShards]
  simp

end RadosGateway.BucketIndex
