import RadosGateway.ListBuckets
import RadosGateway.Proof.Listing

/-!
# When the buckets are listed right

Every chunk is all that `ls` prints. So the loop has to be left after the first one, with the
buckets of the user. Since `ls` ends each name with a newline, the empty string behind the last one
is one of the buckets sent, unless nothing is printed at all. -/

namespace RadosGateway.ListBuckets

open Text Posix SortedMap Option
open List hiding keys not_le not_lt

structure Owned where
  names : List Bytes
  increasing : names.Pairwise (· < ·)
  nonempty : [] ∉ names

def Owned.expected (owned : Owned) (limit : Int) : List Bytes :=
  if 0 ≤ limit then owned.names.take limit.toNat else owned.names

def sentNames (sent : List Response) : List Bytes :=
  sent.flatMap fun
    | .data m => keys m
    | _ => []

variable {sh : ShellHost} {t : FileTree} {G : Global} {env : Surroundings} {limit : Int}
  {maxBuckets : Nat}

variable (sh t G env limit maxBuckets) in
def Lists (owned : Owned) : Prop :=
  ∃ fuel sent, execute sh t G env limit maxBuckets fuel = some sent ∧
    (sentNames sent).Perm (owned.expected limit)

theorem Owned.increasing_expected (owned : Owned) : (owned.expected limit).Pairwise (· < ·) := by
  rw [expected]
  split_ifs
  · exact owned.increasing.sublist (take_sublist _ _)
  · exact owned.increasing

theorem Owned.nil_notMem_expected (owned : Owned) : [] ∉ owned.expected limit := by
  rw [expected]
  split_ifs
  · exact fun h => owned.nonempty (mem_of_mem_take h)
  · exact owned.nonempty

theorem sentNames_append (sent sent' : List Response) :
    sentNames (sent ++ sent') = sentNames sent ++ sentNames sent' :=
  flatMap_append

/-- A chunk is sent completely and in order. -/
theorem sentNames_sendChunk (m : UserBuckets) (p : Progress) :
    sentNames (sendChunk m p).sent = sentNames p.sent ++ keys m := by
  have hstart : ∀ b, sentNames (p.sent ++ [.start b]) = sentNames p.sent := by
    intro b
    rw [sentNames_append]
    exact append_nil _
  have hdata : ∀ sent, sentNames (sent ++ [.data m]) = sentNames sent ++ keys m := by
    intro sent
    rw [sentNames_append]
    exact congrArg _ (append_nil _)
  rw [sendChunk]
  cases m with
  | nil =>
    rw [isEmpty_nil, if_pos rfl, keys, map_nil, append_nil]
    split_ifs
    · rfl
    · exact hstart _
  | cons e m =>
    rw [if_neg (by simp), hdata]
    split_ifs
    · rfl
    · rw [hstart]

theorem totalCount_sendChunk (m : UserBuckets) (p : Progress) :
    (sendChunk m p).totalCount = p.totalCount := by
  rw [sendChunk]
  split_ifs <;> rfl

variable {fuel : Nat} {p : Progress}

def Ends (limit : Int) (maxBuckets : Nat) (m : UserBuckets) (p : Progress) : Prop :=
  m.length < readCount limit maxBuckets p ∨ (0 ≤ limit ∧ limit.toNat ≤ p.totalCount + m.length)

section Loop

variable {m : UserBuckets} (hread : readUserBuckets sh t G env [] 0 0 = some (.ok m))

include hread

theorem executeLoop_succ_of_ends (h : Ends limit maxBuckets m p) :
    executeLoop sh t G env limit maxBuckets (fuel + 1) p =
      some (sendChunk m (countBuckets m p)) := by
  have hread' : readUserBuckets sh t G env p.marker (readCount limit maxBuckets p) 0 =
      some (.ok m) := hread
  rw [executeLoop, hread']
  exact if_pos h

theorem executeLoop_succ_of_not_ends (h : ¬ Ends limit maxBuckets m p) :
    executeLoop sh t G env limit maxBuckets (fuel + 1) p =
      executeLoop sh t G env limit maxBuckets fuel (sendChunk m (countBuckets m p)) := by
  have hread' : readUserBuckets sh t G env p.marker (readCount limit maxBuckets p) 0 =
      some (.ok m) := hread
  rw [executeLoop, hread']
  exact if_neg h

/-- The loop sends what it read first, and perhaps more. -/
theorem sentNames_executeLoop {p p' : Progress}
    (h : executeLoop sh t G env limit maxBuckets fuel p = some p') :
    ∃ more, sentNames p'.sent = sentNames p.sent ++ keys m ++ more := by
  induction fuel generalizing p with
  | zero => cases h
  | succ fuel ih =>
    have hsent : sentNames (sendChunk m (countBuckets m p)).sent = sentNames p.sent ++ keys m :=
      sentNames_sendChunk m (countBuckets m p)
    by_cases hends : Ends limit maxBuckets m p
    · rw [executeLoop_succ_of_ends hread hends] at h
      cases h
      exact ⟨[], by rw [hsent, append_nil]⟩
    · rw [executeLoop_succ_of_not_ends hread hends] at h
      obtain ⟨more, hmore⟩ := ih h
      refine ⟨keys m ++ more, ?_⟩
      rw [hmore, hsent, append_assoc, append_assoc]

omit hread in
theorem executeLoop_eq_none (hread : readUserBuckets sh t G env [] 0 0 = some (.ok []))
    (h : ¬ Ends limit maxBuckets [] p) : executeLoop sh t G env limit maxBuckets fuel p = none := by
  induction fuel generalizing p with
  | zero => rfl
  | succ fuel ih =>
    rw [executeLoop_succ_of_not_ends hread h]
    apply ih
    have htotal : (sendChunk [] (countBuckets [] p)).totalCount = p.totalCount :=
      totalCount_sendChunk _ _
    rw [Ends, readCount] at h ⊢
    rwa [htotal]

theorem increasing_of_read : (keys m).Pairwise (· < ·) := by
  obtain ⟨⟨ret, entries⟩, -, hm⟩ := map_eq_some_iff.mp hread
  dsimp only at hm
  generalize (if ret = -Errno.enoent.code then 0 else ret) = ret' at hm
  split_ifs at hm
  obtain rfl := Except.ok.inj hm
  have hsorted : ∀ (entries : List BucketEnt) (m : UserBuckets), Sorted m →
      Sorted (entries.foldl add m) := by
    intro entries
    induction entries with
    | nil => exact fun m hm => hm
    | cons e entries ih => exact fun m hm => ih _ (sorted_insert hm)
  exact hsorted entries [] .nil

/-- Given what was read of the directory, the answer is right exactly if the names are and the loop
ends. -/
theorem lists_iff_of_read (owned : Owned) : Lists sh t G env limit maxBuckets owned ↔
      keys m = owned.expected limit ∧ Ends limit maxBuckets m {} := by
  have hexecute : ∀ p : Progress,
      sentNames ((if p.started then p.sent else p.sent ++ [.start false]) ++ [.finish]) =
        sentNames p.sent := by
    intro p
    rw [sentNames_append]
    split_ifs
    · exact append_nil _
    · rw [sentNames_append]
      exact (append_nil _).trans (append_nil _)
  constructor
  · rintro ⟨fuel, sent, hsent, hperm⟩
    obtain ⟨p, hp, rfl⟩ := map_eq_some_iff.mp hsent
    rw [hexecute] at hperm
    match fuel, hp with
    | fuel + 1, hp =>
      by_cases hends : Ends limit maxBuckets m {}
      · refine ⟨?_, hends⟩
        rw [executeLoop_succ_of_ends hread hends] at hp
        cases hp
        rw [sentNames_sendChunk] at hperm
        exact (increasing_of_read hread).eq_of_mem_iff owned.increasing_expected fun name =>
          hperm.mem_iff
      · exfalso
        by_cases hm : m = []
        · subst hm
          rw [executeLoop_eq_none hread hends] at hp
          cases hp
        · -- A second turn sends the chunk again.
          rw [executeLoop_succ_of_not_ends hread hends] at hp
          obtain ⟨more, hmore⟩ := sentNames_executeLoop hread hp
          rw [hmore, sentNames_sendChunk] at hperm
          have hnodup : (owned.expected limit).Nodup := by
            refine owned.increasing_expected.imp ?_
            rintro a _ hlt rfl
            exact Std.Irrefl.irrefl a hlt
          have hdup := (nodup_append.mp (hperm.nodup_iff.mpr hnodup)).1
          obtain ⟨name, hname⟩ := exists_mem_of_ne_nil (keys m) (by simpa [keys] using hm)
          exact (nodup_append.mp hdup).2.2 name (mem_append_right _ hname) name hname rfl
  · rintro ⟨hkeys, hends⟩
    refine ⟨1, _, by rw [execute, executeLoop_succ_of_ends hread hends]; rfl, ?_⟩
    rw [hexecute, sentNames_sendChunk, ← hkeys]
    exact List.Perm.refl _

end Loop

theorem nil_mem_splitFrom {part : Option Bytes} {s : Bytes} (h : s.getLast? = some 10) :
    [] ∈ splitFrom part s := by
  induction s generalizing part with
  | nil => cases h
  | cons c s ih =>
    cases s with
    | nil =>
      obtain rfl : c = 10 := by simpa using h
      cases part <;> simp [splitFrom]
    | cons c' s =>
      have hrest : ∀ part, [] ∈ splitFrom part (c' :: s) := fun part => ih (by simpa using h)
      cases part with
      | none =>
        rw [splitFrom]
        split_ifs
        · exact hrest none
        · exact hrest _
      | some part =>
        rw [splitFrom]
        split_ifs
        · exact mem_cons_of_mem _ (hrest none)
        · exact hrest _

theorem mem_keys_foldl_add (entries : List BucketEnt) (m : UserBuckets) (name : Bytes) :
    name ∈ keys (entries.foldl add m) ↔ name ∈ keys m ∨ name ∈ entries.map BucketEnt.name := by
  induction entries generalizing m with
  | nil => simp
  | cons e entries ih =>
    rw [foldl_cons, ih, add, mem_keys_insert, map_cons, mem_cons]
    tauto

/-- An error is taken for an empty list. -/
theorem lists_iff_of_error {ret : Int}
    (hread : readUserBuckets sh t G env [] 0 0 = some (.error ret))
    (owned : Owned) : Lists sh t G env limit maxBuckets owned ↔ owned.expected limit = [] := by
  have hloop : ∀ fuel, execute sh t G env limit maxBuckets (fuel + 1) =
      some [.start false, .finish] := by
    intro fuel
    have hread' : readUserBuckets sh t G env [] (readCount limit maxBuckets {}) 0 =
        some (.error ret) := hread
    rw [execute, executeLoop, hread']
    rfl
  constructor
  · rintro ⟨fuel, sent, hsent, hperm⟩
    match fuel, hsent with
    | fuel + 1, hsent =>
      rw [hloop] at hsent
      cases hsent
      exact nil_perm.mp hperm
  · intro hnil
    exact ⟨1, _, hloop 0, by rw [hnil]; rfl⟩

theorem not_lists_of_none (hread : readUserBuckets sh t G env [] 0 0 = none) (owned : Owned) :
    ¬ Lists sh t G env limit maxBuckets owned := by
  rintro ⟨fuel, sent, hsent, -⟩
  match fuel, hsent with
  | fuel + 1, hsent =>
    have hread' : readUserBuckets sh t G env [] (readCount limit maxBuckets {}) 0 = none := hread
    rw [execute, executeLoop, hread'] at hsent
    cases hsent

section Files

variable {files : Bytes} (hlength : (lsCommand G).length < 512)
  (hfiles : shellExecute sh (lsCommand G) t = some files)

include hlength hfiles

variable (env) in
theorem readUserBuckets_of_ne (hne : files ≠ []) :
    ∃ m, readUserBuckets sh t G env [] 0 0 = some (.ok m) ∧ ∀ name, name ∈ keys m ↔
    name ∈ split files := by
  refine ⟨((split files).map fun name =>
    ({ name := name, creationTime := env.creationTime } : BucketEnt)).foldl add [],
    ?_, fun name => ?_⟩
  · rw [readUserBuckets, clsUserListBuckets, if_neg (not_le.mpr hlength), hfiles, map_some,
      if_neg hne]
    rfl
  · rw [mem_keys_foldl_add]
    simp [keys]

variable (env) in
theorem readUserBuckets_of_nil (hnil : files = []) : readUserBuckets sh t G env [] 0 0 =
      some (if env.rc < 0 ∧ env.rc ≠ -Errno.enoent.code then .error env.rc else .ok []) := by
  rw [readUserBuckets, clsUserListBuckets, if_neg (not_le.mpr hlength), hfiles, map_some,
    if_pos hnil, map_some]
  dsimp only
  by_cases hneg : env.rc < 0
  · by_cases henoent : env.rc = -Errno.enoent.code
    · simp [henoent, Errno.code]
    · simp [hneg, henoent]
  · simp [hneg, Errno.code]

theorem not_lists_of_newline (hlast : files.getLast? = some 10) (owned : Owned) :
    ¬ Lists sh t G env limit maxBuckets owned := by
  have hne : files ≠ [] := by
    rintro rfl
    cases hlast
  obtain ⟨m, hread, hmem⟩ := readUserBuckets_of_ne env hlength hfiles hne
  rw [lists_iff_of_read hread]
  rintro ⟨hkeys, -⟩
  have hnil : [] ∈ keys m := (hmem []).mpr (nil_mem_splitFrom hlast)
  rw [hkeys] at hnil
  exact owned.nil_notMem_expected hnil

end Files

variable (sh t G env limit maxBuckets) in
/-- The buckets are listed exactly if the command and its output fit into their buffers and either
nothing is printed or to be sent and the loop has a reason to end, or the lines printed are the
buckets to be sent, and these are less than a first chunk or reach the limit. -/
theorem lists_iff (owned : Owned) : Lists sh t G env limit maxBuckets owned ↔
      (lsCommand G).length < 512 ∧ ∃ files, shellExecute sh (lsCommand G) t = some files ∧
        ((files = [] ∧ owned.expected limit = [] ∧
            (0 < maxBuckets ∨ limit = 0 ∨ (env.rc < 0 ∧ env.rc ≠ -Errno.enoent.code))) ∨
          (files ≠ [] ∧ (∀ name, name ∈ split files ↔ name ∈ owned.expected limit) ∧
            ((owned.expected limit).length < readCount limit maxBuckets {} ∨
              (0 ≤ limit ∧ limit.toNat ≤ (owned.expected limit).length)))) := by
  by_cases hlength : (lsCommand G).length < 512
  swap
  · refine iff_of_false (not_lists_of_none ?_ owned) fun h => hlength h.1
    rw [readUserBuckets, clsUserListBuckets, if_pos (not_lt.mp hlength)]
    rfl
  match hfiles : shellExecute sh (lsCommand G) t with
  | none =>
    refine iff_of_false (not_lists_of_none ?_ owned) ?_
    · rw [readUserBuckets, clsUserListBuckets, if_neg (not_le.mpr hlength), hfiles]
      rfl
    · rintro ⟨-, files, h, -⟩
      cases h
  | some files =>
    simp only [hlength, true_and, some.injEq, exists_eq_left']
    by_cases hnil : files = []
    · have hread := readUserBuckets_of_nil env hlength hfiles hnil
      simp only [hnil, true_and, ne_eq, not_true_eq_false, false_and, or_false]
      by_cases hrc : env.rc < 0 ∧ env.rc ≠ -Errno.enoent.code
      · rw [if_pos hrc] at hread
        rw [lists_iff_of_error hread]
        exact (and_iff_left (.inr (.inr hrc))).symm
      · rw [if_neg hrc] at hread
        rw [lists_iff_of_read hread]
        refine and_congr eq_comm ?_
        rw [Ends, readCount, length_nil]
        simp only [hrc, or_false]
        split_ifs <;> omega
    · obtain ⟨m, hread, hmem⟩ := readUserBuckets_of_ne env hlength hfiles hnil
      rw [lists_iff_of_read hread]
      simp only [hnil, false_and, false_or, ne_eq, not_false_eq_true, true_and]
      have hkeys : keys m = owned.expected limit ↔ ∀ name, name ∈ split files ↔
          name ∈ owned.expected limit := by
        simp only [← hmem]
        refine ⟨fun h name => by rw [h], fun h => ?_⟩
        exact (increasing_of_read hread).eq_of_mem_iff owned.increasing_expected h
      rw [← hkeys]
      refine and_congr_right fun heq => ?_
      have hlen : m.length = (owned.expected limit).length := by
        rw [← heq, keys, length_map]
      rw [Ends, hlen, zero_add]

/-- A user whose only bucket is the only one there is gets that bucket and one without a name. -/
theorem empty_bucket_sent :
    (execute Listing.byteOrderShell Sample.tree Sample.G ⟨0, 0⟩ (-1) 1000 1).map sentNames =
        some [[], Sample.bucket] ∧
        ¬ Lists Listing.byteOrderShell Sample.tree Sample.G ⟨0, 0⟩ (-1) 1000
        ⟨[Sample.bucket], pairwise_singleton _ _, by decide⟩ := by
  have hfiles : shellExecute Listing.byteOrderShell (lsCommand Sample.G) Sample.tree =
      some (Sample.bucket ++ [10]) := by
    decide
  exact ⟨by decide, not_lists_of_newline (by decide) hfiles (by decide) _⟩

end RadosGateway.ListBuckets
