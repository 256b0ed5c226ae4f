import RadosGateway.Base.Run
import RadosGateway.UsageLog

/-!
# What the usage log counts

The counters form a commutative monoid, so what an entry counts in any set of categories is the sum
of what was added to it there. -/

namespace RadosGateway.UsageLog

open Text Transition List

theorem UsageData.aggregate_assoc (a b c : UsageData) :
    (a.aggregate b).aggregate c = a.aggregate (b.aggregate c) := by
  simp only [aggregate, UInt64.add_assoc]

theorem UsageData.aggregate_comm (a b : UsageData) : a.aggregate b = b.aggregate a := by
  simp only [aggregate, UInt64.add_comm]

theorem UsageData.fresh_aggregate (a : UsageData) : ({} : UsageData).aggregate a = a := by
  simp only [aggregate, UInt64.zero_add]

instance : Zero UsageData := ⟨{}⟩

instance : Add UsageData := ⟨UsageData.aggregate⟩

instance : AddCommMonoid UsageData where
  add_assoc := UsageData.aggregate_assoc
  zero_add := UsageData.fresh_aggregate
  add_zero a := (UsageData.aggregate_comm a {}).trans (UsageData.fresh_aggregate a)
  add_comm := UsageData.aggregate_comm
  nsmul := nsmulRec

variable {e : Entry} {m : List (Bytes × UsageData)}

def usageOf (p : Bytes → Bool) (m : List (Bytes × UsageData)) : UsageData :=
  (m.map fun entry => if p entry.1 then entry.2 else 0).sum

theorem usageOf_cons (p : Bytes → Bool) (entry : Bytes × UsageData) (m : List (Bytes × UsageData)) :
    usageOf p (entry :: m) = (if p entry.1 then entry.2 else 0) + usageOf p m :=
  sum_cons

/-- One category more. -/
theorem usageOf_aggregateAt (p : Bytes → Bool) (category : Bytes) (data : UsageData)
    (m : List (Bytes × UsageData)) :
    usageOf p (aggregateAt category data m) = usageOf p m + if p category then data else 0 := by
  induction m with
  | nil =>
    rw [aggregateAt, usageOf_cons, UsageData.fresh_aggregate]
    exact add_comm _ _
  | cons entry m ih =>
    obtain ⟨c, usage⟩ := entry
    rw [aggregateAt]
    by_cases heq : category = c
    · subst heq
      rw [if_pos rfl, usageOf_cons, usageOf_cons]
      split_ifs
      · exact add_right_comm usage data _
      · exact (add_zero _).symm
    · rw [if_neg heq]
      by_cases hlt : category < c
      · rw [if_pos hlt, usageOf_cons, UsageData.fresh_aggregate]
        exact add_comm _ _
      · rw [if_neg hlt, usageOf_cons, usageOf_cons, ih, add_assoc]

theorem add_loop (q p : Bytes → Bool) (m : List (Bytes × UsageData)) (this : Entry) :
    let this' := m.foldl (fun this entry => if q entry.1 then this.add entry.1 entry.2
      else this) this
    usageOf p this'.usageMap = usageOf p this.usageMap + usageOf (fun c => q c && p c) m ∧
      this'.totalUsage = this.totalUsage + usageOf q m := by
  induction m generalizing this with
  | nil => exact ⟨(add_zero _).symm, (add_zero _).symm⟩
  | cons entry m ih =>
    obtain ⟨hmap, htotal⟩ := ih (if q entry.1 then this.add entry.1 entry.2 else this)
    dsimp only at hmap htotal ⊢
    rw [foldl_cons, hmap, htotal, usageOf_cons, usageOf_cons, ← add_assoc, ← add_assoc]
    by_cases hq : q entry.1 = true
    · simp only [hq, if_true, Bool.true_and]
      exact ⟨by rw [Entry.add, usageOf_aggregateAt], rfl⟩
    · simp only [hq, Bool.false_and, Bool.false_eq_true, if_false, add_zero, and_self]

theorem usageOf_aggregate (p : Bytes → Bool) (this e : Entry) (categories : Option (List Bytes)) :
    usageOf p (this.aggregate e categories).usageMap =
        usageOf p this.usageMap + usageOf (fun c => categories.all (admits · c) && p c) e.usageMap ∧
      (this.aggregate e categories).totalUsage =
        this.totalUsage + usageOf (fun c => categories.all (admits · c)) e.usageMap := by
  have hloop := add_loop (fun c => categories.all (admits · c)) p e.usageMap
  rw [Entry.aggregate]
  split_ifs
  · exact hloop _
  · exact hloop _

def Balanced (e : Entry) : Prop := e.totalUsage = usageOf (fun _ => true) e.usageMap

theorem Balanced.call (h : Balanced e) (c : Call) : Balanced (e.call c) := by
  cases c with
  | add category data =>
    change e.totalUsage + data = usageOf _ (aggregateAt category data e.usageMap)
    rw [usageOf_aggregateAt, h]
    rfl
  | aggregate e' categories =>
    obtain ⟨hmap, htotal⟩ := usageOf_aggregate (fun _ => true) e e' categories
    simp only [Bool.and_true] at hmap
    change (e.aggregate e' categories).totalUsage = usageOf _ (e.aggregate e' categories).usageMap
    rw [hmap, htotal, h]

theorem balanced_fresh (owner bucket : Bytes) : Balanced { owner := owner, bucket := bucket } := rfl

theorem balanced_of_calls (h : Balanced e) (calls : List Call) :
    Balanced (calls.foldl Entry.call e) := by
  induction calls generalizing e with
  | nil => exact h
  | cons c calls ih => exact ih (h.call c)

theorem Grouping.usageOf_result (p : Bytes → Bool) (g : Grouping) :
    usageOf p g.result.usageMap = (g.entries.map fun e => usageOf p e.usageMap).sum := by
  induction g with
  | fresh => rfl
  | entry e => exact (add_zero _).symm
  | aggregate into group hinto hgroup =>
    have hmap := (usageOf_aggregate p into.result group.result none).1
    simp only [Option.all_none, Bool.true_and] at hmap
    rw [result, entries, hmap, hinto, hgroup, map_append, sum_append]

theorem Grouping.balanced_result {g : Grouping} (h : ∀ e ∈ g.entries, Balanced e) :
    Balanced g.result := by
  induction g with
  | fresh => rfl
  | entry e => exact h e mem_cons_self
  | aggregate into group hinto hgroup =>
    have hleft := hinto fun e he => h e (mem_append_left _ he)
    exact hleft.call (.aggregate group.result none)

theorem sum_loop (q : Bytes → Bool) (m : List (Bytes × UsageData)) (usage : UsageData) :
    m.foldl (fun usage entry => if q entry.1 then usage.aggregate entry.2 else usage) usage =
      usage + usageOf q m := by
  induction m generalizing usage with
  | nil => exact (add_zero usage).symm
  | cons entry m ih =>
    rw [foldl_cons, ih, usageOf_cons, ← add_assoc]
    by_cases hq : q entry.1 = true
    · simp only [if_pos hq]
      rfl
    · simp only [if_neg hq, add_zero]

/-- **Usage.** The total of an entry is the sum over its categories after any calls; aggregation in
any order and grouping gives the same usage of each category and the same total; and a sum over
categories is that of the admitted ones. -/
theorem usage_aggregation (owner bucket : Bytes) (calls : List Call) (g g' : Grouping)
    (hentries : g.entries.Perm g'.entries) (hbalanced : ∀ e ∈ g.entries, Balanced e) (e : Entry)
    (categories : List Bytes) :
    Balanced (calls.foldl Entry.call { owner := owner, bucket := bucket }) ∧
      ((∀ c, usageOf (· = c) g.result.usageMap = usageOf (· = c) g'.result.usageMap) ∧
        g.result.totalUsage = g'.result.totalUsage) ∧
      e.sum categories = usageOf (admits categories) e.usageMap := by
  have hsame : ∀ p, usageOf p g.result.usageMap = usageOf p g'.result.usageMap := by
    intro p
    rw [Grouping.usageOf_result, Grouping.usageOf_result]
    exact (hentries.map _).sum_eq
  have hbalanced' : ∀ e ∈ g'.entries, Balanced e :=
    fun e he => hbalanced e (hentries.mem_iff.mpr he)
  refine ⟨balanced_of_calls (balanced_fresh owner bucket) calls, ⟨fun c => hsame _, ?_⟩, ?_⟩
  · calc
      g.result.totalUsage = usageOf (fun _ => true) g.result.usageMap :=
        Grouping.balanced_result hbalanced
      _ = usageOf (fun _ => true) g'.result.usageMap := hsame _
      _ = g'.result.totalUsage := (Grouping.balanced_result hbalanced').symm
  · exact (sum_loop _ _ _).trans (zero_add _)

def Sample.get : Entry := Entry.add {} [65] ⟨1, 2, 1, 1⟩

def Sample.put : Entry := Entry.add {} [66] ⟨4, 0, 1, 0⟩

/-- Two entries in both orders. -/
theorem usage_of_two_entries :
    (Sample.get.aggregate Sample.put none).totalUsage =
      (Sample.put.aggregate Sample.get none).totalUsage := by
  have hbalanced : ∀ e ∈ [Sample.get, Sample.put], Balanced e :=
    forall_mem_cons.mpr ⟨rfl, forall_mem_cons.mpr ⟨rfl, forall_mem_nil _⟩⟩
  have h := usage_aggregation [] [] [] (.aggregate (.entry Sample.get) (.entry Sample.put))
    (.aggregate (.entry Sample.put) (.entry Sample.get)) (.swap _ _ []) hbalanced {} []
  exact h.2.1.2

def LoggerCall.usage (key : Key) (p : Bytes → Bool) : LoggerCall → UsageData
  | .insert timestamp entry =>
    if (entry.owner, entry.bucket, timestamp / 3600 * 3600) = key then usageOf p entry.usageMap
      else 0
  | .flush => 0

def counted (key : Key) (p : Bytes → Bool) (m : List (Key × Entry)) : UsageData :=
  (m.map fun e => if e.1 = key then usageOf p e.2.usageMap else 0).sum

/-- The entry is of the hour that is being counted, or of a later one that is noticed. -/
def OnTime (l : Logger) : LoggerCall → Prop
  | .insert timestamp _ =>
    l.roundTimestamp.toNat ≤ timestamp.toNat ∧ timestamp.toNat ≠ l.roundTimestamp.toNat + 3600
  | .flush => True

variable {key key' : Key} {p : Bytes → Bool} {l l' : Logger}

theorem counted_append (m m' : List (Key × Entry)) :
    counted key p (m ++ m') = counted key p m + counted key p m' := by
  rw [counted, map_append, sum_append]
  rfl

/-- One entry more. -/
theorem counted_insertAt (entry : Entry) (m : List (Key × Entry)) :
    counted key p (insertAt key' entry m) = counted key p m + if key' = key then
      usageOf p entry.usageMap else 0 := by
  have haggregate (e : Entry) : usageOf p (e.aggregate entry none).usageMap =
      usageOf p e.usageMap + usageOf p entry.usageMap := by
    simpa using (usageOf_aggregate p e entry none).1
  induction m with
  | nil =>
    simp only [insertAt, counted, map_cons, map_nil, sum_cons, sum_nil, haggregate]
    split_ifs
    · exact add_zero _
    · rfl
  | cons x m ih =>
    obtain ⟨k, e⟩ := x
    simp only [counted, map_cons, sum_cons] at ih ⊢
    rw [insertAt]
    by_cases hk : key' = k
    · subst hk
      simp only [if_true, map_cons, sum_cons, haggregate]
      split_ifs
      · exact add_right_comm _ _ _
      · exact (add_zero _).symm
    · rw [if_neg hk, map_cons, sum_cons, ih, add_assoc]

theorem toNat_hour (timestamp : UInt32) :
    (timestamp / 3600 * 3600).toNat = timestamp.toNat / 3600 * 3600 := by
  have hlt := timestamp.toNat_lt
  rw [UInt32.toNat_mul, UInt32.toNat_div]
  change timestamp.toNat / 3600 * 3600 % 2 ^ 32 = _
  omega

theorem roundToHour_utc (timestamp : UInt32) :
    roundToHour 0 timestamp = timestamp / 3600 * 3600 := by
  have hlt := timestamp.toNat_lt
  apply UInt32.toNat_inj.mp
  rw [toNat_hour, roundToHour, UInt32.toNat_ofNat']
  omega

theorem round_step (hround : 3600 ∣ l.roundTimestamp.toNat) {timestamp : UInt32} {entry : Entry}
    (hok : OnTime l (.insert timestamp entry)) :
    (l.step 0 (.insert timestamp entry)).roundTimestamp = timestamp / 3600 * 3600 := by
  obtain ⟨hle, hne⟩ := hok
  rw [Logger.step]
  dsimp only
  split_ifs with hlate
  · exact roundToHour_utc timestamp
  · apply UInt32.toNat_inj.mp
    rw [toNat_hour]
    omega

/-- Whatever is logged or still held was inserted. -/
theorem counted_run {calls : List LoggerCall}
    (h : Steps (fun l call => some (l.step 0 call)) OnTime l calls l')
    (hround : 3600 ∣ l.roundTimestamp.toNat) : counted key p (l'.logged ++ l'.usageMap) =
      counted key p (l.logged ++ l.usageMap) + (calls.map (LoggerCall.usage key p)).sum := by
  induction h with
  | nil l => exact (add_zero _).symm
  | @cons l l₁ l' call calls hok hstep hrest ih =>
    cases hstep
    rw [map_cons, sum_cons, ← add_assoc]
    cases call with
    | insert timestamp entry =>
      have hhour := round_step hround hok
      rw [ih (by rw [hhour, toNat_hour]; exact Nat.dvd_mul_left _ _)]
      congr 1
      rw [counted_append, counted_append, add_assoc]
      congr 1
      refine (counted_insertAt _ _).trans ?_
      rw [LoggerCall.usage, ← hhour]
      rfl
    | flush =>
      rw [ih hround]
      congr 1
      rw [LoggerCall.usage, add_zero]
      exact congrArg _ (append_nil _)

/-- With a clock in UTC, and where every entry comes in its hour or later than one hour after it
began, everything is logged for the hour it belongs to when the logger is destroyed. -/
theorem usage_logged_by_hour (now : UInt32) (calls : List LoggerCall) (l : Logger) (key : Key)
    (p : Bytes → Bool)
    (h : Steps (fun l call => some (l.step 0 call)) OnTime (.init 0 now) calls l) :
    counted key p (l.step 0 .flush).logged = (calls.map (LoggerCall.usage key p)).sum := by
  have hround : 3600 ∣ (Logger.init 0 now).roundTimestamp.toNat := by
    rw [Logger.init, roundToHour_utc, toNat_hour]
    exact Nat.dvd_mul_left _ _
  exact (counted_run h hround).trans (zero_add _)

/-- Two requests in two hours: each is logged for its hour. -/
theorem usage_of_two_hours : counted ([], [], 3600) (fun _ => true)
    ([.insert 5 Sample.get, .insert 3605 Sample.put,
      .flush].foldl (Logger.step 0) (.init 0 0)).logged = ⟨4, 0, 1, 0⟩ := by
  have hrun : Steps (fun l call => some (Logger.step 0 l call)) OnTime (.init 0 0)
      [.insert 5 Sample.get, .insert 3605 Sample.put] _ :=
    .cons ⟨by decide, by decide⟩ rfl (.single ⟨by decide, by decide⟩ rfl)
  exact (usage_logged_by_hour 0 _ _ ([], [], 3600) (fun _ => true) hrun).trans (by decide)

/-- A request exactly one hour later is logged for the hour before. -/
theorem full_hour_missed : counted ([], [], 3600) (fun _ => true)
    ([.insert 3600 Sample.put, .flush].foldl (Logger.step 0) (.init 0 0)).logged ≠
      ([.insert 3600 Sample.put].map (LoggerCall.usage ([], [], 3600) fun _ => true)).sum := by
  decide

end RadosGateway.UsageLog
