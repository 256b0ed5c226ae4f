import RadosGateway.Base.Temporal
import RadosGateway.DataChangesLog

/-!
# No change is forgotten, unless a renewal fails

A call that returns success has written a record itself, or has registered its shard for the next
renewal. There the record is written, unless an earlier batch or its own fails.
-/

namespace RadosGateway.DataChangesLog

open Text Option
open List hiding le_of_lt not_le not_lt

variable {cfg : Config} {inp : Input} {m m' : Memory} {c c' : Caller} {bs bs' : BucketShard}

@[simp]
theorem getChange_log (m : Memory) (bs : BucketShard) : (getChange cfg m bs).2.log = m.log := by
  unfold getChange
  split <;> rfl

@[simp]
theorem getChange_curCycle (m : Memory) (bs : BucketShard) :
    (getChange cfg m bs).2.curCycle = m.curCycle := by
  unfold getChange
  split <;> rfl

@[simp]
theorem updateRenewed_curCycle (m : Memory) (bs : BucketShard) (e : Nat) :
    (updateRenewed cfg m bs e).curCycle = m.curCycle := by
  unfold updateRenewed
  dsimp only
  split
  · exact getChange_curCycle m bs
  · exact getChange_curCycle m bs

theorem subset_registerRenew (m : Memory) (bs : BucketShard) :
    m.curCycle ⊆ (registerRenew m bs).curCycle := by
  intro x hx
  simp only [registerRenew]
  split
  · exact hx
  · exact mem_append_left _ hx

theorem mem_registerRenew (m : Memory) (bs : BucketShard) : bs ∈ (registerRenew m bs).curCycle := by
  simp only [registerRenew]
  split
  next h => exact h
  next => simp

namespace Caller

def shard : Caller → BucketShard
  | entered bs => bs
  | found bs _ => bs
  | registering bs => bs
  | waiting bs _ => bs
  | sending bs _ _ => bs
  | sent bs _ _ _ => bs
  | signalling bs _ _ => bs
  | returned bs _ => bs

def outcome : Caller → Option Int
  | sent _ _ _ ret => some ret
  | signalling _ _ ret => some ret
  | returned _ ret => some ret
  | _ => none

inductive Moves (cfg : Config) (m : Memory) (c c' : Caller) (m' : Memory) : Prop
  | quiet (hlog : m'.log = m.log) (hcycle : m'.curCycle = m.curCycle)
      (houtcome : c'.outcome = some 0 → c.outcome = some 0)
  | registers (hlog : m'.log = m.log) (hcycle : m'.curCycle = (registerRenew m c.shard).curCycle)
  | writes (now : Nat) (hlog : m'.log = m.log ++ [addRecord cfg c.shard now])
      (hcycle : m'.curCycle = m.curCycle)

/-- What one turn of `add_entry` can do. -/
theorem step_moves (hstep : c.step cfg inp m = some (c', m')) : c'.shard = c.shard ∧
    c.Moves cfg m c' m' := by
  cases c with
  | entered bs =>
    cases hstep
    exact ⟨rfl, .quiet (getChange_log m bs) (getChange_curCycle m bs) nofun⟩
  | found bs p =>
    obtain ⟨st, -, hstep⟩ := bind_eq_some_iff.mp hstep
    split_ifs at hstep
    · cases hstep
      exact ⟨rfl, .quiet rfl rfl nofun⟩
    · obtain ⟨c, -, hstep⟩ := bind_eq_some_iff.mp hstep
      cases hstep
      exact ⟨rfl, .quiet rfl rfl nofun⟩
    · cases hstep
      exact ⟨rfl, .quiet rfl rfl nofun⟩
  | registering bs =>
    cases hstep
    exact ⟨rfl, .registers rfl rfl⟩
  | waiting bs cond =>
    simp only [step] at hstep
    split at hstep
    next ret _ =>
      cases hstep
      split_ifs with hret
      · exact ⟨rfl, .quiet rfl rfl nofun⟩
      · exact ⟨rfl, .quiet rfl rfl fun h => absurd (some.inj h) hret⟩
    next => cases hstep
  | sending bs p now =>
    cases hstep
    refine ⟨rfl, ?_⟩
    split_ifs with hret
    · exact .writes now rfl rfl
    · exact .quiet rfl rfl fun h => absurd (some.inj h) hret
  | sent bs p expiration ret =>
    obtain ⟨st, -, hstep⟩ := bind_eq_some_iff.mp hstep
    split_ifs at hstep
    · cases hstep
      exact ⟨rfl, .quiet rfl rfl nofun⟩
    · obtain ⟨c, -, hstep⟩ := bind_eq_some_iff.mp hstep
      cases hstep
      exact ⟨rfl, .quiet rfl rfl fun h => h⟩
  | signalling bs cond ret =>
    cases hstep
    exact ⟨rfl, .quiet rfl rfl fun h => h⟩
  | returned bs ret => cases hstep

theorem Moves.curCycle_subset (h : c.Moves cfg m c' m') : m.curCycle ⊆ m'.curCycle := by
  cases h with
  | quiet hlog hcycle houtcome => rw [hcycle]; exact List.Subset.refl _
  | registers hlog hcycle =>
    rw [hcycle]
    exact subset_registerRenew m c.shard
  | writes now hlog hcycle => rw [hcycle]; exact List.Subset.refl _

end Caller

def Carried (cfg : Config) (bs : BucketShard) (bss : List (Nat × List BucketShard)) : Prop :=
  ∃ b ∈ bss, bs ∈ b.2 ∧ b.1 = chooseOid cfg bs

variable {bss : List (Nat × List BucketShard)}

theorem Carried.cons (h : Carried cfg bs bss) (b : Nat × List BucketShard) :
    Carried cfg bs (b :: bss) := by
  obtain ⟨b', hb', hbs⟩ := h
  exact ⟨b', mem_cons_of_mem _ hb', hbs⟩

theorem Carried.pushBatch (h : Carried cfg bs bss) (i : Nat) (bs' : BucketShard) :
    Carried cfg bs (pushBatch i bs' bss) := by
  induction bss with
  | nil =>
    obtain ⟨b, hb, -⟩ := h
    cases hb
  | cons b bss ih =>
    obtain ⟨j, l⟩ := b
    simp only [DataChangesLog.pushBatch]
    split_ifs with hlt heq
    · exact h.cons _
    · obtain ⟨b', hb', hbs, hoid⟩ := h
      rcases mem_cons.mp hb' with rfl | hb'
      · exact ⟨_, mem_cons_self, mem_append_left _ hbs, hoid⟩
      · exact ⟨b', mem_cons_of_mem _ hb', hbs, hoid⟩
    · by_cases hl : bs ∈ l ∧ j = chooseOid cfg bs
      · exact ⟨_, mem_cons_self, hl⟩
      · obtain ⟨b', hb', hbs⟩ := h
        rcases mem_cons.mp hb' with rfl | hb'
        · exact absurd hbs hl
        · exact (ih ⟨b', hb', hbs⟩).cons _

theorem carried_pushBatch (bs : BucketShard) (bss : List (Nat × List BucketShard)) :
    Carried cfg bs (pushBatch (chooseOid cfg bs) bs bss) := by
  induction bss with
  | nil => exact ⟨_, mem_singleton_self _, mem_singleton_self bs, rfl⟩
  | cons b bss ih =>
    simp only [pushBatch]
    split_ifs with hlt heq
    · exact ⟨_, mem_cons_self, mem_singleton_self bs, rfl⟩
    · exact ⟨_, mem_cons_self, mem_append_right _ (mem_singleton_self bs), heq.symm⟩
    · exact ih.cons _

theorem carried_batches {entries : List BucketShard} (h : bs ∈ entries) :
    Carried cfg bs (batches cfg entries) := by
  induction entries using List.reverseRecOn with
  | nil => cases h
  | append_singleton entries x ih =>
    rw [batches, foldl_append]
    rcases mem_append.mp h with h | h
    · exact (ih h).pushBatch _ _
    · obtain rfl := mem_singleton.mp h
      exact carried_pushBatch bs _

namespace Renewer

variable {ren : Renewer}

def todo : Renewer → List (Nat × List BucketShard)
  | idle => []
  | sending _ bss => bss
  | updating _ _ _ bss => bss

def left : Renewer → Nat
  | idle => 0
  | sending _ bss => 1 + (bss.map fun b => b.2.length + 2).sum
  | updating _ shards _ bss => shards.length + 2 + (bss.map fun b => b.2.length + 2).sum

/-- A renewal comes to its end. -/
theorem step_left (hren : ren ≠ idle) : (ren.step cfg inp m).1.left < ren.left := by
  cases ren with
  | idle => exact absurd rfl hren
  | sending ut bss =>
    cases bss with
    | nil => simp [step, left]
    | cons b bss =>
      simp only [step]
      split_ifs
      · simp [left]
      · simp only [left, map_cons, sum_cons]
        omega
  | updating ut shards expiration bss =>
    cases shards with
    | nil =>
      simp only [step, left, length_nil]
      omega
    | cons x shards =>
      simp only [step, left, length_cons]
      omega

theorem step_curCycle (hren : ren ≠ idle) : (ren.step cfg inp m).2.curCycle = m.curCycle := by
  cases ren with
  | idle => exact absurd rfl hren
  | sending ut bss =>
    cases bss with
    | nil => rfl
    | cons b bss =>
      simp only [step]
      split_ifs <;> rfl
  | updating ut shards expiration bss =>
    cases shards with
    | nil => rfl
    | cons x shards => exact updateRenewed_curCycle m x expiration

/-- A batch that is to be written is written, dropped by an error, or still carried. -/
theorem step_carried (h : Carried cfg bs ren.todo) :
    (∃ ut b rest, ren = sending ut (b :: rest) ∧ inp.ret < 0) ∨
      (∃ new, (ren.step cfg inp m).2.log = m.log ++ new ∧ ∃ r ∈ new, r.For cfg bs) ∨
      Carried cfg bs (ren.step cfg inp m).1.todo := by
  cases ren with
  | idle =>
    obtain ⟨b, hb, -⟩ := h
    cases hb
  | sending ut bss =>
    cases bss with
    | nil =>
      obtain ⟨b, hb, -⟩ := h
      cases hb
    | cons b rest =>
      by_cases hret : inp.ret < 0
      · exact .inl ⟨ut, b, rest, rfl, hret⟩
      · right
        simp only [step, if_neg hret]
        by_cases hbs : bs ∈ b.2 ∧ b.1 = chooseOid cfg bs
        · left
          exact ⟨_, rfl, _, List.mem_map_of_mem hbs.1, hbs.2, rfl⟩
        · right
          obtain ⟨b', hb', hbs'⟩ := h
          rcases mem_cons.mp hb' with rfl | hb'
          · exact absurd hbs' hbs
          · exact ⟨b', hb', hbs'⟩
  | updating ut shards expiration bss => cases shards <;> exact .inr (.inr h)

end Renewer

namespace Run

variable {r : Run cfg} {n k i : ℕ}

theorem next_call (hlabel : r.label n = .call bs) : r.state (n + 1) = { r.state n with
      callers := (r.state n).callers ++ [if cfg.logData then .entered bs
        else .returned bs 0] } := by
  have hnext := r.next n
  rw [hlabel] at hnext
  exact (some.inj hnext).symm

theorem next_step (hlabel : r.label n = .step i inp) : ∃ c c', (r.state n).callers[i]? = some c ∧
      c.step cfg inp (r.state n).mem = some (c', (r.state (n + 1)).mem) ∧
      (r.state (n + 1)).callers = (r.state n).callers.set i c' ∧
      (r.state (n + 1)).renewer = (r.state n).renewer := by
  have hnext := r.next n
  rw [hlabel] at hnext
  obtain ⟨⟨c', m'⟩, hbind, hstate⟩ := map_eq_some_iff.mp hnext
  obtain ⟨c, hc, hstep⟩ := bind_eq_some_iff.mp hbind
  rw [← hstate]
  exact ⟨c, c', hc, hstep, rfl, rfl⟩

theorem next_renew (hlabel : r.label n = .renew inp) :
    (r.state (n + 1)).mem = ((r.state n).renewer.step cfg inp (r.state n).mem).2 ∧
      (r.state (n + 1)).renewer = ((r.state n).renewer.step cfg inp (r.state n).mem).1 ∧
      (r.state (n + 1)).callers = (r.state n).callers := by
  have hnext := r.next n
  rw [hlabel] at hnext
  rw [← some.inj hnext]
  exact ⟨rfl, rfl, rfl⟩

theorem next_other (hlabel : ¬∃ inp, r.label n = .renew inp) :
    (r.state (n + 1)).renewer = (r.state n).renewer ∧
      (r.state n).mem.curCycle ⊆ (r.state (n + 1)).mem.curCycle := by
  cases hl : r.label n with
  | call bs =>
    rw [next_call hl]
    exact ⟨rfl, List.Subset.refl _⟩
  | step i inp =>
    obtain ⟨c, c', -, hstep, -, hren⟩ := next_step hl
    exact ⟨hren, (Caller.step_moves hstep).2.curCycle_subset⟩
  | renew inp => exact absurd ⟨inp, hl⟩ hlabel

theorem not_writes_of_log_eq (hlog : (r.state (n + 1)).mem.log = (r.state n).mem.log) :
    ¬r.Writes bs n := by
  rintro ⟨rec, hrec, -⟩
  rw [hlog, drop_length] at hrec
  cases hrec

theorem writes_of_log {new : List Record}
    (hlog : (r.state (n + 1)).mem.log = (r.state n).mem.log ++ new)
    (hnew : ∃ rec ∈ new, rec.For cfg bs) : r.Writes bs n := by
  rw [Writes, hlog, drop_left]
  exact hnew

/-- The renewal takes up what the current cycle holds. -/
theorem eventually_carried (hlogData : cfg.logData = true) (hfair : r.Renews)
    (h : bs ∈ (r.state n).mem.curCycle) :
    ∃ k ≥ n, Carried cfg bs (r.state (k + 1)).renewer.todo := by
  have hmove : ∀ n, bs ∈ (r.state n).mem.curCycle → (∃ inp, r.label n = .renew inp) →
      Carried cfg bs (r.state (n + 1)).renewer.todo ∨ bs ∈ (r.state (n + 1)).mem.curCycle ∧
        (r.state (n + 1)).renewer.left < (r.state n).renewer.left := by
    rintro n hbs ⟨inp, hlabel⟩
    obtain ⟨hmem, hren, -⟩ := next_renew hlabel
    rw [hmem, hren]
    by_cases hidle : (r.state n).renewer = .idle
    · left
      rw [hidle]
      simp only [Renewer.step, hlogData, if_true]
      exact carried_batches hbs
    · exact .inr ⟨by rwa [Renewer.step_curCycle hidle], Renewer.step_left hidle⟩
  refine Temporal.eventually_of_rank (fun n => bs ∈ (r.state n).mem.curCycle)
    (fun n => Carried cfg bs (r.state (n + 1)).renewer.todo) (fun n => (r.state n).renewer.left)
    hfair ?_ hmove h
  intro n hbs
  by_cases hlabel : ∃ inp, r.label n = .renew inp
  · exact (hmove n hbs hlabel).imp_right (And.imp_right le_of_lt)
  · obtain ⟨hren, hsub⟩ := next_other hlabel
    exact .inr ⟨hsub hbs, by rw [hren]⟩

/-- In the step a cycle fails that still has the shard to write. -/
def Drops (r : Run cfg) (bs : BucketShard) (n : ℕ) : Prop :=
  Carried cfg bs (r.state n).renewer.todo ∧ r.RenewalFails n

/-- What is carried is written or dropped in the end. -/
theorem eventually_written (hfair : r.Renews) (h : Carried cfg bs (r.state n).renewer.todo) :
    ∃ k ≥ n, r.Writes bs k ∨ r.Drops bs k := by
  have hmove : ∀ n, Carried cfg bs (r.state n).renewer.todo → (∃ inp, r.label n = .renew inp) →
      (r.Writes bs n ∨ r.Drops bs n) ∨ Carried cfg bs (r.state (n + 1)).renewer.todo ∧
        (r.state (n + 1)).renewer.left < (r.state n).renewer.left := by
    rintro n hbs ⟨inp, hlabel⟩
    obtain ⟨hmem, hren, -⟩ := next_renew hlabel
    have hidle : (r.state n).renewer ≠ .idle := by
      intro hidle
      rw [hidle] at hbs
      obtain ⟨b, hb, -⟩ := hbs
      cases hb
    rcases Renewer.step_carried hbs with ⟨ut, b, rest, hsending, hret⟩ | ⟨new, hlog,
      hnew⟩ | hcarried
    · exact .inl (.inr ⟨hbs, inp, ut, b, rest, hlabel, hsending, hret⟩)
    · exact .inl (.inl (writes_of_log (by rw [hmem]; exact hlog) hnew))
    · rw [hren]
      exact .inr ⟨hcarried, Renewer.step_left hidle⟩
  refine Temporal.eventually_of_rank (fun n => Carried cfg bs (r.state n).renewer.todo)
    (fun n => r.Writes bs n ∨ r.Drops bs n) (fun n => (r.state n).renewer.left) hfair ?_ hmove h
  intro n hbs
  by_cases hlabel : ∃ inp, r.label n = .renew inp
  · exact (hmove n hbs hlabel).imp_right (And.imp_right le_of_lt)
  · obtain ⟨hren, -⟩ := next_other hlabel
    exact .inr ⟨by rwa [hren], by rw [hren]⟩

def Accounted (r : Run cfg) (bs : BucketShard) (n : ℕ) : Prop :=
  (∃ k ≥ n, r.Writes bs k) ∨ ∃ k ≥ n, bs ∈ (r.state k).mem.curCycle

/-- A call that returns 0 has its change written to the log behind it, or in a cycle that will be.
-/
theorem caller_accounted (hlogData : cfg.logData = true) (hcall : r.label n = .call bs)
    (hi : (r.state n).callers.length = i) (hk : n + 1 ≤ k) :
    ∃ c, (r.state k).callers[i]? = some c ∧ c.shard = bs ∧
    (c.outcome = some 0 → r.Accounted bs n) := by
  induction k, hk using Nat.le_induction with
  | base =>
    refine ⟨.entered bs, ?_, rfl, nofun⟩
    rw [next_call hcall]
    simp [← hi, hlogData]
  | succ k hk ih =>
    obtain ⟨c, hc, hshard, hacc⟩ := ih
    cases hl : r.label k with
    | call bs' =>
      refine ⟨c, ?_, hshard, hacc⟩
      rw [next_call hl]
      exact (getElem?_append_left (List.getElem?_eq_some_iff.mp hc).1).trans hc
    | renew inp =>
      obtain ⟨-, -, hcallers⟩ := next_renew hl
      exact ⟨c, by rwa [hcallers], hshard, hacc⟩
    | step j inp =>
      obtain ⟨c₀, c', hc₀, hstep, hcallers, -⟩ := next_step hl
      rw [hcallers]
      by_cases hij : j = i
      · subst hij
        obtain rfl := some.inj (hc.symm.trans hc₀)
        obtain ⟨hshard', hmoves⟩ := Caller.step_moves hstep
        refine ⟨c', getElem?_set_self (List.getElem?_eq_some_iff.mp hc).1, hshard'.trans hshard,
          fun hout => ?_⟩
        cases hmoves with
        | quiet hlog hcycle houtcome => exact hacc (houtcome hout)
        | registers hlog hcycle =>
          refine .inr ⟨k + 1, by omega, ?_⟩
          rw [hcycle, ← hshard]
          exact mem_registerRenew _ _
        | writes now hlog hcycle =>
          refine .inl ⟨k, by omega, writes_of_log hlog ⟨_, mem_singleton_self _, ?_⟩⟩
          rw [← hshard]
          exact ⟨rfl, rfl⟩
      · exact ⟨c, by rwa [getElem?_set_ne hij], hshard, hacc⟩

end Run

namespace Sample

def config : Config where
  logData := true
  numShards := 1
  hash _ := 0
  window := 30
  changesSize := 10

def shard : BucketShard := ⟨ascii "b", ascii "1", 0⟩

def calls : List Label :=
  [.call shard, .step 0 {}, .step 0 {}, .step 0 {}, .step 0 { now := 1, later := 1 }, .step 0 {},
    .call shard, .step 1 {}, .step 1 { now := 1 }, .step 1 {}]

def failed : List Label := calls ++ [.renew { now := 2 }, .renew { err := some 4 }]

def label (ls : List Label) (n : ℕ) : Label := ls.getD n (.renew {})

def state (ls : List Label) : ℕ → State
  | 0 => {}
  | n + 1 => (step config (state ls n) (label ls n)).getD (state ls n)

def run (ls : List Label) (h : ∀ n < ls.length, (step config (state ls n) (label ls n)).isSome) :
    Run config where
  state := state ls
  label := label ls
  start := rfl
  next := by
    intro n
    have hsome : (step config (state ls n) (label ls n)).isSome := by
      by_cases hn : n < ls.length
      · exact h n hn
      · rw [label, getD_eq_default _ _ (not_lt.mp hn)]
        rfl
    obtain ⟨s, hs⟩ := isSome_iff_exists.mp hsome
    rw [state, hs]
    rfl

variable {ls : List Label} {h : ∀ n < ls.length, (step config (state ls n) (label ls n)).isSome}

theorem renews : (run ls h).Renews := by
  intro n
  refine ⟨max n ls.length, le_max_left _ _, {}, ?_⟩
  exact getD_eq_default _ _ (le_max_right _ _)

/-- Nothing moves in a log that rests. -/
theorem mem_of_resting {N : ℕ} (hN : ls.length ≤ N) (hidle : (state ls N).renewer = .idle)
    (hcycle : (state ls N).mem.curCycle = []) {k : ℕ} (hk : N ≤ k) :
    (state ls k).mem = (state ls N).mem ∧
      ((state ls k).renewer = .idle ∨ (state ls k).renewer = .sending 0 []) := by
  induction k, hk using Nat.le_induction with
  | base => exact ⟨rfl, .inl hidle⟩
  | succ k hk ih =>
    obtain ⟨hmem, hren⟩ := ih
    rw [state, label, getD_eq_default _ _ (hN.trans hk)]
    simp only [step, getD_some]
    rcases hren with hren | hren
    · rw [hren, ← hmem]
      refine ⟨?_, .inr ?_⟩
      · simp only [Renewer.step, config, if_true, hmem]
        rw [← hcycle]
      · simp only [Renewer.step, config, if_true, hmem, hcycle]
        rfl
    · rw [hren]
      exact ⟨hmem, .inl rfl⟩

theorem not_fails_of_le {k : ℕ} (hk : ls.length ≤ k) : ¬(run ls h).Fails k := by
  have hlabel : (run ls h).label k = .renew {} := getD_eq_default _ _ hk
  rintro (⟨i, inp, bs, p, now, hl, -⟩ | ⟨inp, ut, b, rest, hl, -, hret⟩)
  · rw [hlabel] at hl
    cases hl
  · rw [hlabel] at hl
    cases hl
    exact absurd hret (by decide)

end Sample

end RadosGateway.DataChangesLog
