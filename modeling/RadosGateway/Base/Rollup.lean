import Mathlib

/-!
# Items listed in pages

Keys come in order, and several may stand for one item. A listing asks for them in pages: a page has
one key more than items are missing, an item is taken when it is met for the first time, and the
listing is left where there is no room for a new one.
-/

namespace Rollup

open List

variable {α ι : Type*} [DecidableEq ι]

def once : List ι → List ι
  | [] => []
  | i :: is => i :: (once is).filter (· ≠ i)

def fresh (known is : List ι) : List ι := (once is).filter (· ∉ known)

variable {i : ι}

theorem mem_once {is : List ι} : i ∈ once is ↔ i ∈ is := by
  induction is with
  | nil => rfl
  | cons j is ih =>
    rw [once, mem_cons, mem_cons, mem_filter, ih, decide_eq_true_iff]
    by_cases h : i = j
    · simp [h]
    · simp [h]

variable {known is : List ι}

theorem mem_fresh : i ∈ fresh known is ↔ i ∈ is ∧ i ∉ known := by
  rw [fresh, mem_filter, mem_once, decide_eq_true_iff]

theorem fresh_nil (is : List ι) : fresh [] is = once is := by
  rw [fresh, filter_eq_self]
  simp

theorem fresh_cons_of_mem (h : i ∈ known) : fresh known (i :: is) = fresh known is := by
  rw [fresh, once, filter_cons_of_neg (by simpa using h), filter_filter, fresh]
  apply filter_congr
  intro j _
  by_cases hj : j ∈ known
  · simp [hj]
  · have hne : j ≠ i := fun heq => hj (heq ▸ h)
    simp [hj, hne]

theorem fresh_cons_of_notMem (h : i ∉ known) :
    fresh known (i :: is) = i :: fresh (known ++ [i]) is := by
  rw [fresh, once, filter_cons_of_pos (by simpa using h), filter_filter, fresh]
  congr 1
  apply filter_congr
  simp [mem_append]

theorem fresh_append (known is is' : List ι) :
    fresh known (is ++ is') = fresh known is ++ fresh (known ++ fresh known is) is' := by
  induction is generalizing known with
  | nil =>
    change fresh known is' = fresh (known ++ []) is'
    rw [append_nil]
  | cons i is ih =>
    by_cases h : i ∈ known
    · rw [cons_append, fresh_cons_of_mem h, fresh_cons_of_mem h, ih]
    · rw [cons_append, fresh_cons_of_notMem h, fresh_cons_of_notMem h, ih, cons_append,
        append_assoc, singleton_append]

theorem fresh_eq_nil_iff : fresh known is = [] ↔ ∀ i ∈ is, i ∈ known := by
  rw [eq_nil_iff_forall_not_mem]
  constructor
  · intro h i hi
    by_contra hnew
    exact h i (mem_fresh.mpr ⟨hi, hnew⟩)
  · intro h i hi
    obtain ⟨hmem, hnew⟩ := mem_fresh.mp hi
    exact hnew (h i hmem)

section Keys

variable {item : α → ι}

variable {R : List α}

theorem fresh_filter {known : List ι} {p : α → Bool} (h : ∀ k ∈ R, item k ∉ known → p k = true) :
    fresh known ((R.filter p).map item) = fresh known (R.map item) := by
  induction R generalizing known with
  | nil => rfl
  | cons k R ih =>
    obtain ⟨hk, hR⟩ := forall_mem_cons.mp h
    rw [map_cons]
    by_cases hknown : item k ∈ known
    · rw [fresh_cons_of_mem hknown, ← ih hR]
      cases hp : p k with
      | true => rw [filter_cons_of_pos hp, map_cons, fresh_cons_of_mem hknown]
      | false => rw [filter_cons_of_neg (by simp [hp])]
    · rw [filter_cons_of_pos (hk hknown), map_cons, fresh_cons_of_notMem hknown,
        fresh_cons_of_notMem hknown, ih]
      intro k' hk' hnew
      exact hR k' hk' fun hmem => hnew (mem_append_left _ hmem)

theorem fresh_eq_cons {known : List ι} (h : fresh known (R.map item) ≠ []) :
    ∃ A k B is, R = A ++ k :: B ∧ (∀ a ∈ A, item a ∈ known) ∧ item k ∉ known ∧
      fresh known (R.map item) = item k :: is := by
  induction R with
  | nil => exact absurd rfl h
  | cons k R ih =>
    rw [map_cons] at h ⊢
    by_cases hk : item k ∈ known
    · rw [fresh_cons_of_mem hk] at h ⊢
      obtain ⟨A, k', B, is, rfl, hA, hk', his⟩ := ih h
      exact ⟨k :: A, k', B, is, rfl, forall_mem_cons.mpr ⟨hk, hA⟩, hk', his⟩
    · exact ⟨[], k, R, _, rfl, forall_mem_nil _, hk, fresh_cons_of_notMem hk⟩

end Keys

def walk (n : Nat) : List ι → List ι → List ι × Bool
  | [], known => (known, false)
  | i :: is, known =>
    if i ∈ known then walk n is known
    else if n ≤ known.length then (known, true)
    else walk n is (known ++ [i])

theorem walk_cons (n : Nat) (i : ι) (is known : List ι) : walk n (i :: is) known =
      if (walk n [i] known).2 then walk n [i] known else walk n is (walk n [i] known).1 := by
  simp only [walk]
  by_cases hi : i ∈ known
  · simp [hi]
  · by_cases hfull : n ≤ known.length
    · simp [hi, hfull]
    · simp [hi, hfull]

theorem mem_of_mem_walk {n : Nat} {is known : List ι} {j : ι} (hj : j ∈ (walk n is known).1) :
    j ∈ known ∨ j ∈ is := by
  induction is generalizing known with
  | nil => exact .inl hj
  | cons i is ih =>
    rw [walk] at hj
    split_ifs at hj with hi hfull
    · exact (ih hj).imp_right (mem_cons_of_mem i)
    · exact .inl hj
    · rcases ih hj with hj | hj
      · refine (mem_append.mp hj).imp_right fun hj => ?_
        rw [mem_singleton.mp hj]
        exact mem_cons_self
      · exact .inr (mem_cons_of_mem i hj)

/-- A walk over all items in closed form: the first `n` different ones, and whether there are more.
-/
theorem walk_eq {n : Nat} {is known : List ι} (h : known.length ≤ n) :
    walk n is known = (known ++ (fresh known is).take (n - known.length),
      decide (n < known.length + (fresh known is).length)) := by
  induction is generalizing known with
  | nil =>
    change (known, false) = (known ++ ([] : List ι).take _, decide (n < known.length + 0))
    rw [take_nil, append_nil, decide_eq_false (by omega)]
  | cons i is ih =>
    rw [walk]
    by_cases hi : i ∈ known
    · rw [if_pos hi, fresh_cons_of_mem hi, ih h]
    rw [if_neg hi, fresh_cons_of_notMem hi]
    by_cases hfull : n ≤ known.length
    · rw [if_pos hfull, Nat.sub_eq_zero_of_le hfull, take_zero, append_nil, length_cons,
        decide_eq_true (by omega)]
    · have hlength : (known ++ [i]).length = known.length + 1 := by simp
      rw [if_neg hfull, ih (by omega), hlength]
      obtain ⟨m, hm⟩ : ∃ m, n - known.length = m + 1 := ⟨n - known.length - 1, by omega⟩
      rw [hm, take_succ_cons, append_assoc, singleton_append, length_cons,
        show n - (known.length + 1) = m by omega]
      rw [add_right_comm, add_assoc]

theorem length_walk_le {n : Nat} {is known : List ι} (h : known.length ≤ n) :
    (walk n is known).1.length ≤ n := by
  rw [walk_eq h, length_append, length_take]
  omega

theorem walk_append {n : Nat} {is known : List ι} (is' : List ι)
    (h : known.length + (fresh known is).length ≤ n) :
    walk n (is ++ is') known = walk n (is ++ is') (known ++ fresh known is) := by
  have hknown : fresh (known ++ fresh known is) is = [] := by
    rw [fresh_eq_nil_iff]
    intro i hi
    by_cases hmem : i ∈ known
    · exact mem_append_left _ hmem
    · exact mem_append_right _ (mem_fresh.mpr ⟨hi, hmem⟩)
  have hlength : (known ++ fresh known is).length = known.length + (fresh known is).length :=
    length_append
  rw [walk_eq (by omega), walk_eq (by omega), fresh_append, fresh_append, hknown, append_nil,
    nil_append,
    hlength, length_append, append_assoc, take_append, take_of_length_le (by omega),
    add_assoc, Nat.sub_sub]

section Pages

variable (item : α → ι) (past : List ι → List α → α → Bool) (n : Nat)

def scan : Nat → List α → List ι → Option (List ι × Bool)
  | 0, _, _ => none
  | fuel + 1, R, known =>
    let page := R.take (n + 1 - known.length)
    match walk n (page.map item) known with
    | (known, true) => some (known, true)
    | (known', false) =>
      if n + 1 - known.length < R.length then scan fuel (R.filter (past known' page)) known'
      else some (known', false)

def after (R : List α) (known : List ι) : List ι :=
  known ++ fresh known ((R.take (n + 1 - known.length)).map item)

def rest (R : List α) (known : List ι) : List α :=
  R.filter (past (after item n R known) (R.take (n + 1 - known.length)))

structure Cut (R : List α) (known : List ι) : Prop where
  more : n + 1 - known.length < R.length
  room : (after item n R known).length ≤ n

inductive Lost : List α → List ι → Prop
  | one {R : List α} {known : List ι} {k : α} (hcut : Cut item n R known)
      (hroom : (after item n R known).length <
        n) (hk : k ∈ R) (hnew : item k ∉ after item n R known)
      (hlost : k ∉ rest item past n R known) : Lost R known
  | all {R : List α} {known : List ι} {k : α} (hcut : Cut item n R known)
      (hfull : (after item n R known).length =
        n) (hk : k ∈ R) (hnew : item k ∉ after item n R known)
      (hlost : ∀ k' ∈ rest item past n R known, item k' ∈ after item n R known) : Lost R known
  | later {R : List α} {known : List ι} (hcut : Cut item n R known)
    (hroom : (after item n R known).length < n)
      (h : Lost (rest item past n R known) (after item n R known)) : Lost R known

structure Jumps (lt : α → α → Prop) : Prop where
  page : ∀ {known page k}, page.Pairwise lt → k ∈ page → past known page k = false
  upward : ∀ {known page k k'}, lt k k' → past known page k = true → past known page k' = true
  whole : ∀ {known page k k'}, (∀ i ∈ known, ∃ k, item k = i) → (∀ l ∈ page, lt l k) →
    item k = item k' →
    past known page k' = true → past known page k = true
  again : ∀ {known page k k'}, past known page k = true → lt k k' → past known [k] k' = true

variable {item past n}

variable {fuel : Nat} {R : List α} {known : List ι}

theorem scan_succ (h : known.length ≤ n) :
    scan item past n (fuel + 1) R known = if (after item n R known).length ≤ n then
        if n + 1 - known.length < R.length then scan item past n fuel (rest item past n R known)
    (after item n R known)
        else some (after item n R known, false) else some (walk n (R.map item) known) := by
  have hlength : (after item n R known).length =
      known.length + (fresh known ((R.take (n + 1 - known.length)).map item)).length :=
        length_append
  rw [scan, walk_eq h]
  by_cases hroom : (after item n R known).length ≤ n
  · rw [if_pos hroom, take_of_length_le (by omega), decide_eq_false (by omega)]
    rfl
  · rw [if_neg hroom, decide_eq_true (by omega)]
    have hsplit : R.map item = (R.take (n + 1 - known.length)).map item ++
        (R.drop (n + 1 - known.length)).map item := by
      rw [← map_append, take_append_drop]
    rw [walk_eq h, hsplit, fresh_append, take_append_of_le_length (by omega), length_append,
      decide_eq_true (by omega)]

variable {res : List ι × Bool}

/-- A scan in pages reports only what it was given. -/
theorem mem_of_scan (h : known.length ≤ n) (hscan : scan item past n fuel R known = some res)
    (hi : i ∈ res.1) :
    i ∈ known ∨ ∃ k ∈ R, item k = i := by
  induction fuel generalizing R known with
  | zero => cases hscan
  | succ fuel ih =>
    have hafter : ∀ i ∈ after item n R known, i ∈ known ∨ ∃ k ∈ R, item k = i := by
      intro i hi
      refine (mem_append.mp hi).imp_right fun hi => ?_
      obtain ⟨k, hk, rfl⟩ := mem_map.mp (mem_fresh.mp hi).1
      exact ⟨k, mem_of_mem_take hk, rfl⟩
    rw [scan_succ h] at hscan
    split_ifs at hscan with hroom hmore
    · rcases ih hroom hscan with hi | ⟨k, hk, rfl⟩
      · exact hafter i hi
      · exact .inr ⟨k, mem_of_mem_filter hk, rfl⟩
    · cases hscan
      exact hafter i hi
    · cases hscan
      rw [walk_eq h] at hi
      refine (mem_append.mp hi).imp_right fun hi => ?_
      obtain ⟨k, hk, rfl⟩ := mem_map.mp (mem_fresh.mp (mem_of_mem_take hi)).1
      exact ⟨k, hk, rfl⟩

theorem walk_after (hroom : (after item n R known).length ≤ n) :
    walk n (R.map item) known = walk n (R.map item) (after item n R known) := by
  have hsplit : R.map item = (R.take (n + 1 - known.length)).map item ++
      (R.drop (n + 1 - known.length)).map item := by
    rw [← map_append, take_append_drop]
  rw [after, length_append] at hroom
  rw [after, hsplit]
  exact walk_append _ hroom

theorem walk_rest (hroom : (after item n R known).length ≤ n)
    (hkept : ∀ k ∈ R, item k ∉ after item n R known → k ∈ rest item past n R known) :
    walk n ((rest item past n R known).map item)
    (after item n R known) = walk n (R.map item) known := by
  rw [walk_after hroom, walk_eq hroom, walk_eq hroom, rest, fresh_filter]
  intro k hk hnew
  exact (mem_filter.mp (hkept k hk hnew)).2

theorem pairwise_rest {lt : α → α → Prop} (hR : R.Pairwise lt) :
    (rest item past n R known).Pairwise lt :=
  hR.sublist filter_sublist

theorem mem_after_of_mem_take {k : α} (h : k ∈ R.take (n + 1 - known.length)) :
    item k ∈ after item n R known := by
  by_cases hknown : item k ∈ known
  · exact mem_append_left _ hknown
  · exact mem_append_right _ (mem_fresh.mpr ⟨mem_map_of_mem h, hknown⟩)

theorem exists_of_mem_after (hknown : ∀ i ∈ known, ∃ k, item k = i) :
    ∀ i ∈ after item n R known, ∃ k, item k = i := by
  intro i hi
  rcases mem_append.mp hi with hi | hi
  · exact hknown i hi
  · obtain ⟨k, -, rfl⟩ := mem_map.mp (mem_fresh.mp hi).1
    exact ⟨k, rfl⟩

theorem walk_full (hfull : known.length = n) :
    walk n (R.map item) known = (known, decide (∃ k ∈ R, item k ∉ known)) := by
  rw [walk_eq hfull.le, hfull, Nat.sub_self, take_zero, append_nil]
  congr 1
  rw [decide_eq_decide, Nat.lt_add_right_iff_pos, length_pos_iff_exists_mem]
  constructor
  · rintro ⟨i, hi⟩
    obtain ⟨hmem, hnew⟩ := mem_fresh.mp hi
    obtain ⟨k, hk, rfl⟩ := mem_map.mp hmem
    exact ⟨k, hk, hnew⟩
  · rintro ⟨k, hk, hnew⟩
    exact ⟨item k, mem_fresh.mpr ⟨mem_map_of_mem hk, hnew⟩⟩

section Jumps

variable {lt : α → α → Prop} (hjumps : Jumps item past lt)

include hjumps

section

variable (hR : R.Pairwise lt)
include hR

theorem length_rest_lt (h : known.length ≤ n)
    (hmore : n + 1 - known.length < R.length) : (rest item past n R known).length < R.length := by
  obtain ⟨k, R', rfl⟩ : ∃ k R', R = k :: R' := exists_cons_of_length_pos (by omega)
  have hpage : k ∈ (k :: R').take (n + 1 - known.length) := by
    rw [Nat.sub_add_comm h, take_succ_cons]
    exact mem_cons_self
  rw [rest, length_filter_lt_length_iff_exists]
  refine ⟨k, mem_cons_self, ?_⟩
  rw [hjumps.page (hR.sublist (take_sublist _ _)) hpage]
  exact Bool.false_ne_true

theorem scan_isSome (h : known.length ≤ n)
    (hfuel : R.length < fuel) : ∃ res, scan item past n fuel R known = some res := by
  induction fuel generalizing R known with
  | zero => omega
  | succ fuel ih =>
    rw [scan_succ h]
    split_ifs with hroom hmore
    · have hlength := length_rest_lt hjumps hR h hmore
      exact ih (pairwise_rest hR) hroom (by omega)
    · exact ⟨_, rfl⟩
    · exact ⟨_, rfl⟩

theorem scan_of_full (hfull : known.length = n)
    (hpast : ∀ k ∈ R, ∃ page, past known page k = true) (hfuel : R.length < fuel) :
    scan item past n fuel R known = some (walk n (R.map item) known) := by
  induction R generalizing fuel with
  | nil =>
    obtain ⟨fuel, rfl⟩ : ∃ f, fuel = f + 1 := ⟨fuel - 1, by omega⟩
    rw [scan, take_nil, map_nil, walk]
    exact if_neg (Nat.not_lt_zero _)
  | cons k R ih =>
    obtain ⟨fuel, rfl⟩ : ∃ f, fuel = f + 1 := ⟨fuel - 1, by omega⟩
    obtain ⟨hk, hR'⟩ := pairwise_cons.mp hR
    obtain ⟨⟨page, hpage⟩, hpast'⟩ := forall_mem_cons.mp hpast
    have hone : n + 1 - known.length = 1 := by omega
    have hnext : (k :: R).filter (past known [k]) = R := by
      rw [filter_cons_of_neg (by rw [hjumps.page (pairwise_singleton lt k) mem_cons_self]; simp),
        filter_eq_self]
      intro k' hk'
      exact hjumps.again hpage (hk k' hk')
    rw [length_cons] at hfuel
    rw [scan, hone, take_succ_cons, take_zero, map_cons, map_cons, map_nil, walk, walk]
    by_cases hknown : item k ∈ known
    · rw [if_pos hknown, walk, if_pos hknown]
      dsimp only
      rw [hnext]
      split_ifs with hmore
      · exact ih hR' hpast' (by omega)
      · have hnil : R = [] := eq_nil_of_length_eq_zero (by rw [length_cons] at hmore; omega)
        rw [hnil]
        rfl
    · rw [if_neg hknown, if_pos hfull.ge, walk, if_neg hknown, if_pos hfull.ge]

theorem scan_rest_of_full (hfull : (after item n R known).length = n)
    (hfuel : (rest item past n R known).length < fuel) :
    scan item past n fuel (rest item past n R known) (after item n R known) =
      some (after item n R known,
        decide (∃ k ∈ rest item past n R known, item k ∉ after item n R known)) := by
  have hpast : ∀ k ∈ rest item past n R known, ∃ page, past (after item n R known) page k = true :=
    fun k hk => ⟨_, (mem_filter.mp hk).2⟩
  rw [scan_of_full hjumps (pairwise_rest hR) hfull hpast hfuel, walk_full hfull]

/-- Pages that lose nothing give what one walk gives. -/
theorem scan_eq_walk (h : known.length ≤ n) (hfuel : R.length < fuel)
    (hkept : ¬ Lost item past n R known) :
    scan item past n fuel R known = some (walk n (R.map item) known) := by
  induction fuel generalizing R known with
  | zero => omega
  | succ fuel ih =>
    rw [scan_succ h]
    split_ifs with hroom hmore
    · have hcut : Cut item n R known := ⟨hmore, hroom⟩
      have hlength := length_rest_lt hjumps hR h hmore
      rcases hroom.lt_or_eq with hlt | hfull
      · have hrest : ∀ k ∈ R, item k ∉ after item n R known → k ∈ rest item past n R known := by
          intro k hk hnew
          by_contra hlost
          exact hkept (.one hcut hlt hk hnew hlost)
        rw [ih (pairwise_rest hR) hroom (by omega) fun hlost => hkept (.later hcut hlt hlost),
          walk_rest hroom hrest]
      · rw [scan_rest_of_full hjumps hR hfull (by omega), walk_after hroom, walk_full hfull]
        congr 2
        rw [decide_eq_decide]
        constructor
        · rintro ⟨k, hk, hnew⟩
          exact ⟨k, mem_of_mem_filter hk, hnew⟩
        · rintro ⟨k, hk, hnew⟩
          by_contra hnone
          refine hkept (.all hcut hfull hk hnew fun k' hk' => ?_)
          by_contra hnew'
          exact hnone ⟨k', hk', hnew'⟩
    · have hpage : R.take (n + 1 - known.length) = R := take_of_length_le (by omega)
      rw [after, hpage, length_append] at hroom
      rw [after, hpage, walk_eq h, take_of_length_le (by omega), decide_eq_false (by omega)]
    · rfl

theorem exists_missing (hknown : ∀ i ∈ known, ∃ k, item k = i)
    (hroom : (after item n R known).length < n) {k : α} (hk : k ∈ R)
    (hnew : item k ∉ after item n R known) (hlost : k ∉ rest item past n R known)
    (hscan : scan item past n fuel (rest item past n R known) (after item n R known) = some res) :
    ∃ i ∈ (walk n (R.map item) known).1, i ∉ res.1 := by
  have hfresh : fresh (after item n R known) (R.map item) ≠ [] :=
    ne_nil_of_mem (mem_fresh.mpr ⟨mem_map_of_mem hk, hnew⟩)
  obtain ⟨A, k₀, B, is, hsplit, hA, hnew₀, his⟩ := fresh_eq_cons hfresh
  have hk₀ : k₀ ∈ R := by
    rw [hsplit]
    exact mem_append_right _ mem_cons_self
  refine ⟨item k₀, ?_, fun hmem => ?_⟩
  · obtain ⟨m, hm⟩ : ∃ m, n - (after item n R known).length = m + 1 :=
      ⟨n - (after item n R known).length - 1, by omega⟩
    rw [walk_after hroom.le, walk_eq hroom.le, his, hm, take_succ_cons]
    exact mem_append_right _ mem_cons_self
  · have hpassed : past (after item n R known) (R.take (n + 1 - known.length)) k₀ ≠ true := by
      intro hpast
      have hle : k = k₀ ∨ lt k₀ k := by
        rw [hsplit] at hk hR
        rcases mem_append.mp hk with hk | hk
        · exact absurd (hA k hk) hnew
        · refine (mem_cons.mp hk).imp_right fun hk => ?_
          exact (pairwise_cons.mp (pairwise_append.mp hR).2.1).1 k hk
      refine hlost (mem_filter.mpr ⟨hk, ?_⟩)
      rcases hle with rfl | hlt
      · exact hpast
      · exact hjumps.upward hlt hpast
    have hbehind : ∀ l ∈ R.take (n + 1 - known.length), lt l k₀ := by
      intro l hl
      have hdrop : k₀ ∈ R.drop (n + 1 - known.length) := by
        rw [← take_append_drop (n + 1 - known.length) R, mem_append] at hk₀
        exact hk₀.resolve_left fun htake => hnew₀ (mem_after_of_mem_take htake)
      rw [← take_append_drop (n + 1 - known.length) R, pairwise_append] at hR
      exact hR.2.2 l hl k₀ hdrop
    obtain ⟨k', hk', heq⟩ := (mem_of_scan hroom.le hscan hmem).resolve_left hnew₀
    exact hpassed (hjumps.whole (exists_of_mem_after hknown) hbehind heq.symm (mem_filter.mp hk').2)

end

/-- Pages that lose an item give another answer: it is missing, or whether there are more is wrong.
-/
theorem Lost.wrong (hlost : Lost item past n R known)
    (hR : R.Pairwise lt) (hknown : ∀ i ∈ known, ∃ k, item k = i) (h : known.length ≤ n)
    (hfuel : R.length < fuel) (hscan : scan item past n fuel R known = some res) :
    (∃ i ∈ (walk n (R.map item) known).1, i ∉ res.1) ∨ res.2 ≠ (walk n (R.map item) known).2 := by
  -- What the pages give is what they give behind the first one.
  have hnext : ∀ {fuel : Nat} {R : List α} {known : List ι}, R.Pairwise lt → known.length ≤ n →
    R.length < fuel →
      Cut item n R known → scan item past n fuel R known = some res → ∃ fuel',
        (rest item past n R known).length < fuel' ∧
          scan item past n fuel' (rest item past n R known) (after item n R known) = some res := by
    intro fuel R known hR h hfuel hcut hscan
    obtain ⟨fuel, rfl⟩ : ∃ f, fuel = f + 1 := ⟨fuel - 1, by omega⟩
    have hlength := length_rest_lt hjumps hR h hcut.more
    rw [scan_succ h, if_pos hcut.room, if_pos hcut.more] at hscan
    exact ⟨fuel, by omega, hscan⟩
  induction hlost generalizing fuel with
  | @one R known k hcut hroom hk hnew hgone =>
    obtain ⟨fuel', -, hscan'⟩ := hnext hR h hfuel hcut hscan
    exact .inl (exists_missing hjumps hR hknown hroom hk hnew hgone hscan')
  | @all R known k hcut hfull hk hnew hgone =>
    obtain ⟨fuel', hfuel', hscan'⟩ := hnext hR h hfuel hcut hscan
    rw [scan_rest_of_full hjumps hR hfull hfuel'] at hscan'
    cases hscan'
    right
    rw [walk_after hcut.room, walk_full hfull]
    have hmore : ∃ k ∈ R, item k ∉ after item n R known := ⟨k, hk, hnew⟩
    have hnone : ¬ ∃ k ∈ rest item past n R known, item k ∉ after item n R known :=
      fun ⟨k, hk, hnew⟩ => hnew (hgone k hk)
    rw [decide_eq_true hmore, decide_eq_false hnone]
    exact Bool.false_ne_true
  | @later R known hcut hroom hlost ih =>
    obtain ⟨fuel', hfuel', hscan'⟩ := hnext hR h hfuel hcut hscan
    by_cases hkept : ∀ k ∈ R, item k ∉ after item n R known → k ∈ rest item past n R known
    · rw [← walk_rest hcut.room hkept]
      exact ih (pairwise_rest hR) (exists_of_mem_after hknown) hcut.room hfuel' hscan'
    · push Not at hkept
      obtain ⟨k, hk, hnew, hgone⟩ := hkept
      exact .inl (exists_missing hjumps hR hknown hroom hk hnew hgone hscan')

end Jumps

end Pages

end Rollup
