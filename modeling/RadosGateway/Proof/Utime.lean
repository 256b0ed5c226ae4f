import RadosGateway.Utime

/-!
# Sums and differences of times

The operators with a `double` leave a full second of nanoseconds as it is.
-/

namespace RadosGateway.Utime

/-- Less than a second of nanoseconds. -/
def Normal (t : Utime) : Prop := t.nsec.toNat < 1000000000

def Is (t : Utime) (n : Nat) : Prop := t.Normal ∧ t.toNsec = n

variable {a b : Utime}

theorem nsecs_eq (h : a.Normal) : a.nsecs = a.nsec.toNat := by
  rw [Normal] at h
  rw [nsecs, BitVec.toInt_eq_toNat_of_lt (by omega)]

/-- The `double` that stands for a time. -/
def toDouble (t : Utime) : Rat := t.sec.toNat + t.nsec.toNat / 1000000000

/-- The numbers between zero and `2 ^ 53` that are a `double`: a mantissa of 53 bits over a power of
two. -/
def IsDouble (f : Rat) : Prop := ∃ m e : Nat, m < 2 ^ 53 ∧ f = m / 2 ^ e

/-- A time is a `double` when its nanoseconds are a multiple of `2 ^ -9` seconds. -/
theorem isDouble_toDouble_iff (h : b.Normal) : IsDouble b.toDouble ↔ 5 ^ 9 ∣ b.nsec.toNat := by
  rw [Normal] at h
  have hsec := b.sec.isLt
  constructor
  · rintro ⟨m, e, -, heq⟩
    rw [toDouble, eq_div_iff (by positivity)] at heq
    have hscaled : (b.sec.toNat * 10 ^ 9 + b.nsec.toNat) * 2 ^ e = m * 10 ^ 9 := by
      have hrat : ((b.sec.toNat * 10 ^ 9 + b.nsec.toNat) * 2 ^ e : Rat) = m * 10 ^ 9 := by
        rw [← heq]
        ring
      exact_mod_cast hrat
    have hten : 5 ^ 9 ∣ 10 ^ 9 := by norm_num
    have hdvd : 5 ^ 9 ∣ (b.sec.toNat * 10 ^ 9 + b.nsec.toNat) * 2 ^ e := by
      rw [hscaled]
      exact hten.mul_left m
    have hcoprime : Nat.Coprime (5 ^ 9) (2 ^ e) := Nat.Coprime.pow 9 e (by decide)
    exact (Nat.dvd_add_right (hten.mul_left _)).mp (hcoprime.dvd_of_dvd_mul_right hdvd)
  · rintro ⟨k, hk⟩
    refine ⟨b.sec.toNat * 2 ^ 9 + k, 9, by omega, ?_⟩
    rw [toDouble, hk]
    push_cast
    ring

theorem trunc_natCast_add {s : Nat} {x : Rat} (h0 : 0 ≤ x) (h1 : x < 1) : trunc (s + x) = s := by
  have hfloor : trunc (s + x) = ⌊(s + x : Rat)⌋ := by
    have hnum : 0 ≤ (s + x : Rat).num := Rat.num_nonneg.mpr (by positivity)
    rw [trunc, Rat.floor_def', Int.tdiv_eq_ediv_of_nonneg hnum]
  rw [hfloor, Int.floor_natCast_add, Int.floor_eq_zero_iff.mpr ⟨h0, h1⟩, add_zero]

theorem trunc_toDouble (h : b.Normal) : trunc b.toDouble = b.sec.toNat ∧
    trunc ((b.toDouble - trunc b.toDouble) * 1000000000) = b.nsec.toNat := by
  have hlt : (b.nsec.toNat : Rat) / 1000000000 < 1 := by
    rw [div_lt_one (by norm_num)]
    exact_mod_cast h
  have hsec : trunc b.toDouble = b.sec.toNat := trunc_natCast_add (by positivity) hlt
  refine ⟨hsec, ?_⟩
  have hns : (b.toDouble - trunc b.toDouble) * 1000000000 = (b.nsec.toNat : Rat) + 0 := by
    rw [hsec, toDouble, Int.cast_natCast, add_sub_cancel_left, div_mul_cancel₀ _ (by norm_num),
      add_zero]
  rw [hns]
  exact trunc_natCast_add le_rfl zero_lt_one

theorem normalize_cases (t : Utime) :
    1000000000 < t.nsec.toNat ∧
    t.normalize.sec.toNat = (t.sec.toNat + t.nsec.toNat / 1000000000) % 2 ^ 32 ∧
        t.normalize.nsec.toNat = t.nsec.toNat % 1000000000 ∨ t.nsec.toNat ≤ 1000000000 ∧
        t.normalize = t := by
  rw [normalize]
  split_ifs with h
  · exact .inl ⟨h, by simp [BitVec.toNat_add, BitVec.toNat_udiv], by simp [BitVec.toNat_umod]⟩
  · exact .inr ⟨not_lt.mp h, rfl⟩

theorem is_make {s n : Int} {m : Nat} (hs : 0 ≤ s ∧ s < 2 ^ 32) (hn : 0 ≤ n ∧ n < 1000000000)
    (hm : n + s * 1000000000 = m) : (make s n).Is m := by
  have hsec : (BitVec.ofInt 32 s).toNat = s.toNat := by
    rw [BitVec.toNat_ofInt]
    omega
  have hnsec : (BitVec.ofInt 32 n).toNat = n.toNat := by
    rw [BitVec.toNat_ofInt]
    omega
  rcases normalize_cases ⟨.ofInt 32 s, .ofInt 32 n⟩ with ⟨hlt, -⟩ | ⟨-, hself⟩
  · rw [hnsec] at hlt
    omega
  · rw [make, hself, Is, Normal, toNsec, hsec, hnsec]
    omega

section

variable (ha : a.Normal) (hb : b.Normal)
include ha hb

theorem is_add (hfits : a.toNsec + b.toNsec < 2 ^ 32 * 1000000000) :
    (a.add b).Is (a.toNsec + b.toNsec) := by
  rw [add, nsecs_eq ha, nsecs_eq hb, secs, secs]
  rw [toNsec, toNsec, Normal] at *
  apply is_make <;> omega

theorem is_sub (hle : b.toNsec ≤ a.toNsec) : (a.sub b).Is (a.toNsec - b.toNsec) := by
  rw [sub, nsecs_eq ha, nsecs_eq hb, secs, secs]
  rw [toNsec, toNsec, Normal] at *
  split_ifs <;> apply is_make <;> omega

theorem is_addAssign (hfits : a.toNsec + b.toNsec < 2 ^ 32 * 1000000000) :
    (a.addAssign b).Is (a.toNsec + b.toNsec) := by
  rw [toNsec, toNsec, Normal] at *
  rw [addAssign, nsecs_eq ha, nsecs_eq hb, secs, Is, Normal, toNsec]
  simp [BitVec.toNat_add, BitVec.toNat_umod]
  omega

theorem is_addAssignDouble (hfits : a.toNsec + b.toNsec < 2 ^ 32 * 1000000000) :
    (a.addAssignDouble b.toDouble).Is (a.toNsec + b.toNsec) ↔
    a.nsec.toNat + b.nsec.toNat ≠ 1000000000 := by
  obtain ⟨hsec, hnsec⟩ := trunc_toDouble hb
  rw [toNsec, toNsec, Normal] at *
  rw [addAssignDouble, hnsec, hsec, Is, Normal, toNsec]
  rcases normalize_cases ⟨a.sec + .ofInt 32 b.sec.toNat, a.nsec + .ofInt 32 b.nsec.toNat⟩ with ⟨hlt,
    hs, hn⟩ | ⟨hle, hself⟩
  · rw [hs, hn]
    simp [BitVec.toNat_add] at hlt ⊢
    omega
  · rw [hself]
    simp [BitVec.toNat_add] at hle ⊢
    omega

theorem is_subAssign (hle : b.toNsec ≤ a.toNsec) : (a.subAssign b).Is (a.toNsec - b.toNsec) := by
  rw [subAssign, nsecs_eq ha, nsecs_eq hb, secs, Is, Normal]
  rw [toNsec, toNsec, Normal] at *
  split_ifs with h
  · simp [toNsec, BitVec.toNat_sub]
    omega
  · simp [toNsec, BitVec.toNat_sub, BitVec.toNat_add]
    omega

/-- A difference of equal fractions is wrong unless they are zero. -/
theorem is_subAssignDouble (hle : b.toNsec ≤ a.toNsec) :
    (a.subAssignDouble b.toDouble).Is (a.toNsec - b.toNsec) ↔
    b.nsec.toNat = 0 ∨ a.nsec.toNat ≠ b.nsec.toNat := by
  obtain ⟨hsec, hnsec⟩ := trunc_toDouble hb
  rw [toNsec, toNsec, Normal] at *
  rw [subAssignDouble, hnsec, hsec, Is, Normal, toNsec]
  split_ifs with h
  · rcases normalize_cases ⟨a.sec - .ofInt 32 b.sec.toNat - 1,
      .ofInt 32 (1000000000 + a.nsec.toNat - b.nsec.toNat)⟩
      with ⟨hlt, hs, hn⟩ | ⟨hle, hself⟩
    · rw [hs, hn]
      simp [BitVec.toNat_sub] at hlt ⊢
      omega
    · rw [hself]
      simp [BitVec.toNat_sub] at hle ⊢
      omega
  · rcases normalize_cases ⟨a.sec - .ofInt 32 b.sec.toNat, a.nsec⟩ with ⟨hlt, hs, hn⟩ | ⟨hle, hself⟩
    · rw [hs, hn]
      simp [BitVec.toNat_sub] at hlt ⊢
      omega
    · rw [hself]
      simp [BitVec.toNat_sub] at hle ⊢
      omega

end

/-- The operators on two times, one of them perhaps given as a `double`, if it is one. -/
structure Exact (a b : Utime) : Prop where
  sum : a.toNsec + b.toNsec < 2 ^ 32 * 1000000000 →
    ∀ t ∈ [a.add b, a.addAssign b], t.Is (a.toNsec + b.toNsec)
  sumDouble : IsDouble b.toDouble → a.toNsec + b.toNsec < 2 ^ 32 * 1000000000 →
    (a.addAssignDouble b.toDouble).Is (a.toNsec + b.toNsec)
  difference : b.toNsec ≤ a.toNsec → ∀ t ∈ [a.sub b, a.subAssign b], t.Is (a.toNsec - b.toNsec)
  differenceDouble : IsDouble b.toDouble → b.toNsec ≤ a.toNsec →
    (a.subAssignDouble b.toDouble).Is (a.toNsec - b.toNsec)
  order : a.gt b = decide (b.toNsec < a.toNsec) ∧ a.le b = decide (a.toNsec ≤ b.toNsec) ∧
    a.lt b = decide (a.toNsec < b.toNsec) ∧ a.ge b = decide (b.toNsec ≤ a.toNsec) ∧
    a.eq b = decide (a.toNsec = b.toNsec) ∧ a.ne b = decide (a.toNsec ≠ b.toNsec)

theorem order_eq (ha : a.Normal) (hb : b.Normal) :
    a.gt b = decide (b.toNsec < a.toNsec) ∧ a.le b = decide (a.toNsec ≤ b.toNsec) ∧
      a.lt b = decide (a.toNsec < b.toNsec) ∧ a.ge b = decide (b.toNsec ≤ a.toNsec) ∧
      a.eq b = decide (a.toNsec = b.toNsec) ∧ a.ne b = decide (a.toNsec ≠ b.toNsec) := by
  rw [gt, le, lt, ge, eq, ne, gt, lt, nsecs_eq ha, nsecs_eq hb, secs, secs]
  rw [toNsec, toNsec, Normal] at *
  refine ⟨?_, ?_, ?_, ?_, ?_, ?_⟩ <;> rw [Bool.eq_iff_iff] <;> simp <;> omega

/-- Sums, differences and comparisons are exact just when a time that is a `double`, that is, one
with nanoseconds divisible by `5 ^ 9`, neither fills a second up nor takes one away completely. -/
theorem times_exact_iff (ha : a.Normal) (hb : b.Normal) : Exact a b ↔ (5 ^ 9 ∣ b.nsec.toNat →
    (a.toNsec + b.toNsec < 2 ^ 32 * 1000000000 → a.nsec.toNat + b.nsec.toNat ≠ 1000000000) ∧
      (b.toNsec ≤ a.toNsec → b.nsec.toNat = 0 ∨ a.nsec.toNat ≠ b.nsec.toNat)) := by
  rw [← isDouble_toDouble_iff hb]
  constructor
  · intro h hdouble
    exact ⟨fun hfits => (is_addAssignDouble ha hb hfits).mp (h.sumDouble hdouble hfits),
      fun hle => (is_subAssignDouble ha hb hle).mp (h.differenceDouble hdouble hle)⟩
  · intro h
    refine ⟨fun hfits t ht => ?_, fun hdouble hfits => ?_, fun hle t ht => ?_,
      fun hdouble hle => ?_, order_eq ha hb⟩
    · simp only [List.mem_cons, List.not_mem_nil, or_false] at ht
      rcases ht with rfl | rfl
      · exact is_add ha hb hfits
      · exact is_addAssign ha hb hfits
    · exact (is_addAssignDouble ha hb hfits).mpr ((h hdouble).1 hfits)
    · simp only [List.mem_cons, List.not_mem_nil, or_false] at ht
      rcases ht with rfl | rfl
      · exact is_sub ha hb hle
      · exact is_subAssign ha hb hle
    · exact (is_subAssignDouble ha hb hle).mpr ((h hdouble).2 hle)

/-- Half a second and half a second. -/
theorem full_second_kept : IsDouble (toDouble ⟨0, 500000000⟩) ∧
    addAssignDouble ⟨0, 500000000⟩ (toDouble ⟨0, 500000000⟩) = ⟨0, 1000000000⟩ := by
  have hnormal : Normal ⟨0, 500000000⟩ := by
    unfold Normal
    decide
  refine ⟨(isDouble_toDouble_iff hnormal).mpr (by decide), ?_⟩
  obtain ⟨hsec, hnsec⟩ := trunc_toDouble hnormal
  rw [addAssignDouble, hnsec, hsec]
  decide

/-- Times of quarters of seconds, which are doubles. -/
theorem exact_of_quarters : Exact ⟨1, 500000000⟩ ⟨0, 250000000⟩ := by
  refine (times_exact_iff (by unfold Normal; decide) (by unfold Normal; decide)).mpr fun _ => ?_
  exact ⟨fun _ => by decide, fun _ => .inr (by decide)⟩

end RadosGateway.Utime
