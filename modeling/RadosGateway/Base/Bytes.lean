import Mathlib

/-!
# Byte strings and the integers written in them

C strings as lists of bytes, with the pieces of the C library that read and print integers in them.
-/

namespace Text

open List

abbrev Bytes := List UInt8

instance : LawfulBEq Bytes := inferInstance

variable {c : UInt8} {s : Bytes} {z : Int} {n : Nat}

/-- The bytes of an ASCII literal. -/
def ascii (s : String) : Bytes := s.toList.map fun c => c.toNat.toUInt8

/-- What a C function sees of a string handed over as `c_str()`. -/
def cstr (s : Bytes) : Bytes := s.takeWhile (· ≠ 0)

theorem cstr_eq_self (h : 0 ∉ s) : cstr s = s := by
  unfold cstr
  rw [takeWhile_eq_self_iff]
  intro c hc
  simpa using fun heq : c = 0 => h (heq ▸ hc)

theorem cstr_append_of_zero_mem (h : 0 ∈ s) (u : Bytes) : cstr (s ++ u) = cstr s := by
  induction s with
  | nil => simp at h
  | cons c s ih =>
    by_cases hc : c = 0
    · simp [cstr, hc]
    · have htail : 0 ∈ s := (mem_cons.mp h).resolve_left (Ne.symm hc)
      have hrest := ih htail
      unfold cstr at hrest ⊢
      rw [cons_append, takeWhile_cons_of_pos (by simpa using hc),
        takeWhile_cons_of_pos (by simpa using hc), hrest]

theorem cstr_append_of_zero_notMem (h : 0 ∉ s) (u : Bytes) : cstr (s ++ u) = s ++ cstr u := by
  apply takeWhile_append_of_pos
  intro c hc
  have hne : c ≠ 0 := fun heq => h (heq ▸ hc)
  simpa using hne

theorem zero_notMem_cstr (s : Bytes) : 0 ∉ cstr s := by
  intro h
  simpa using mem_takeWhile_imp h

def isSpace (c : UInt8) : Bool := c = 32 || (9 ≤ c && c ≤ 13)

def isDigit (c : UInt8) : Bool := 48 ≤ c && c ≤ 57

def isAlpha (c : UInt8) : Bool := (65 ≤ c && c ≤ 90) || (97 ≤ c && c ≤ 122)

def toI32 (z : Int) : Int := z.bmod (2 ^ 32)

def toI64 (z : Int) : Int := z.bmod (2 ^ 64)

def toU64 (z : Int) : Nat := (z % 2 ^ 64).toNat

theorem toU64_of_lt (h : n < 2 ^ 64) : toU64 n = n := by
  unfold toU64
  omega

theorem toI64_of_lt (h : n < 2 ^ 63) : toI64 n = n := by
  unfold toI64
  rw [Int.bmod_def]
  split_ifs <;> omega

theorem toI32_of_lt (h : n < 2 ^ 31) : toI32 n = n := by
  unfold toI32
  rw [Int.bmod_def]
  split_ifs <;> omega

theorem toI32_range (z : Int) : -2 ^ 31 ≤ toI32 z ∧ toI32 z < 2 ^ 31 := by
  unfold toI32
  rw [Int.bmod_def]
  split_ifs <;> omega

theorem toI64_range (z : Int) : -2 ^ 63 ≤ toI64 z ∧ toI64 z < 2 ^ 63 := by
  unfold toI64
  rw [Int.bmod_def]
  split_ifs <;> omega

/-- Reading a 64-bit word as `int` only looks at its low half. -/
theorem toI32_toI64 (z : Int) : toI32 (toI64 z) = toI32 z := by
  simp only [toI32, toI64, Int.bmod_def]
  split_ifs <;> omega

theorem and_two_pow_sub_two_pow {n w k : Nat} (hk : k ≤ w) (hn : n < 2 ^ w) :
    n &&& (2 ^ w - 2 ^ k) = n / 2 ^ k * 2 ^ k := by
  have hmask : 2 ^ w - 2 ^ k = (2 ^ (w - k) - 1) * 2 ^ k := by
    rw [Nat.sub_mul, ← pow_add, Nat.sub_add_cancel hk, one_mul]
  apply Nat.eq_of_testBit_eq
  intro i
  rw [hmask, Nat.testBit_and, Nat.testBit_mul_two_pow, Nat.testBit_mul_two_pow,
    Nat.testBit_two_pow_sub_one, Nat.testBit_div_two_pow]
  by_cases hi : k ≤ i
  · by_cases hw : i < w
    · have hlow : i - k < w - k := by omega
      simp [hi, hlow]
    · have hbit : n.testBit i = false :=
        Nat.testBit_lt_two_pow (lt_of_lt_of_le hn (Nat.pow_le_pow_right (by omega) (by omega)))
      simp [hi, hbit]
  · simp [hi]

def digitByte (d : Nat) : UInt8 := (48 + d).toUInt8

/-- A natural in decimal, most significant digit first. -/
def decimal (n : Nat) : Bytes :=
  if n = 0 then [48] else ((Nat.digits 10 n).map digitByte).reverse

def decimalInt (z : Int) : Bytes :=
  if z < 0 then 45 :: decimal z.natAbs else decimal z.natAbs

def digitsValue (s : Bytes) : Nat := s.foldl (fun acc c => 10 * acc + (c.toNat - 48)) 0

/-- `strtoll` in base ten: leading blanks, an optional sign, the longest run of digits, saturating
at the ends of the 64-bit range. -/
def atoll (s : Bytes) : Int :=
  let body := s.dropWhile isSpace
  let clamp := fun z : Int => max (-2 ^ 63) (min z (2 ^ 63 - 1))
  match body with
  | 45 :: rest => clamp (-(digitsValue (rest.takeWhile isDigit) : Int))
  | 43 :: rest => clamp (digitsValue (rest.takeWhile isDigit) : Int)
  | _ => clamp (digitsValue (body.takeWhile isDigit) : Int)

/-- `atoi`, which is `strtol` cut down to an `int`. -/
def atoi (s : Bytes) : Int := toI32 (atoll s)

theorem digitByte_toNat {d : Nat} (h : d < 10) : (digitByte d).toNat = 48 + d := by
  have h256 : 48 + d < 256 := by omega
  simp [digitByte, Nat.mod_eq_of_lt h256]

theorem isDigit_digitByte {d : Nat} (h : d < 10) : isDigit (digitByte d) = true := by
  have hd := digitByte_toNat h
  simp only [isDigit, Bool.and_eq_true, decide_eq_true_eq, UInt8.le_iff_toNat_le, hd]
  exact ⟨by simp, by simp; omega⟩

theorem isDigit_of_mem_decimal (hc : c ∈ decimal n) : isDigit c = true := by
  unfold decimal at hc
  split_ifs at hc with hn
  · rw [mem_singleton.mp hc]
    decide
  · obtain ⟨d, hd, rfl⟩ := mem_map.mp (mem_reverse.mp hc)
    exact isDigit_digitByte (Nat.digits_lt_base (by norm_num) hd)

theorem decimal_ne_nil (n : Nat) : decimal n ≠ [] := by
  unfold decimal
  split_ifs with hn
  · simp
  · simpa using Nat.digits_ne_nil_iff_ne_zero.mpr hn

theorem digitsValue_decimal (n : Nat) : digitsValue (decimal n) = n := by
  unfold decimal
  split_ifs with hn
  · subst hn
    decide
  · have hfold : ∀ L : List Nat, (∀ d ∈ L, d < 10) →
        (L.map digitByte).foldr (fun c acc => 10 * acc + (c.toNat - 48)) 0 = Nat.ofDigits 10 L := by
      intro L hL
      induction L with
      | nil => rfl
      | cons d L ih =>
        have hd := digitByte_toNat (hL d (by simp))
        have htail := ih fun e he => hL e (mem_cons_of_mem _ he)
        simp only [map_cons, foldr_cons, htail, hd, Nat.ofDigits_cons]
        omega
    rw [digitsValue, foldl_reverse, hfold _ fun d hd => Nat.digits_lt_base (by norm_num) hd,
      Nat.ofDigits_digits]

theorem takeWhile_isDigit_decimal (n : Nat) : (decimal n).takeWhile isDigit = decimal n :=
  takeWhile_eq_self_iff.mpr fun _ hc => isDigit_of_mem_decimal hc

theorem isSpace_eq_false_of_isDigit (h : isDigit c = true) : isSpace c = false := by
  simp only [isDigit, isSpace, Bool.and_eq_true, decide_eq_true_eq, Bool.or_eq_false_iff,
    Bool.and_eq_false_iff, decide_eq_false_iff_not, UInt8.le_iff_toNat_le, UInt8.ext_iff] at h ⊢
  simp at h ⊢
  omega

theorem length_decimal_le {n k : Nat} (hk : 0 < k) (h : n < 10 ^ k) : (decimal n).length ≤ k := by
  unfold decimal
  split_ifs
  · exact hk
  · rw [length_reverse, length_map]
    exact (Nat.digits_length_le_iff (by norm_num) n).mpr h

theorem length_decimalInt_le (hlo : -2 ^ 63 ≤ z) (hhi : z < 2 ^ 63) :
    (decimalInt z).length ≤ 20 := by
  have habs : z.natAbs < 10 ^ 19 := by
    omega
  have hlen := length_decimal_le (by norm_num) habs
  unfold decimalInt
  split_ifs
  · exact Nat.succ_le_succ hlen
  · omega

theorem decimalInt_ne_nil (z : Int) : decimalInt z ≠ [] := by
  unfold decimalInt
  split_ifs
  · simp
  · exact decimal_ne_nil _

theorem mem_decimalInt (hc : c ∈ decimalInt z) : c = 45 ∨ isDigit c = true := by
  unfold decimalInt at hc
  split_ifs at hc
  · rcases mem_cons.mp hc with rfl | hc
    · exact .inl rfl
    · exact .inr (isDigit_of_mem_decimal hc)
  · exact .inr (isDigit_of_mem_decimal hc)

/-- Reading a run of digits saturates at the largest 64-bit integer. -/
theorem atoll_of_isDigit (hne : s ≠ []) (hs : ∀ c ∈ s, isDigit c = true) :
    atoll s = min (digitsValue s : Int) (2 ^ 63 - 1) := by
  obtain ⟨c, cs, rfl⟩ := exists_cons_of_ne_nil hne
  have hdigit : isDigit c = true := hs c mem_cons_self
  have hspace : (c :: cs).dropWhile isSpace = c :: cs :=
    dropWhile_cons_of_neg (by simp [isSpace_eq_false_of_isDigit hdigit])
  have hminus : c ≠ 45 := by
    rintro rfl
    exact absurd hdigit (by decide)
  have hplus : c ≠ 43 := by
    rintro rfl
    exact absurd hdigit (by decide)
  have htake : (c :: cs).takeWhile isDigit = c :: cs := takeWhile_eq_self_iff.mpr hs
  simp only [atoll, hspace]
  split
  · exact absurd (List.cons.inj ‹_›).1 hminus
  · exact absurd (List.cons.inj ‹_›).1 hplus
  · rw [htake]
    omega

/-- Printing a 64-bit integer and reading it back gives the integer. -/
theorem atoll_decimalInt (hlo : -2 ^ 63 ≤ z) (hhi : z < 2 ^ 63) : atoll (decimalInt z) = z := by
  unfold decimalInt
  split_ifs with hneg
  · have hspace : (45 :: decimal z.natAbs).dropWhile isSpace = 45 :: decimal z.natAbs :=
      dropWhile_cons_of_neg (by decide)
    simp only [atoll, hspace, takeWhile_isDigit_decimal, digitsValue_decimal]
    omega
  · rw [atoll_of_isDigit (decimal_ne_nil _) fun _ hc => isDigit_of_mem_decimal hc,
      digitsValue_decimal]
    omega

theorem decimalInt_inj {y z : Int} (h : decimalInt y = decimalInt z) : y = z := by
  have hdigits : ∀ {m n : Nat}, decimal m = decimal n → m = n := by
    intro m n hmn
    rw [← digitsValue_decimal m, hmn, digitsValue_decimal]
  have hminus : ∀ m n : Nat, 45 :: decimal m ≠ decimal n := by
    intro m n hmn
    have hdigit : isDigit 45 = true := isDigit_of_mem_decimal (hmn ▸ mem_cons_self)
    exact absurd hdigit (by decide)
  unfold decimalInt at h
  split_ifs at h with hy hz hz
  · have habs := hdigits (List.cons.inj h).2
    omega
  · exact absurd h (hminus _ _)
  · exact absurd h.symm (hminus _ _)
  · have habs := hdigits h
    omega

theorem takeWhile_ne_append (h : c ∉ s) (x : Bytes) : (s ++ c :: x).takeWhile (· ≠ c) = s := by
  have hpos : ∀ d ∈ s, decide (d ≠ c) = true := fun d hd => decide_eq_true fun heq => h (heq ▸ hd)
  rw [takeWhile_append_of_pos hpos, takeWhile_cons_of_neg (by simp), append_nil]

theorem dropWhile_ne_append (h : c ∉ s) (x : Bytes) : (s ++ c :: x).dropWhile (· ≠ c) = c :: x := by
  have hpos : ∀ d ∈ s, decide (d ≠ c) = true := fun d hd => decide_eq_true fun heq => h (heq ▸ hd)
  rw [dropWhile_append_of_pos hpos, dropWhile_cons_of_neg (by simp)]

/-- Two texts that end at their first separator. -/
theorem append_cons_inj {s s' x x' : Bytes} (hs : c ∉ s) (hs' : c ∉ s')
    (h : s ++ c :: x = s' ++ c :: x') : s = s' ∧ x = x' := by
  have htake : (s ++ c :: x).takeWhile (· ≠ c) = (s' ++ c :: x').takeWhile (· ≠ c) := by rw [h]
  have hdrop : (s ++ c :: x).dropWhile (· ≠ c) = (s' ++ c :: x').dropWhile (· ≠ c) := by rw [h]
  rw [takeWhile_ne_append hs, takeWhile_ne_append hs'] at htake
  rw [dropWhile_ne_append hs, dropWhile_ne_append hs'] at hdrop
  exact ⟨htake, (List.cons.inj hdrop).2⟩

/-- Lines are told apart by what separates them. -/
theorem intercalate_inj {ls ls' : List Bytes} (hne : ls ≠ []) (hne' : ls' ≠ [])
    (h : ∀ l ∈ ls, c ∉ l) (h' : ∀ l ∈ ls', c ∉ l) (heq : [c].intercalate ls = [c].intercalate ls') :
    ls = ls' := by
  rw [← splitOn_intercalate c h hne, heq, splitOn_intercalate c h' hne']

/-- Lines that are ended one by one, and a last one that is not. -/
theorem intercalate_append_singleton (c : UInt8) (ls : List Bytes) (last : Bytes) :
    [c].intercalate (ls ++ [last]) = ls.flatMap (· ++ [c]) ++ last := by
  induction ls with
  | nil => simp
  | cons l ls ih =>
    obtain ⟨l', rest, hrest⟩ := exists_cons_of_ne_nil (append_ne_nil_of_right_ne_nil ls
      (cons_ne_nil last []))
    rw [cons_append, hrest, intercalate_cons_cons, ← hrest, ih, flatMap_cons,
      append_assoc (l ++ [c])]

theorem intercalate_cons_eq (c : UInt8) (l : Bytes) (ls : List Bytes) :
    [c].intercalate (l :: ls) = l ++ ls.flatMap (c :: ·) := by
  induction ls generalizing l with
  | nil => simp
  | cons l' ls ih =>
    rw [intercalate_cons_cons, ih, flatMap_cons]
    simp

/-- A map that can be undone on the entries of two lists tells the lists apart. -/
theorem eq_of_map_eq_map {α β : Type*} {f : α → β} {p : α → Prop}
    (hf : ∀ a b, p a → p b → f a = f b → a = b) {l l' : List α} (hl : ∀ a ∈ l, p a)
    (hl' : ∀ a ∈ l', p a) (h : l.map f = l'.map f) : l = l' := by
  induction l generalizing l' with
  | nil => exact (map_eq_nil_iff.mp h.symm).symm
  | cons a l ih =>
    cases l' with
    | nil => cases h
    | cons b l' =>
      obtain ⟨hhead, htail⟩ := List.cons.inj h
      obtain ⟨ha, hl⟩ := forall_mem_cons.mp hl
      obtain ⟨hb, hl'⟩ := forall_mem_cons.mp hl'
      rw [hf a b ha hb hhead, ih hl hl' htail]

/-- A 64-bit integer that goes through `%lld` and `atoi` loses its high half. -/
theorem atoi_decimalInt (hlo : -2 ^ 63 ≤ z) (hhi : z < 2 ^ 63) : atoi (decimalInt z) = toI32 z := by
  rw [atoi, atoll_decimalInt hlo hhi]

/-- Between two strings that start alike all strings do. -/
theorem prefix_of_between {p a m b : Bytes} (ha : p <+: a) (hb : p <+: b) (hle : ¬ m < a)
    (hlt : m < b) :
    p <+: m := by
  induction p generalizing a m b with
  | nil => exact nil_prefix
  | cons c p ih =>
    obtain ⟨a, rfl⟩ := ha
    obtain ⟨b, rfl⟩ := hb
    cases m with
    | nil => exact absurd (nil_lt_cons _ _) hle
    | cons x m =>
      rw [cons_append, cons_lt_cons_iff] at hle hlt
      rcases hlt with hlt | ⟨rfl, hlt⟩
      · exact absurd (.inl hlt) hle
      · rw [cons_prefix_cons]
        refine ⟨rfl, ih (prefix_append p a) (prefix_append p b) ?_ hlt⟩
        exact fun h => hle (.inr ⟨rfl, h⟩)

theorem append_cons_lt_append_cons {c d : UInt8} (h : c < d) (p s t : Bytes) :
    p ++ c :: s < p ++ d :: t := by
  induction p with
  | nil => exact cons_lt_cons_iff.mpr (.inl h)
  | cons x p ih => exact cons_lt_cons_iff.mpr (.inr ⟨rfl, ih⟩)

theorem lt_of_not_lt_of_lt {a b c : Bytes} (h : ¬ b < a) (h' : b < c) : a < c := by
  by_cases hab : a < b
  · exact Trans.trans hab h'
  · have heq : a = b := Std.Trichotomous.trichotomous _ _ hab h
    rwa [heq]

theorem lt_of_lt_of_not_lt {a b c : Bytes} (h : a < b) (h' : ¬ c < b) : a < c := by
  by_cases hbc : b < c
  · exact Trans.trans h hbc
  · have heq : b = c := Std.Trichotomous.trichotomous _ _ hbc h'
    rwa [← heq]

end Text
