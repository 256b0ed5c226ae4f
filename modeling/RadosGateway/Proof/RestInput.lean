import RadosGateway.RestInput

/-!
# The buffer of a chunked body, and its limit

All reads before a read were full, so the number of bytes read and the size of the next read add up
to the size of the buffer: no read runs past its end, also not when `total` wraps, because no
allocation of the wrapped size succeeds. -/

namespace RadosGateway.RestInput

open Text List

variable {env : Env} {maxRead : Int}

def needAt : Nat → Nat
  | 0 => 4096
  | i + 1 => if needAt i < 128 * 1024 then needAt i * 2 else needAt i

def start : Nat → Nat
  | 0 => 0
  | i + 1 => start i + needAt i

theorem needAt_bounds (i : Nat) : 4096 ≤ needAt i ∧ needAt i ≤ 128 * 1024 * 2 := by
  induction i with
  | zero => decide
  | succ i ih =>
    rw [needAt]
    split_ifs <;> omega

theorem start_lt_succ (i : Nat) : start i < start (i + 1) := by
  have := needAt_bounds i
  rw [start]
  omega

theorem start_strictMono : StrictMono start := strictMono_nat_of_lt_succ start_lt_succ

theorem le_start (i : Nat) : 4096 * i ≤ start i := by
  induction i with
  | zero => exact Nat.zero_le _
  | succ i ih =>
    have := needAt_bounds i
    rw [start]
    omega

def Full (env : Env) (i : Nat) : Prop := ∃ b, env.read i (needAt i) = .ok b ∧ b.length = needAt i

def received (env : Env) : Nat → Bytes
  | 0 => []
  | i + 1 => received env i ++ (env.read i (needAt i)).toOption.getD []

def Delivers (env : Env) (k : Nat) (body : Bytes) : Prop :=
  (∀ i < k, Full env i) ∧ ∃ b, env.read k (needAt k) = .ok b ∧ b.length ≠ needAt k ∧
    body = received env k ++ b

def Allocates (env : Env) (i : Nat) : Prop := env.alloc i (start (i + 1) + 1) = true ∧
    start (i + 1) < 2 ^ 31

variable {i k : Nat} {body : Bytes} {l : Loop}

theorem length_received (h : ∀ j < i, Full env j) : (received env i).length = start i := by
  induction i with
  | zero => rfl
  | succ i ih =>
    obtain ⟨b, hread, hfull⟩ := h i (Nat.lt_succ_self i)
    rw [received, length_append, ih fun j hj => h j (Nat.lt_succ_of_lt hj), hread, start]
    change _ + b.length = _
    rw [hfull]

theorem Delivers.length (h : Delivers env k body) : start k ≤ body.length ∧
    body.length < start (k + 1) := by
  obtain ⟨hfull, b, hread, hshort, rfl⟩ := h
  have hle := env.read_le k _ b hread
  rw [length_append, length_received hfull, start]
  omega

structure At (env : Env) (i : Nat) (l : Loop) : Prop where
  needToRead : l.needToRead = needAt i
  total : l.total = start (i + 1)
  small : start (i + 1) < 2 ^ 31
  capacity : l.capacity = start (i + 1) + 1
  data : l.data = received env i
  full : ∀ j < i, Full env j
  writes : ∀ w ∈ l.writes, w.off + w.size ≤ w.capacity

inductive Ends (env : Env) (maxRead : Int) (k : Nat) : Except Int Bytes → Prop
  | short {body : Bytes} : Delivers env k body → Ends env maxRead k (.ok body)
  | failed {r : Int} : env.read k (needAt k) = .error r → Ends env maxRead k (.error r)
  | limit : Full env k → maxRead < start (k + 1) → Ends env maxRead k (.error (-erange))
  | memory : Full env k → ¬ Allocates env (k + 1) → Ends env maxRead k (.error (-enomem))

theorem toU64_total_of_wrap {n : Nat} (hlow : 2 ^ 31 ≤ n) (hhigh : n < 2 ^ 31 + 2 ^ 20) :
    2 ^ 63 ≤ toU64 (toI32 n + 1) := by
  have hwrap : toI32 n = n - 2 ^ 32 := by
    unfold toI32
    rw [Int.bmod_def]
    omega
  rw [hwrap, toU64]
  omega

/-- One read into the buffer, and where it can end. -/
theorem turn_spec (h : At env i l) :
    (∃ l', turn env maxRead i l = .inl l' ∧ At env (i + 1) l' ∧ Full env i ∧
      (start (i + 1) : Int) ≤ maxRead ∧
        Allocates env (i + 1)) ∨ ∃ o, turn env maxRead i l = .inr o ∧
          (∀ w ∈ o.writes, w.off + w.size ≤ w.capacity) ∧
        Ends env maxRead i o.result := by
  obtain ⟨hneed, htotal, hsmall, hcapacity, hdata, hfull, hwrites⟩ := h
  have hlength := length_received hfull
  have hstart : start (i + 1) = start i + needAt i := rfl
  have hbounds := needAt_bounds (i + 1)
  have hread : ∀ w ∈ (⟨l.data.length, l.needToRead.toNat, l.capacity⟩ : Write) :: l.writes,
      w.off + w.size ≤ w.capacity := by
    intro w hw
    rcases mem_cons.mp hw with rfl | hw
    · dsimp only
      rw [hdata, hneed, hcapacity, hlength, Int.toNat_natCast]
      omega
    · exact hwrites w hw
  unfold turn
  rw [hneed, Int.toNat_natCast] at hread ⊢
  cases hanswer : env.read i (needAt i) with
  | error r => exact Or.inr ⟨_, rfl, hread, .failed hanswer⟩
  | ok b =>
    dsimp only
    by_cases hlen : b.length = needAt i
    · have hnext : (if (needAt i : Int) < maxReadChunk then toI32 ((needAt i : Int) * 2)
        else (needAt i : Int))
          = (needAt (i + 1) : Nat) := by
        rw [needAt, maxReadChunk]
        split_ifs with hlt hlt' hlt'
        · exact toI32_of_lt (n := needAt i * 2)
            (Nat.lt_of_le_of_lt (Nat.mul_le_mul_right 2 hlt'.le) (by norm_num))
        all_goals omega
      have hisFull : Full env i := ⟨b, hanswer, hlen⟩
      have hcast : (b.length : Int) = (needAt i : Nat) := by rw [hlen]
      rw [if_pos hcast, hnext, htotal]
      by_cases hlimit : maxRead < (start (i + 1) : Nat)
      · rw [if_pos hlimit]
        exact Or.inr ⟨_, rfl, hread, .limit hisFull hlimit⟩
      · rw [if_neg hlimit]
        have hsum : ((start (i + 1) : Nat) : Int) + (needAt (i + 1) : Nat) =
            (start (i + 2) : Nat) := by
          rfl
        rw [hsum]
        by_cases hwrap : start (i + 2) < 2 ^ 31
        · have hsize : toU64 (toI32 (start (i + 2) : Nat) + 1) = start (i + 2) + 1 := by
            rw [toI32_of_lt hwrap]
            exact toU64_of_lt (n := start (i + 2) + 1) (by omega)
          rw [hsize]
          by_cases halloc : env.alloc (i + 1) (start (i + 2) + 1) = true
          · rw [if_pos halloc]
            refine Or.inl ⟨_, rfl, ?_, hisFull, by omega, halloc, hwrap⟩
            have hnextTotal : toI32 (start (i + 2) : Nat) = (start (i + 2) : Nat) :=
              toI32_of_lt hwrap
            refine ⟨rfl, ?_, hwrap, rfl, ?_, ?_, hread⟩
            · dsimp only
              exact hnextTotal
            · rw [received, hanswer, hdata]
              rfl
            · intro j hj
              rcases Nat.lt_succ_iff_lt_or_eq.mp hj with hj | rfl
              · exact hfull j hj
              · exact hisFull
          · rw [if_neg halloc]
            exact Or.inr ⟨_, rfl, hread, .memory hisFull fun h => halloc h.1⟩
        · have hfail : ¬ env.alloc (i + 1) (toU64 (toI32 (start (i + 2) : Nat) + 1)) = true := by
            intro halloc
            have hlt := env.alloc_lt _ _ halloc
            have hge := toU64_total_of_wrap (n := start (i + 2)) (by omega) (by omega)
            omega
          rw [if_neg hfail]
          exact Or.inr ⟨_, rfl, hread, .memory hisFull fun h => hwrap h.2⟩
    · have hcast : ¬ (b.length : Int) = (needAt i : Nat) := by omega
      rw [if_neg hcast]
      have hle := env.read_le i _ b hanswer
      refine Or.inr ⟨_, rfl, ?_, .short ⟨hfull, b, hanswer, hlen, by rw [hdata]⟩⟩
      intro w hw
      rcases mem_cons.mp hw with rfl | hw
      · dsimp only
        rw [hdata, hcapacity, length_append, hlength]
        omega
      · exact hread w hw

/-- The loop ends, and no write leaves the buffer. -/
theorem loop_spec {fuel i : Nat} {l : Loop} (h : At env i l) (hfuel : 2 ^ 19 ≤ i + fuel) :
    ∃ o k, loop env maxRead fuel i l = some o ∧ (∀ w ∈ o.writes, w.off + w.size ≤ w.capacity) ∧
      Ends env maxRead k o.result ∧ (∀ j < k, Full env j) ∧
      ∀ j, i ≤ j → j < k → (start (j + 1) : Int) ≤ maxRead ∧ Allocates env (j + 1) := by
  induction fuel generalizing i l with
  | zero =>
    have hsmall := h.small
    have hstart := le_start (i + 1)
    omega
  | succ fuel ih =>
    rw [loop]
    rcases @turn_spec env maxRead i l h with ⟨l', hturn, hat, hfull, hlimit, halloc⟩ | ⟨o, hturn,
      hwrites, hends⟩
    · rw [hturn]
      obtain ⟨o, k, hloop, hwrites, hends, hfulls, hbefore⟩ := ih hat (by omega)
      refine ⟨o, k, hloop, hwrites, hends, hfulls, fun j hij hjk => ?_⟩
      rcases Nat.eq_or_lt_of_le hij with rfl | hij
      · exact ⟨hlimit, halloc⟩
      · exact hbefore j hij hjk
    · rw [hturn]
      exact ⟨o, i, rfl, hwrites, hends, h.full, fun j hij hji => by omega⟩

theorem at_zero (halloc : Allocates env 0) :
    At env 0 ⟨readChunk, readChunk, toU64 (readChunk + 1), [], []⟩ :=
  ⟨rfl, rfl, halloc.2, rfl, rfl, fun j hj => absurd hj (Nat.not_lt_zero j), forall_mem_nil _⟩

/-- All ends of the function. -/
theorem readAllChunkedInput_spec (env : Env) (maxRead : Int) :
    ∃ o, readAllChunkedInput env maxRead = some o ∧ (∀ w ∈ o.writes, w.off + w.size ≤ w.capacity) ∧
      ((¬ Allocates env 0 ∧ o.result = .error (-enomem)) ∨ ∃ k, Ends env maxRead k o.result ∧
        (∀ j < k, Full env j) ∧
          (∀ j < k, (start (j + 1) : Int) ≤ maxRead) ∧ ∀ j ≤ k, Allocates env j) := by
  have hsize : toU64 (readChunk + 1) = start 1 + 1 := rfl
  unfold readAllChunkedInput
  rw [hsize]
  by_cases halloc : env.alloc 0 (start 1 + 1) = true
  · have hallocates : Allocates env 0 := ⟨halloc, by decide⟩
    obtain ⟨o, k, hloop, hwrites, hends, hfull, hbefore⟩ :=
      @loop_spec env maxRead (2 ^ 19) 0 _ (at_zero hallocates) (by omega)
    rw [if_pos halloc]
    refine ⟨o, hloop, hwrites, Or.inr ⟨k, hends, hfull, ?_, ?_⟩⟩
    · intro j hj
      exact (hbefore j (Nat.zero_le j) hj).1
    · intro j hj
      cases j with
      | zero => exact hallocates
      | succ j => exact (hbefore j (Nat.zero_le j) hj).2
  · rw [if_neg halloc]
    exact ⟨_, rfl, forall_mem_nil _, Or.inl ⟨fun h => halloc h.1, rfl⟩⟩

def Meets (env : Env) (maxRead : Int) : Prop :=
  ∃ o, readAllChunkedInput env maxRead = some o ∧ (∀ w ∈ o.writes, w.off + w.size ≤ w.capacity) ∧
    (∀ data, o.result = .ok data → ∃ k, Delivers env k data) ∧
    (∀ k body, Delivers env k body → maxRead < body.length → ∃ r, o.result = .error r) ∧
    ((∀ i, Full env i) → ∃ r, o.result = .error r)

def LimitReached (env : Env) (maxRead : Int) : Prop :=
  ∀ k body, Delivers env k body → maxRead < body.length →
    (∃ j, maxRead < start (j + 1) ∧ start (j + 1) ≤ body.length) ∨ ∃ j, start j ≤ body.length ∧
      ¬ Allocates env j

theorem Delivers.not_full (h : Delivers env k body) : ¬ Full env k := by
  obtain ⟨-, b, hread, hshort, -⟩ := h
  rintro ⟨b', hread', hfull⟩
  obtain rfl := Except.ok.inj (hread.symm.trans hread')
  exact hshort hfull

theorem Delivers.unique {k k' : Nat} {body body' : Bytes} (h : Delivers env k body)
    (h' : Delivers env k' body') : k = k' ∧ body = body' := by
  have hk : k = k' := by
    rcases Nat.lt_trichotomy k k' with hlt | heq | hgt
    · exact absurd (h'.1 k hlt) h.not_full
    · exact heq
    · exact absurd (h.1 k' hgt) h'.not_full
  subst hk
  obtain ⟨-, b, hread, -, rfl⟩ := h
  obtain ⟨-, b', hread', -, rfl⟩ := h'
  obtain rfl := Except.ok.inj (hread.symm.trans hread')
  exact ⟨rfl, rfl⟩

theorem Ends.delivers {data : Bytes} (h : Ends env maxRead k (.ok data)) : Delivers env k data := by
  cases h with
  | short h => exact h

/-- An error means that the limit was reached or memory ran out before the body ended. -/
theorem Ends.of_error {k kb : Nat} {r : Int} (h : Ends env maxRead k (.error r))
    (hfull : ∀ j < k, Full env j) (hbody : Delivers env kb body) :
    k < kb ∧ (maxRead < start (k + 1) ∨ ¬ Allocates env (k + 1)) := by
  have hbefore (hk : Full env k) : k < kb := by
    by_contra hle
    rcases Nat.lt_or_eq_of_le (Nat.le_of_not_lt hle) with hlt | heq
    · exact hbody.not_full (hfull kb hlt)
    · exact hbody.not_full (heq ▸ hk)
  cases h with
  | failed hread =>
    exfalso
    rcases Nat.lt_trichotomy k kb with hlt | heq | hgt
    · obtain ⟨b, hread', -⟩ := hbody.1 k hlt
      cases hread.symm.trans hread'
    · obtain ⟨-, b, hread', -⟩ := hbody
      rw [heq] at hread
      cases hread.symm.trans hread'
    · exact hbody.not_full (hfull kb hgt)
  | limit hk hlimit => exact ⟨hbefore hk, Or.inl hlimit⟩
  | memory hk halloc => exact ⟨hbefore hk, Or.inr halloc⟩

/-- **Chunked bodies.** Whatever the client sends, the function ends, stays inside its buffer and
returns what it received. It refuses every body over the limit exactly when such a body reaches the
next size of the buffer. -/
theorem meets_iff (env : Env) (maxRead : Int) : Meets env maxRead ↔ LimitReached env maxRead := by
  obtain ⟨⟨result, writes⟩, hrun, hwrites, hends⟩ := readAllChunkedInput_spec env maxRead
  constructor
  · rintro ⟨o, hrun', -, -, hlimit, -⟩ k body hbody hlong
    obtain rfl := Option.some.inj (hrun.symm.trans hrun')
    obtain ⟨r, rfl⟩ := hlimit k body hbody hlong
    rcases hends with ⟨hzero, -⟩ | ⟨k', hend, hfull, -, -⟩
    · exact Or.inr ⟨0, Nat.zero_le _, hzero⟩
    · obtain ⟨hk, hreason⟩ := hend.of_error hfull hbody
      have hreached : start (k' + 1) ≤ body.length :=
        (start_strictMono.monotone hk).trans hbody.length.1
      rcases hreason with hover | hmemory
      · exact Or.inl ⟨k', hover, hreached⟩
      · exact Or.inr ⟨k' + 1, hreached, hmemory⟩
  · intro h
    refine ⟨⟨result, writes⟩, hrun, hwrites, ?_, ?_, ?_⟩
    · rintro data rfl
      rcases hends with ⟨-, hmemory⟩ | ⟨k, hend, -⟩
      · cases hmemory
      · exact ⟨k, hend.delivers⟩
    · intro k body hbody hlong
      cases result with
      | error r => exact ⟨r, rfl⟩
      | ok data =>
        exfalso
        rcases hends with ⟨-, hmemory⟩ | ⟨k', hend, -, hlimits, hallocs⟩
        · cases hmemory
        · obtain ⟨rfl, rfl⟩ := hbody.unique hend.delivers
          have hend := hbody.length.2
          rcases h k body hbody hlong with ⟨j, hover, hreached⟩ | ⟨j, hreached, hmemory⟩
          · have hj : j < k := by
              have := start_strictMono.lt_iff_lt.mp (hreached.trans_lt hend)
              omega
            have := hlimits j hj
            omega
          · have hj := start_strictMono.lt_iff_lt.mp (hreached.trans_lt hend)
            exact hmemory (hallocs j (by omega))
    · intro hfull
      cases result with
      | error r => exact ⟨r, rfl⟩
      | ok data =>
        exfalso
        rcases hends with ⟨-, hmemory⟩ | ⟨k, hend, -⟩
        · cases hmemory
        · exact hend.delivers.not_full (hfull k)

def oneByte : Env where
  read i n := .ok (if i = 0 then [7].take n else [])
  read_le i n b h := by
    obtain rfl := Except.ok.inj h
    split_ifs
    · exact length_take_le n [7]
    · exact Nat.zero_le n
  alloc _ n := decide (n < 2 ^ 63)
  alloc_lt _ _ h := of_decide_eq_true h

/-- With a limit of zero bytes, its body is accepted. -/
theorem oneByte_accepted :
    readAllChunkedInput oneByte 0 = some ⟨.ok [7], [⟨1, 1, 4097⟩, ⟨0, 4096, 4097⟩]⟩ ∧
      Delivers oneByte 0 [7] ∧ ¬ Meets oneByte 0 := by
  have hrun : readAllChunkedInput oneByte 0 = some ⟨.ok [7], [⟨1, 1, 4097⟩, ⟨0, 4096, 4097⟩]⟩ := rfl
  have hbody : Delivers oneByte 0 [7] :=
    ⟨fun i hi => absurd hi (Nat.not_lt_zero i), [7], rfl, by decide, rfl⟩
  refine ⟨hrun, hbody, ?_⟩
  rintro ⟨o, hrun', -, -, hlimit, -⟩
  obtain rfl := Option.some.inj (hrun.symm.trans hrun')
  obtain ⟨r, hr⟩ := hlimit 0 [7] hbody (by decide)
  cases hr

end RadosGateway.RestInput
