import RadosGateway.Base.Json

/-!
# Rules for JSON texts

What the parser does with the pieces a writer puts together, and a bound: a text has at least as
many bytes that quote, escape or separate (`marks`) as its value needs. -/

namespace Json

open Text List Option

variable {b : Bytes} {n : Nat} {t : Bytes} {c : UInt8} {rest : Bytes} {v : Value} {z : Int}

def isMark (c : UInt8) : Bool :=
  c = 34 || c = 92 || c = 44 || c = 98 || c = 102 || c = 110 || c = 114 || c = 116 || c = 117

def marks (t : Bytes) : Nat := t.countP isMark

def byteMarks (c : UInt8) : Nat :=
  if c = 34 ∨ c = 92 ∨ c < 32 then 2 else if isMark c then 1 else 0

def stringMarks (s : Bytes) : Nat := (s.map byteMarks).sum

mutual

def Value.marks : Value → Nat
  | .null => 0
  | .bool _ => 0
  | .num _ => 0
  | .str s => 2 + stringMarks s
  | .arr vs => vs.length - 1 + itemsMarks vs
  | .obj ms => ms.length - 1 + membersMarks ms

def itemsMarks : List Value → Nat
  | [] => 0
  | v :: vs => v.marks + itemsMarks vs

def membersMarks : List (Bytes × Value) → Nat
  | [] => 0
  | (k, v) :: ms => 2 + stringMarks k + v.marks + membersMarks ms

end

theorem isMark_eq_false_of_isBlank (h : isBlank c = true) : isMark c = false := by
  simp only [isBlank, Bool.or_eq_true, decide_eq_true_eq] at h
  rcases h with ((rfl | rfl) | rfl) | rfl <;> decide

theorem marks_cons (c : UInt8) (t : Bytes) : marks (c :: t) = marks t + if isMark c then 1 else 0 :=
  countP_cons

theorem marks_append (t u : Bytes) : marks (t ++ u) = marks t + marks u := countP_append

theorem marks_le_cons (c : UInt8) (t : Bytes) : marks t ≤ marks (c :: t) := by
  rw [marks_cons]
  omega

theorem marks_le_of_suffix {t u : Bytes} (h : t <:+ u) : marks t ≤ marks u := h.sublist.countP_le

theorem marks_skipBlanks (t : Bytes) : marks (skipBlanks t) = marks t := by
  induction t with
  | nil => rfl
  | cons c t ih =>
    unfold skipBlanks at ih ⊢
    rw [dropWhile_cons]
    split_ifs with hblank
    · rw [ih, marks_cons, if_neg (by rw [isMark_eq_false_of_isBlank hblank]; decide)]
      rfl
    · rfl

theorem marks_of_expect {t t' : Bytes} (h : expect c t = some t') :
    marks t = marks t' + if isMark c then 1 else 0 := by
  rw [← marks_skipBlanks]
  unfold expect at h
  split at h
  · cases h
  · rename_i c' t'' heq
    split_ifs at h with hc
    cases h
    rw [heq, marks_cons, hc]

theorem stringMarks_append (s u : Bytes) :
    stringMarks (s ++ u) = stringMarks s + stringMarks u := by
  simp [stringMarks]

theorem byteMarks_le_two (c : UInt8) : byteMarks c ≤ 2 := by
  unfold byteMarks
  split_ifs <;> omega

theorem byteMarks_high {d : Nat} (hlow : 128 ≤ d) (hhigh : d < 256) : byteMarks d.toUInt8 = 0 := by
  have hd : d.toUInt8.toNat = d := UInt8.toNat_ofNat_of_lt' hhigh
  have hne {k : UInt8} (hk : k.toNat < 128) : d.toUInt8 ≠ k := by
    intro heq
    rw [heq] at hd
    omega
  have hcontrol : ¬ d.toUInt8 < 32 := by
    rw [UInt8.lt_iff_toNat_lt, hd]
    change ¬ d < 32
    omega
  simp [byteMarks, isMark, hcontrol, hne]

theorem stringMarks_utf8 (n : Nat) : stringMarks (utf8 n) ≤ 2 := by
  unfold utf8 stringMarks
  split_ifs with h₁ h₂ h₃
  · simpa using byteMarks_le_two n.toUInt8
  all_goals
    simp only [map_cons, map_nil, sum_cons, sum_nil]
    repeat rw [byteMarks_high (by omega) (by omega)]
    omega

theorem marks_of_codeUnit {t rest : Bytes} (h : codeUnit t = some (n, rest)) :
    marks rest ≤ marks t := by
  unfold codeUnit at h
  split_ifs at h
  obtain ⟨ds, -, h⟩ := map_eq_some_iff.mp h
  obtain ⟨-, rfl⟩ := Prod.mk.inj h
  exact marks_le_of_suffix (drop_suffix 4 t)

theorem marks_of_codePoint {t s rest : Bytes} (h : codePoint t = some (s, rest)) :
    stringMarks s + marks rest ≤ marks t + 2 := by
  obtain ⟨⟨hi, t₁⟩, hhi, h⟩ := bind_eq_some_iff.mp h
  have hfirst := marks_of_codeUnit hhi
  simp only at h
  split_ifs at h with hplain hpair
  · obtain ⟨rfl, rfl⟩ := Prod.mk.inj (some.inj h)
    have := stringMarks_utf8 hi
    omega
  · obtain ⟨⟨lo, t₂⟩, hlo, h⟩ := bind_eq_some_iff.mp h
    have hsecond := (marks_of_codeUnit hlo).trans (marks_le_of_suffix (drop_suffix 2 t₁))
    simp only at h
    split_ifs at h
    obtain ⟨rfl, rfl⟩ := Prod.mk.inj (some.inj h)
    have := stringMarks_utf8 (0x10000 + (hi - 0xd800) * 0x400 + (lo - 0xdc00))
    omega

theorem byteMarks_of_escaped {c b : UInt8} (h : escaped c = some b) :
    byteMarks b ≤ (if isMark c then 1 else 0) + 1 := by
  unfold escaped at h
  split_ifs at h with hself
  · cases h
    rcases hself with rfl | rfl | rfl <;> decide
  all_goals
    subst_vars
    cases h
    decide

theorem marks_of_unescape {t s rest : Bytes} (h : unescape t = some (s, rest)) :
    stringMarks s + marks rest ≤ marks t + 1 := by
  cases t with
  | nil => cases h
  | cons c t =>
    rw [marks_cons]
    rw [unescape] at h
    split_ifs at h with hu
    · have := marks_of_codePoint h
      subst hu
      change _ ≤ marks t + 1 + 1
      omega
    · obtain ⟨b, hb, h⟩ := map_eq_some_iff.mp h
      obtain ⟨rfl, rfl⟩ := Prod.mk.inj h
      have := byteMarks_of_escaped hb
      change byteMarks b + 0 + marks t ≤ _
      omega

theorem marks_of_string {t s rest : Bytes} (h : string n t = some (s, rest)) :
    stringMarks s + 1 + marks rest ≤ marks t := by
  induction n generalizing t s rest with
  | zero => cases h
  | succ n ih =>
    cases t with
    | nil => cases h
    | cons c t =>
      rw [string] at h
      split_ifs at h with hquote hescape hcontrol
      · cases h
        rw [marks_cons, hquote]
        simp [stringMarks, isMark]
        omega
      · obtain ⟨⟨s₁, t₁⟩, hunescape, h⟩ := bind_eq_some_iff.mp h
        obtain ⟨⟨s₂, t₂⟩, hstring, h⟩ := map_eq_some_iff.mp h
        cases h
        have hfirst := marks_of_unescape hunescape
        have hrest := ih hstring
        rw [marks_cons, hescape, stringMarks_append]
        change stringMarks s₁ + stringMarks s₂ + 1 + marks t₂ ≤ marks t + 1
        change stringMarks s₂ + 1 + marks t₂ ≤ marks t₁ at hrest
        omega
      · obtain ⟨⟨s₂, t₂⟩, hstring, h⟩ := map_eq_some_iff.mp h
        cases h
        have hrest := ih hstring
        have hbyte : stringMarks (c :: s₂) = (if isMark c then 1 else 0) + stringMarks s₂ := by
          rw [stringMarks, map_cons, sum_cons, byteMarks, if_neg (by tauto)]
          rfl
        change stringMarks (c :: s₂) + 1 + marks t₂ ≤ _
        rw [marks_cons, hbyte]
        omega

theorem marks_of_scalar {t rest : Bytes} (h : scalar t = some (v, rest)) :
    v.marks + marks rest ≤ marks t := by
  have hdrop (k : Nat) : 0 + marks (t.drop k) ≤ marks t := by
    rw [zero_add]
    exact marks_le_of_suffix (drop_suffix k t)
  unfold scalar at h
  split_ifs at h
  · cases h
    exact hdrop 4
  · cases h
    exact hdrop 5
  · cases h
    exact hdrop 4
  · obtain ⟨q, -, h⟩ := map_eq_some_iff.mp h
    cases h
    rw [Value.marks, zero_add]
    exact marks_le_of_suffix (dropWhile_suffix _)

section Lists

variable {α : Type} {close : UInt8} {entry : Bytes → Option (α × Bytes)} {need : α → Nat}

section

variable (hentry : ∀ t a rest, entry t = some (a, rest) → need a + marks rest ≤ marks t)
include hentry

theorem marks_of_moreEntries {as : List α} (h : moreEntries close entry n t = some (as, rest)) :
    as.length + (as.map need).sum + marks rest ≤ marks t := by
  induction n generalizing t as rest with
  | zero => cases h
  | succ n ih =>
    rw [moreEntries] at h
    split at h
    · rename_i t₁ hcomma
      obtain ⟨⟨a, t₂⟩, ha, h⟩ := bind_eq_some_iff.mp h
      obtain ⟨⟨as', t₃⟩, has, h⟩ := map_eq_some_iff.mp h
      cases h
      have hmarks : marks t = marks t₁ + 1 := marks_of_expect hcomma
      have hfirst := hentry _ _ _ ha
      have hrest := ih has
      simp only [length_cons, map_cons, sum_cons]
      dsimp only at hrest
      omega
    · obtain ⟨t₁, hclose, h⟩ := map_eq_some_iff.mp h
      cases h
      have hmarks := marks_of_expect hclose
      simp only [length_nil, map_nil, sum_nil]
      omega

theorem marks_of_entries {as : List α} (h : entries close entry n t = some (as, rest)) :
    as.length - 1 + (as.map need).sum + marks rest ≤ marks t := by
  unfold entries at h
  split at h
  · rename_i t₁ hclose
    cases h
    have hmarks := marks_of_expect hclose
    simp only [length_nil, map_nil, sum_nil]
    omega
  · obtain ⟨⟨a, t₂⟩, ha, h⟩ := bind_eq_some_iff.mp h
    obtain ⟨⟨as', t₃⟩, has, h⟩ := map_eq_some_iff.mp h
    cases h
    have hfirst := hentry _ _ _ ha
    have hrest := marks_of_moreEntries hentry has
    simp only [length_cons, map_cons, sum_cons]
    dsimp only at hrest
    omega

end

end Lists

def memberMarks (m : Bytes × Value) : Nat := 2 + stringMarks m.1 + m.2.marks

theorem itemsMarks_eq (vs : List Value) : itemsMarks vs = (vs.map Value.marks).sum := by
  induction vs with
  | nil => rfl
  | cons v vs ih => rw [itemsMarks, ih, map_cons, sum_cons]

theorem membersMarks_eq (ms : List (Bytes × Value)) :
    membersMarks ms = (ms.map memberMarks).sum := by
  induction ms with
  | nil => rfl
  | cons m ms ih =>
    rw [membersMarks, ih, map_cons, sum_cons]
    rfl

theorem marks_of_member {item : Bytes → Option (Value × Bytes)}
    (hitem : ∀ t v rest, item t = some (v, rest) → v.marks + marks rest ≤ marks t)
    {m : Bytes × Value} (h : member item n t = some (m, rest)) :
    memberMarks m + marks rest ≤ marks t := by
  obtain ⟨t₁, hopen, h⟩ := bind_eq_some_iff.mp h
  obtain ⟨⟨k, t₂⟩, hk, h⟩ := bind_eq_some_iff.mp h
  obtain ⟨t₃, hcolon, h⟩ := bind_eq_some_iff.mp h
  obtain ⟨⟨v, t₄⟩, hv, h⟩ := map_eq_some_iff.mp h
  cases h
  have hquote : marks t = marks t₁ + 1 := marks_of_expect hopen
  have hkey := marks_of_string hk
  have hcolon' : marks t₂ = marks t₃ + 0 := marks_of_expect hcolon
  have hvalue := hitem _ _ _ hv
  rw [memberMarks]
  dsimp only
  omega

/-- A value is read off its text: the text has at least the quotes, commas and letters of escapes
that the value needs. -/
theorem marks_of_value (h : value n t = some (v, rest)) : v.marks + marks rest ≤ marks t := by
  induction n generalizing t v rest with
  | zero => cases h
  | succ n ih =>
    have hitem (t : Bytes) (v : Value) (rest : Bytes) (h : value n t = some (v, rest)) :
        v.marks + marks rest ≤ marks t := ih h
    rw [← marks_skipBlanks t]
    rw [value] at h
    split at h
    · cases h
    · rename_i c t' hskip
      rw [hskip]
      have hmore := marks_le_cons c t'
      split_ifs at h with hquote harr hobj
      · obtain ⟨⟨s, t₁⟩, hstring, h⟩ := map_eq_some_iff.mp h
        cases h
        have hs := marks_of_string hstring
        rw [marks_cons, hquote, Value.marks]
        change 2 + stringMarks s + marks t₁ ≤ marks t' + 1
        omega
      · obtain ⟨⟨vs, t₁⟩, hitems, h⟩ := map_eq_some_iff.mp h
        cases h
        have hvs := marks_of_entries hitem hitems
        rw [Value.marks, itemsMarks_eq]
        dsimp only
        omega
      · obtain ⟨⟨ms, t₁⟩, hmembers, h⟩ := map_eq_some_iff.mp h
        cases h
        have hmember (t : Bytes) (m : Bytes × Value) (rest : Bytes)
            (h : member (value n) n t = some (m, rest)) : memberMarks m + marks rest ≤ marks t :=
          marks_of_member hitem h
        have hms := marks_of_entries hmember hmembers
        rw [Value.marks, membersMarks_eq]
        dsimp only
        omega
      · exact marks_of_scalar h

theorem marks_of_parse (h : parse t = some v) : v.marks ≤ marks t := by
  obtain ⟨⟨v', rest⟩, hvalue, h⟩ := bind_eq_some_iff.mp h
  split_ifs at h
  cases h
  have hmarks := marks_of_value hvalue
  change v'.marks ≤ _
  omega

theorem isMark_le_byteMarks (c : UInt8) : (if isMark c then 1 else 0) ≤ byteMarks c := by
  unfold byteMarks
  split_ifs <;> omega

theorem marks_le_stringMarks (s : Bytes) : marks s ≤ stringMarks s := by
  induction s with
  | nil => exact Nat.le_refl _
  | cons c s ih =>
    have := isMark_le_byteMarks c
    rw [marks_cons, stringMarks, map_cons, sum_cons]
    change _ ≤ byteMarks c + stringMarks s
    omega

def Plain (s : Bytes) : Prop := ∀ c ∈ s, c ≠ 34 ∧ c ≠ 92 ∧ ¬ c < 32

theorem plain_of_stringMarks_le {s : Bytes} (h : stringMarks s ≤ marks s) : Plain s := by
  induction s with
  | nil => exact fun c hc => nomatch hc
  | cons c s ih =>
    have hfirst := isMark_le_byteMarks c
    have hrest := marks_le_stringMarks s
    rw [marks_cons, stringMarks, map_cons, sum_cons] at h
    change byteMarks c + stringMarks s ≤ _ at h
    intro c' hc'
    rcases mem_cons.mp hc' with rfl | hc'
    · by_contra hspecial
      have htwo : byteMarks c' = 2 := if_pos (by tauto)
      split_ifs at h <;> omega
    · exact ih (by omega) c' hc'

def Blank (t : Bytes) : Prop := ∀ c ∈ t, isBlank c = true

theorem marks_of_blank (hb : Blank b) : marks b = 0 := by
  apply countP_eq_zero.mpr
  intro c hc
  rw [isMark_eq_false_of_isBlank (hb c hc)]
  decide

theorem blank_nil : Blank [] := fun _ hc => nomatch hc

theorem blank_append {b b' : Bytes} (hb : Blank b) (hb' : Blank b') : Blank (b ++ b') := by
  intro c hc
  rcases mem_append.mp hc with hc | hc
  · exact hb c hc
  · exact hb' c hc

theorem skipBlanks_append (hb : Blank b) (hc : isBlank c = false) (t : Bytes) :
    skipBlanks (b ++ c :: t) = c :: t := by
  rw [skipBlanks, dropWhile_append_of_pos hb, dropWhile_cons_of_neg]
  rw [hc]
  decide

theorem expect_append (hb : Blank b) (hc : isBlank c = false) (t : Bytes) :
    expect c (b ++ c :: t) = some t := by
  rw [expect, skipBlanks_append hb hc]
  exact if_pos rfl

theorem expect_append_of_ne (hb : Blank b) {c c' : UInt8} (hc : isBlank c' = false)
    (hne : c' ≠ c) (t : Bytes) : expect c (b ++ c' :: t) = none := by
  rw [expect, skipBlanks_append hb hc]
  exact if_neg hne

theorem string_append {s : Bytes} (hs : Plain s) (hn : s.length < n) (t : Bytes) :
    string n (s ++ 34 :: t) = some (s, t) := by
  induction s generalizing n with
  | nil =>
    obtain ⟨n, rfl⟩ := Nat.exists_eq_succ_of_ne_zero (Nat.ne_of_gt hn)
    rw [nil_append, string, if_pos rfl]
  | cons c s ih =>
    obtain ⟨n, rfl⟩ := Nat.exists_eq_succ_of_ne_zero (Nat.ne_of_gt (Nat.zero_lt_of_lt hn))
    obtain ⟨hquote, hescape, hcontrol⟩ := hs c mem_cons_self
    have hrest := ih (fun c' hc' => hs c' (mem_cons_of_mem _ hc')) (Nat.lt_of_succ_lt_succ hn)
    rw [cons_append, string, if_neg hquote, if_neg hescape, if_neg hcontrol, hrest]
    rfl

theorem decimal_head {k : Nat} (h : (decimal k).head? = some 48) : decimal k = [48] := by
  unfold decimal at h ⊢
  split_ifs at h ⊢ with hk
  · rfl
  · have hne : Nat.digits 10 k ≠ [] := Nat.digits_ne_nil_iff_ne_zero.mpr hk
    have hlast := Nat.getLast_digit_ne_zero 10 hk
    have hlt := Nat.digits_lt_base (by norm_num) (getLast_mem hne)
    rw [head?_reverse, getLast?_map, getLast?_eq_some_getLast hne] at h
    have hbyte := congrArg UInt8.toNat (some.inj h)
    rw [digitByte_toNat hlt] at hbyte
    change 48 + _ = 48 at hbyte
    omega

theorem unsignedValue_decimal (k : Nat) : unsignedValue (decimal k) = some (k : ℚ) := by
  have hdrop : (decimal k).dropWhile isDigit = [] :=
    dropWhile_eq_nil_iff.mpr fun c hc => isDigit_of_mem_decimal hc
  have hint : intPart (decimal k) = some ((k : ℚ), []) := by
    rw [intPart, digits, takeWhile_isDigit_decimal, if_neg (decimal_ne_nil k), hdrop, bind_some,
      if_neg, digitsValue_decimal]
    exact fun h => h.2 (decimal_head h.1)
  rw [unsignedValue, hint]
  change some (((k : ℚ) + 0) * 1) = _
  rw [add_zero, mul_one]

theorem isNumberByte_of_mem_decimal {k : Nat} (hc : c ∈ decimal k) : isNumberByte c = true := by
  simp [isNumberByte, isDigit_of_mem_decimal hc]

theorem isNumberByte_of_mem_decimalInt (hc : c ∈ decimalInt z) : isNumberByte c = true := by
  unfold decimalInt at hc
  split_ifs at hc
  · rcases mem_cons.mp hc with rfl | hc
    · rfl
    · exact isNumberByte_of_mem_decimal hc
  · exact isNumberByte_of_mem_decimal hc

theorem marks_decimalInt (z : Int) : marks (decimalInt z) = 0 := by
  apply countP_eq_zero.mpr
  intro c hc hmark
  have hnumber := isNumberByte_of_mem_decimalInt hc
  simp only [isMark, Bool.or_eq_true, decide_eq_true_eq] at hmark
  rcases hmark with (((((((rfl | rfl) | rfl) | rfl) | rfl) | rfl) | rfl) | rfl) | rfl <;>
    exact absurd hnumber (by decide)

theorem numberValue_decimalInt (z : Int) : numberValue (decimalInt z) = some (z : ℚ) := by
  unfold decimalInt
  split_ifs with hz
  · rw [numberValue, head?_cons, if_pos rfl, tail_cons, unsignedValue_decimal, map_some]
    congr 1
    rw [← Int.cast_natCast, ← Int.cast_neg]
    congr 1
    omega
  · have hhead : ¬ (decimal z.natAbs).head? = some 45 := by
      intro h
      have := isDigit_of_mem_decimal (mem_of_mem_head? h)
      revert this
      decide
    rw [numberValue, if_neg hhead, unsignedValue_decimal]
    congr 1
    rw [← Int.cast_natCast]
    congr 1
    omega

def EndsNumber (t : Bytes) : Prop := ∀ c ∈ t.head?, isNumberByte c = false

theorem number_append (ht : EndsNumber t) : number (decimalInt z ++ t) = some (.num z, t) := by
  have hall : ∀ c ∈ decimalInt z, isNumberByte c = true :=
    fun c hc => isNumberByte_of_mem_decimalInt hc
  have hstop : t.takeWhile isNumberByte = [] ∧ t.dropWhile isNumberByte = t := by
    cases t with
    | nil => exact ⟨rfl, rfl⟩
    | cons c t =>
      have hc : ¬ isNumberByte c = true := by
        rw [ht c rfl]
        decide
      exact ⟨takeWhile_cons_of_neg hc, dropWhile_cons_of_neg hc⟩
  rw [number, takeWhile_append_of_pos hall, dropWhile_append_of_pos hall, hstop.1, hstop.2,
    append_nil, numberValue_decimalInt]
  rfl

theorem value_decimalInt (hb : Blank b) (ht : EndsNumber t) (n : Nat) :
    value (n + 1) (b ++ (decimalInt z ++ t)) = some (.num z, t) := by
  have hnumber := number_append (z := z) ht
  obtain ⟨c, rest, hz⟩ := exists_cons_of_ne_nil (decimalInt_ne_nil z)
  have hc : isNumberByte c = true :=
    isNumberByte_of_mem_decimalInt (by rw [hz]; exact mem_cons_self)
  have hne (k : UInt8) (hk : isNumberByte k = false) : c ≠ k := by
    rintro rfl
    rw [hk] at hc
    cases hc
  have hblank : isBlank c = false := by
    simp [isBlank, hne 32 (by decide), hne 9 (by decide), hne 10 (by decide), hne 13 (by decide)]
  rw [hz, cons_append] at hnumber ⊢
  rw [value, skipBlanks_append hb hblank]
  dsimp only
  rw [if_neg (hne 34 (by decide)), if_neg (hne 91 (by decide)), if_neg (hne 123 (by decide)),
    scalar]
  have hword (k : UInt8) (word : Bytes) (j : Nat) (hk : isNumberByte k = false) :
      ¬ (c :: (rest ++ t)).take (j + 1) = k :: word := by
    exact fun h => hne k hk (List.cons.inj h).1
  have htrue : ¬ (c :: (rest ++ t)).take 4 = ascii "true" := hword 116 [114, 117, 101] 3 (by decide)
  have hfalse : ¬ (c :: (rest ++ t)).take 5 = ascii "false" :=
    hword 102 [97, 108, 115, 101] 4 (by decide)
  have hnull : ¬ (c :: (rest ++ t)).take 4 = ascii "null" := hword 110 [117, 108, 108] 3 (by decide)
  rw [if_neg htrue, if_neg hfalse, if_neg hnull, hnumber]

section Lists

variable {α : Type} {close : UInt8} {entry : Bytes → Option (α × Bytes)}

def ReadsPiece (entry : Bytes → Option (α × Bytes)) (p : Bytes) (a : α) : Prop :=
  ∀ t, EndsNumber t → entry (p ++ t) = some (a, t)

theorem endsNumber_close (hb : Blank b) (hclose : isNumberByte close = false) (t : Bytes) :
    EndsNumber (b ++ close :: t) := by
  intro c hc
  cases b with
  | nil =>
    obtain rfl := some.inj hc
    exact hclose
  | cons c' b =>
    obtain rfl := some.inj hc
    have hblank := hb c' mem_cons_self
    simp only [isBlank, Bool.or_eq_true, decide_eq_true_eq] at hblank
    rcases hblank with ((rfl | rfl) | rfl) | rfl <;> decide

theorem endsNumber_flatMap (ps : List Bytes) (hb : Blank b) (hclose : isNumberByte close = false)
    (t : Bytes) :
    EndsNumber (ps.flatMap (fun p => 44 :: p) ++ (b ++ close :: t)) := by
  cases ps with
  | nil => exact endsNumber_close hb hclose t
  | cons p ps =>
    intro c hc
    cases hc
    decide

theorem entries_nil (hblank : isBlank close = false) (hb : Blank b) (n : Nat) (t : Bytes) :
    entries close entry n (b ++ close :: t) = some ([], t) := by
  rw [entries, expect_append hb hblank]

variable (hblank : isBlank close = false) (hnumber : isNumberByte close = false)
  (hcomma : close ≠ 44)

include hblank hnumber hcomma

/-- Entries behind commas are read one by one, up to the closing bracket. -/
theorem moreEntries_flatMap {ps : List Bytes} {as : List α}
    (h : List.Forall₂ (ReadsPiece entry) ps as) (hb : Blank b) (hn : ps.length < n) (t : Bytes) :
    moreEntries close entry n (ps.flatMap (fun p => 44 :: p) ++ (b ++ close :: t)) =
      some (as, t) := by
  induction h generalizing n with
  | nil =>
    obtain ⟨n, rfl⟩ := Nat.exists_eq_succ_of_ne_zero (Nat.ne_of_gt hn)
    rw [flatMap_nil, nil_append, moreEntries, expect_append_of_ne hb hblank hcomma,
      expect_append hb hblank]
    rfl
  | @cons p a ps as hp hps ih =>
    obtain ⟨n, rfl⟩ := Nat.exists_eq_succ_of_ne_zero (Nat.ne_of_gt (Nat.zero_lt_of_lt hn))
    have hends := endsNumber_flatMap ps hb hnumber t
    have htext : (p :: ps).flatMap (fun p => 44 :: p) ++ (b ++ close :: t)
        = 44 :: (p ++ (ps.flatMap (fun p => 44 :: p) ++ (b ++ close :: t))) := by
      rw [flatMap_cons, cons_append, cons_append, append_assoc]
    have hexpect (u : Bytes) : expect 44 (44 :: u) = some u :=
      expect_append blank_nil (by decide) u
    rw [htext, moreEntries, hexpect]
    dsimp only
    rw [hp _ hends, bind_some, ih (Nat.lt_of_succ_lt_succ hn)]
    rfl

theorem entries_flatMap (hfirst : ∀ t r, entry t = some r → expect close t = none)
    {p : Bytes} {ps : List Bytes} {a : α} {as : List α}
    (hp : ReadsPiece entry p a) (h : List.Forall₂ (ReadsPiece entry) ps as) (hb : Blank b)
    (hn : ps.length < n) (t : Bytes) :
    entries close entry n (p ++ (ps.flatMap (fun p => 44 :: p) ++ (b ++ close :: t))) =
      some (a :: as, t) := by
  have hread := hp _ (endsNumber_flatMap ps hb hnumber t)
  rw [entries, hfirst _ _ hread]
  rw [hread, bind_some, moreEntries_flatMap hblank hnumber hcomma h hb hn]
  rfl

end Lists

theorem value_array (hb : Blank b) (n : Nat) (t : Bytes) :
    value (n + 1) (b ++ 91 :: t) = (entries 93 (value n) n t).map fun r => (.arr r.1, r.2) := by
  rw [value, skipBlanks_append hb (by decide)]
  rfl

theorem value_object (hb : Blank b) (n : Nat) (t : Bytes) : value (n + 1) (b ++ 123 :: t)
      = (entries 125 (member (value n) n) n t).map fun r => (.obj r.1, r.2) := by
  rw [value, skipBlanks_append hb (by decide)]
  rfl

theorem value_comma (hb : Blank b) (n : Nat) (t : Bytes) : value n (b ++ 44 :: t) = none := by
  cases n with
  | zero => rfl
  | succ n =>
    rw [value, skipBlanks_append hb (by decide)]
    rfl

theorem expect_of_value {r : Value × Bytes} (h : value n t = some r) : expect 93 t = none := by
  cases n with
  | zero => cases h
  | succ n =>
    rw [value] at h
    rw [expect]
    cases hskip : skipBlanks t with
    | nil => rfl
    | cons c u =>
      rw [hskip] at h
      by_cases hc : c = 93
      · subst hc
        cases h
      · exact if_neg hc

theorem expect_of_member {item : Bytes → Option (Value × Bytes)}
    {r : (Bytes × Value) × Bytes} (h : member item n t = some r) : expect 125 t = none := by
  obtain ⟨u, hquote, -⟩ := bind_eq_some_iff.mp h
  rw [expect] at hquote ⊢
  cases hskip : skipBlanks t with
  | nil => rfl
  | cons c u =>
    rw [hskip] at hquote
    by_cases hc : c = 125
    · subst hc
      cases hquote
    · exact if_neg hc

end Json
