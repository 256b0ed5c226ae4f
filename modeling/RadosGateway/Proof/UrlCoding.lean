import RadosGateway.UrlCoding

/-!
# Decoding

What `url_encode` writes is read back, for every string. Of other strings `url_decode` tells only
some of those that are not well formed: an escape that the string cuts off passes, and one with a
byte from 0x80 on is looked up outside of the table. -/

namespace RadosGateway

open Text List

variable {c : UInt8} {s : Bytes}

def isHexDigit (c : UInt8) : Bool := isDigit c || (65 ≤ c && c ≤ 70) || (97 ≤ c && c ≤ 102)

theorem isSome_hexToNum (c : UInt8) : (hexToNum c).isSome = isHexDigit c := by
  grind [hexToNum, isHexDigit, isDigit]

theorem toNum_eq (c : UInt8) : toNum c = if c < 128 then some (hexToNum c) else none := by
  have hc := c.toNat_lt
  unfold toNum signedChar
  by_cases hlt : c < 128
  · have hindex : 0 ≤ (c.toNat : Int) ∧ (c.toNat : Int) < 256 := by omega
    simp [hlt, hindex, hexTable]
  · simp only [hlt, if_false]
    exact dif_neg (by omega)

theorem lt_of_isHexDigit (h : isHexDigit c = true) : c < 128 ∧ c ≠ 0 := by
  grind [isHexDigit, isDigit]

theorem toNum_of_isHexDigit (h : isHexDigit c = true) :
    toNum c = some (some ((hexToNum c).getD 0)) := by
  rw [toNum_eq, if_pos (lt_of_isHexDigit h).1]
  rw [← isSome_hexToNum, Option.isSome_iff_exists] at h
  obtain ⟨d, hd⟩ := h
  rw [hd]
  rfl

theorem toNum_eq_some_none : toNum c = some none ↔ c < 128 ∧ isHexDigit c = false := by
  rw [toNum_eq, ← isSome_hexToNum]
  split_ifs with hlt
  · simp [hlt]
  · simp [hlt]

theorem isHexDigit_of_toNum {c d : UInt8} (h : toNum c = some (some d)) : isHexDigit c = true := by
  rw [toNum_eq] at h
  split_ifs at h
  rw [← isSome_hexToNum, Option.some.inj h]
  rfl

theorem hexToNum_upperHexDigit {d : UInt8} (h : d < 16) : hexToNum (upperHexDigit d) = some d := by
  grind [hexToNum, upperHexDigit]

theorem toNum_upperHexDigit {d : UInt8} (h : d < 16) : toNum (upperHexDigit d) = some (some d) := by
  have hlt : upperHexDigit d < 128 := by grind [upperHexDigit]
  rw [toNum_eq, if_pos hlt, hexToNum_upperHexDigit h]

theorem toNat_high (c : UInt8) : (c >>> 4).toNat = c.toNat / 16 := by
  rw [UInt8.toNat_shiftRight]
  exact Nat.shiftRight_eq_div_pow _ _

theorem toNat_low (c : UInt8) : (c &&& 15).toNat = c.toNat % 16 :=
  Nat.and_two_pow_sub_one_eq_mod c.toNat 4

theorem halves_lt (c : UInt8) : c >>> 4 < 16 ∧ c &&& 15 < 16 := by
  have hc := c.toNat_lt
  rw [UInt8.lt_iff_toNat_lt, UInt8.lt_iff_toNat_lt, toNat_high, toNat_low]
  change c.toNat / 16 < 16 ∧ c.toNat % 16 < 16
  omega

theorem hexToNum_escape (c : UInt8) :
    toNum (upperHexDigit (c >>> 4)) = some (some (c >>> 4)) ∧
    toNum (upperHexDigit (c &&& 15)) = some (some (c &&& 15)) := by
  obtain ⟨hhigh, hlow⟩ := halves_lt c
  exact ⟨toNum_upperHexDigit hhigh, toNum_upperHexDigit hlow⟩

theorem halves_eq (c : UInt8) : (c >>> 4) <<< 4 ||| (c &&& 15) = c := by
  apply UInt8.toBitVec_inj.mp
  ext i hi
  interval_cases i <;> simp

theorem plain_of_not_needs (h : charNeedsUrlEncoding c = false) :
    c ≠ 0 ∧ c ≠ 37 ∧ c ≠ 38 ∧ c ≠ 43 ∧ c ≠ 47 ∧ c ≠ 61 ∧ c ≠ 63 := by
  refine ⟨?_, ?_, ?_, ?_, ?_, ?_, ?_⟩ <;> rintro rfl <;> exact absurd h (by decide)

theorem plain_of_isHexDigit (h : isHexDigit c = true) : c ≠ 0 ∧ c ≠ 38 ∧ c ≠ 61 ∧ c ≠ 63 := by
  grind [isHexDigit, isDigit]

theorem forall_mem_escapeChar (c : UInt8) : ∀ b ∈ escapeChar c, b ≠ 0 ∧ b ≠ 38 ∧ b ≠ 61 ∧
    b ≠ 63 := by
  obtain ⟨hhigh, hlow⟩ := hexToNum_escape c
  rw [escapeChar, forall_mem_cons, forall_mem_cons, forall_mem_singleton]
  refine ⟨?_, plain_of_isHexDigit (isHexDigit_of_toNum hhigh),
    plain_of_isHexDigit (isHexDigit_of_toNum hlow)⟩
  decide

variable (inQuery : Bool)

theorem decodeLoop_escapeChar (c : UInt8) (src : Bytes) :
    decodeLoop inQuery (escapeChar c ++ src) = (decodeLoop inQuery src).map (c :: ·) := by
  obtain ⟨hhigh, hlow⟩ := hexToNum_escape c
  change decodeLoop inQuery (37 :: upperHexDigit (c >>> 4) :: upperHexDigit (c &&& 15) :: src) = _
  rw [decodeLoop.eq_def]
  dsimp only
  rw [if_pos rfl, hhigh, hlow]
  dsimp only
  rw [halves_eq]

theorem decodeLoop_plain (h : c ≠ 37) (hplus : c ≠ 43) (hask : c ≠ 63) (src : Bytes) :
    decodeLoop inQuery (c :: src) = (decodeLoop inQuery src).map (c :: ·) := by
  rw [decodeLoop.eq_def]
  dsimp only
  rw [if_neg h, if_pos (by simp [hplus]), decide_eq_false hask, Bool.or_false]

theorem Decoding.map_map (f g : Bytes → Bytes) (d : Decoding) : (d.map g).map f = d.map fun s =>
    f (g s) := by
  cases d <;> rfl

theorem Decoding.map_id (d : Decoding) : d.map (fun s => s) = d := by
  cases d <;> rfl

theorem urlEncode_cons (c : UInt8) (s : Bytes) :
    urlEncode (c :: s) = (if charNeedsUrlEncoding c then escapeChar c else [c]) ++ urlEncode s :=
  flatMap_cons

theorem decodeLoop_urlEncode (s src : Bytes) :
    decodeLoop inQuery (urlEncode s ++ src) = (decodeLoop inQuery src).map (s ++ ·) := by
  induction s with
  | nil => exact (Decoding.map_id _).symm
  | cons c s ih =>
    rw [urlEncode_cons, append_assoc]
    by_cases hneeds : charNeedsUrlEncoding c = true
    · rw [if_pos hneeds, decodeLoop_escapeChar, ih, Decoding.map_map]
      rfl
    · obtain ⟨-, hescape, -, hplus, -, -, hask⟩ := plain_of_not_needs (Bool.eq_false_iff.mpr hneeds)
      rw [if_neg hneeds, singleton_append, decodeLoop_plain inQuery hescape hplus hask, ih,
        Decoding.map_map]
      rfl

theorem mem_urlEncode {b : UInt8} (h : b ∈ urlEncode s) : b ≠ 0 ∧ b ≠ 38 ∧ b ≠ 61 ∧ b ≠ 63 := by
  obtain ⟨c, -, hb⟩ := mem_flatMap.mp h
  by_cases hneeds : charNeedsUrlEncoding c = true
  · rw [if_pos hneeds] at hb
    exact forall_mem_escapeChar c b hb
  · rw [if_neg hneeds, mem_singleton] at hb
    obtain ⟨h0, -, hamp, -, -, heq, hask⟩ := plain_of_not_needs (Bool.eq_false_iff.mpr hneeds)
    exact hb ▸ ⟨h0, hamp, heq, hask⟩

/-- **URL coding.** What `url_encode` writes of a text without zero bytes is decoded to it, in a
query and outside of one, without a read outside of the table. -/
theorem urlDecodeChecked_urlEncode (s : Bytes) (inQuery : Bool) (h : 0 ∉ s) :
    urlDecodeChecked (urlEncode s) inQuery = .decoded s := by
  have hencoded : cstr (urlEncode s) = urlEncode s :=
    cstr_eq_self fun hmem => (mem_urlEncode hmem).1 rfl
  have hloop : decodeLoop inQuery (urlEncode s) = .decoded s := by
    have happend := decodeLoop_urlEncode inQuery s []
    rw [append_nil] at happend
    rw [happend]
    change Decoding.decoded (s ++ []) = _
    rw [append_nil]
  rw [urlDecodeChecked, hencoded, hloop]
  exact congrArg Decoding.decoded (cstr_eq_self h)

/-- A blank, a percent sign, a plus sign and a letter of two bytes. -/
theorem urlDecodeChecked_urlEncode_letters :
    urlDecodeChecked (urlEncode ([97, 32, 37, 43, 63] ++ [0xC3, 0xA9])) true
      = .decoded ([97, 32, 37, 43, 63] ++ [0xC3, 0xA9]) :=
  urlDecodeChecked_urlEncode ([97, 32, 37, 43, 63] ++ [0xC3, 0xA9]) true (by decide)

def wellEscaped : Bytes → Bool
  | [] => true
  | c :: s =>
    if c = 37 then
      match s with
      | a :: b :: s => isHexDigit a && isHexDigit b && wellEscaped s
      | _ => false
    else wellEscaped s

def fullDecoding (inQuery : Bool) : Bytes → Bytes
  | [] => []
  | c :: s =>
    if c = 37 then
      match s with
      | a :: b :: s => (((hexToNum a).getD 0) <<< 4 ||| (hexToNum b).getD 0) ::
        fullDecoding inQuery s
      | _ => []
    else (if inQuery && c = 43 then 32 else c) :: fullDecoding (inQuery || c = 63) s

def DecodesFully (s : Bytes) (inQuery : Bool) : Prop :=
  urlDecodeChecked s inQuery = if wellEscaped s then .decoded (fullDecoding inQuery s) else .refused

def refusedEscape : Bytes → Bool
  | [] => false
  | c :: s =>
    if c = 0 then false
    else if c = 37 then
      match s with
      | a :: b :: s =>
        if isHexDigit a && isHexDigit b then refusedEscape s
        else a ≠ 0 && b ≠ 0 && a < 128 && (!isHexDigit a || b < 128)
      | _ => false
    else refusedEscape s

theorem wellEscaped_escape (a b : UInt8) (s : Bytes) :
    wellEscaped (37 :: a :: b :: s) = (isHexDigit a && isHexDigit b && wellEscaped s) := rfl

theorem wellEscaped_cut (h : s.length ≤ 1) : wellEscaped (37 :: s) = false := by
  match s with
  | [] => rfl
  | [a] => rfl
  | _ :: _ :: _ => simp at h

theorem wellEscaped_other (h : c ≠ 37) (s : Bytes) : wellEscaped (c :: s) = wellEscaped s := by
  rw [wellEscaped.eq_def]
  dsimp only
  rw [if_neg h]

theorem length_le_one (h : ∀ a b t, s = a :: b :: t → False) : s.length ≤ 1 := by
  match s with
  | [] => exact Nat.zero_le 1
  | [a] => exact Nat.le_refl 1
  | a :: b :: t => exact absurd rfl (h a b t)

theorem Decoding.map_eq_refused {f : Bytes → Bytes} {d : Decoding} : d.map f = .refused ↔
    d = .refused := by
  cases d <;> simp [Decoding.map]

theorem cstr_cons (h : c ≠ 0) (s : Bytes) : cstr (c :: s) = c :: cstr s :=
  takeWhile_cons_of_pos (by simp [h])

theorem cstr_zero (s : Bytes) : cstr (0 :: s) = [] := takeWhile_cons_of_neg (by simp)

theorem decodeLoop_cut (h : s.length ≤ 1) : decodeLoop inQuery (37 :: s) ≠ .refused := by
  match s with
  | [] => exact Decoding.noConfusion
  | [a] =>
    rw [decodeLoop.eq_def]
    dsimp only
    rw [if_pos rfl]
    split_ifs <;> exact Decoding.noConfusion
  | _ :: _ :: _ => simp at h

theorem decodeLoop_escape (a b : UInt8) (s : Bytes) (ha : isHexDigit a = true)
    (hb : isHexDigit b = true) : decodeLoop inQuery (37 :: a :: b :: s)
      = (decodeLoop inQuery s).map ((((hexToNum a).getD 0) <<< 4 ||| (hexToNum b).getD 0) ::
        ·) := by
  rw [decodeLoop.eq_def]
  dsimp only
  rw [if_pos rfl, toNum_of_isHexDigit ha, toNum_of_isHexDigit hb]

/-- A bad escape is refused unless a byte of it is outside of the table. -/
theorem decodeLoop_bad_escape (a b : UInt8) (s : Bytes)
    (h : ¬ (isHexDigit a = true ∧ isHexDigit b = true)) :
    decodeLoop inQuery (37 :: a :: b :: s) = .refused ↔
    a < 128 ∧ (isHexDigit a = false ∨ b < 128) := by
  rw [decodeLoop.eq_def]
  dsimp only
  rw [if_pos rfl]
  by_cases ha : a < 128
  · by_cases hhex : isHexDigit a = true
    · have hb : isHexDigit b = false := Bool.eq_false_iff.mpr fun hb => h ⟨hhex, hb⟩
      rw [toNum_of_isHexDigit hhex]
      dsimp only
      by_cases hlt : b < 128
      · rw [toNum_eq_some_none.mpr ⟨hlt, hb⟩]
        exact iff_of_true rfl ⟨ha, Or.inr hlt⟩
      · rw [toNum_eq b, if_neg hlt]
        refine iff_of_false Decoding.noConfusion fun hand => ?_
        exact hand.2.elim (fun hnot => absurd hhex (by simp [hnot])) hlt
    · have hnot : isHexDigit a = false := Bool.eq_false_iff.mpr hhex
      rw [toNum_eq_some_none.mpr ⟨ha, hnot⟩]
      exact iff_of_true rfl ⟨ha, Or.inl hnot⟩
  · rw [toNum_eq a, if_neg ha]
    exact iff_of_false Decoding.noConfusion fun hand => ha hand.1

theorem decodeLoop_other (h : c ≠ 37) (s : Bytes) : decodeLoop inQuery (c :: s)
      = (decodeLoop (inQuery || c = 63) s).map ((if inQuery && c = 43 then 32 else c) :: ·) := by
  rw [decodeLoop.eq_def]
  dsimp only
  rw [if_neg h]
  cases inQuery with
  | false => rfl
  | true =>
    by_cases hplus : c = 43
    · subst hplus
      rfl
    · rw [if_pos (by simp [hplus])]
      simp [hplus]

/-- A text is refused exactly for an escape inside of the table that is bad. -/
theorem decodeLoop_eq_refused_iff (s : Bytes) : decodeLoop inQuery (cstr s) = .refused ↔
    refusedEscape s = true := by
  fun_induction refusedEscape s generalizing inQuery with
  | case1 => exact iff_of_false Decoding.noConfusion Bool.noConfusion
  | case2 =>
    rw [cstr_zero]
    exact iff_of_false Decoding.noConfusion Bool.noConfusion
  | case3 a b s hhex h0 ih =>
    obtain ⟨ha, hb⟩ := Bool.and_eq_true_iff.mp hhex
    rw [cstr_cons h0, cstr_cons (lt_of_isHexDigit ha).2, cstr_cons (lt_of_isHexDigit hb).2,
      decodeLoop_escape _ _ _ _ ha hb, Decoding.map_eq_refused]
    exact ih inQuery
  | case4 a b s hhex h0 =>
    rw [Bool.and_eq_true_iff] at hhex
    rw [cstr_cons h0]
    by_cases ha : a = 0
    · subst ha
      rw [cstr_zero]
      exact iff_of_false (decodeLoop_cut inQuery (Nat.zero_le 1)) (by simp)
    · rw [cstr_cons ha]
      by_cases hb : b = 0
      · subst hb
        rw [cstr_zero]
        exact iff_of_false (decodeLoop_cut inQuery (Nat.le_refl 1)) (by simp)
      · rw [cstr_cons hb, decodeLoop_bad_escape _ _ _ _ hhex]
        simp [ha, hb]
  | case5 s hshort h0 =>
    rw [cstr_cons h0]
    refine iff_of_false (decodeLoop_cut inQuery ?_) Bool.noConfusion
    exact (takeWhile_sublist _).length_le.trans (length_le_one hshort)
  | case6 c s h0 hne ih =>
    rw [cstr_cons h0, decodeLoop_other _ hne, Decoding.map_eq_refused]
    exact ih (inQuery || c = 63)

theorem not_wellEscaped_of_refusedEscape (h : refusedEscape s = true) : wellEscaped s = false := by
  fun_induction refusedEscape s with
  | case1 => exact absurd h Bool.noConfusion
  | case2 => exact absurd h Bool.noConfusion
  | case3 a b s hhex h0 ih =>
    rw [wellEscaped_escape, hhex, ih h]
    rfl
  | case4 a b s hhex h0 =>
    rw [wellEscaped_escape, Bool.eq_false_iff.mpr hhex]
    rfl
  | case5 s hshort h0 => exact absurd h Bool.noConfusion
  | case6 c s h0 hne ih =>
    rw [wellEscaped_other hne, ih h]

/-- A text whose escapes are all good is decoded completely. -/
theorem decodeLoop_of_wellEscaped (h : wellEscaped s = true) :
    decodeLoop inQuery s = .decoded (fullDecoding inQuery s) := by
  fun_induction fullDecoding inQuery s with
  | case1 => rfl
  | case2 inQuery a b s ih =>
    rw [wellEscaped_escape, Bool.and_eq_true_iff, Bool.and_eq_true_iff] at h
    rw [decodeLoop_escape _ _ _ _ h.1.1 h.1.2, ih h.2]
    rfl
  | case3 inQuery s hshort =>
    rw [wellEscaped_cut (length_le_one hshort)] at h
    exact absurd h Bool.noConfusion
  | case4 inQuery c s hne ih =>
    rw [wellEscaped_other hne] at h
    rw [decodeLoop_other _ hne, ih h]
    rfl

theorem zero_mem_fullDecoding (h : wellEscaped s = true) (h0 : 0 ∈ s) :
    0 ∈ fullDecoding inQuery s := by
  fun_induction fullDecoding inQuery s with
  | case1 => exact absurd h0 not_mem_nil
  | case2 inQuery a b s ih =>
    rw [wellEscaped_escape, Bool.and_eq_true_iff, Bool.and_eq_true_iff] at h
    have hs : 0 ∈ s := by
      rw [mem_cons, mem_cons, mem_cons] at h0
      obtain h0 | h0 | h0 | h0 := h0
      · exact absurd h0 (by decide)
      · exact absurd h0.symm (lt_of_isHexDigit h.1.1).2
      · exact absurd h0.symm (lt_of_isHexDigit h.1.2).2
      · exact h0
    exact mem_cons_of_mem _ (ih h.2 hs)
  | case3 inQuery s hshort =>
    rw [wellEscaped_cut (length_le_one hshort)] at h
    exact absurd h Bool.noConfusion
  | case4 inQuery c s hne ih =>
    rw [wellEscaped_other hne] at h
    rw [mem_cons] at h0 ⊢
    refine h0.imp (fun hc => ?_) (ih h)
    subst hc
    simp

theorem zero_not_mem_cstr (s : Bytes) : 0 ∉ cstr s := by
  intro h
  have := mem_takeWhile_imp h
  simp at this

/-- `url_decode` does what it should on strings that are well escaped and stand for no NUL, and on
those whose first bad escape it can see. -/
theorem decodesFully_iff (s : Bytes) (inQuery : Bool) :
    DecodesFully s inQuery ↔ (wellEscaped s = true ∧ 0 ∉ fullDecoding inQuery s) ∨
    refusedEscape s = true := by
  rw [DecodesFully, urlDecodeChecked]
  constructor
  · intro h
    by_cases hwell : wellEscaped s = true
    · rw [if_pos hwell] at h
      cases hloop : decodeLoop inQuery (cstr s) with
      | decoded dest =>
        rw [hloop] at h
        exact Or.inl ⟨hwell, Decoding.decoded.inj h ▸ zero_not_mem_cstr dest⟩
      | refused => exact Or.inr ((decodeLoop_eq_refused_iff inQuery s).mp hloop)
      | outside =>
        rw [hloop] at h
        exact absurd h Decoding.noConfusion
    · rw [if_neg hwell, Decoding.map_eq_refused] at h
      exact Or.inr ((decodeLoop_eq_refused_iff inQuery s).mp h)
  · rintro (⟨hwell, h0⟩ | hrefused)
    · have hs : 0 ∉ s := fun hmem => h0 (zero_mem_fullDecoding inQuery hwell hmem)
      rw [if_pos hwell, cstr_eq_self hs, decodeLoop_of_wellEscaped inQuery hwell]
      exact congrArg Decoding.decoded (cstr_eq_self h0)
    · rw [not_wellEscaped_of_refusedEscape hrefused,
        (decodeLoop_eq_refused_iff inQuery s).mpr hrefused]
      rfl

/-- An escape that is cut off passes, one with a letter of two bytes is looked up outside of the
table, and the escape of a NUL ends the string. -/
theorem urlDecode_misses_escapes :
    ¬ DecodesFully (ascii "a%4") false ∧ urlDecodeChecked (ascii "a%4") false = .decoded (ascii "a")
      ∧ ¬ DecodesFully [37, 0xC3, 0xA9] false ∧ urlDecodeChecked [37, 0xC3, 0xA9] false = .outside
      ∧ ¬ DecodesFully (ascii "a%00b") false ∧
      urlDecodeChecked (ascii "a%00b") false = .decoded (ascii "a") := by
  unfold DecodesFully
  decide

end RadosGateway
