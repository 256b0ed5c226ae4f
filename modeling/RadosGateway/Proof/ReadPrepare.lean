import RadosGateway.ReadPrepare
import RadosGateway.Proof.Range

/-!
# The bytes a range stands for

`parse_range` leaves a suffix as a negative offset and an open end as a negative end, and `prepare`
gives them their meaning. An object without bytes, a suffix of no bytes and a blank in front of a
suffix are where the two go wrong. -/

namespace RadosGateway

open Text
open List hiding lt_irrefl not_lt

structure RangeHeader where
  unit : Bytes
  before : Bytes
  after : Bytes
  spec : RangeSpec
  unit_eq : unit.map toLower = ascii "bytes"
  blank_before : ∀ c ∈ before, c = 32 ∨ c = 9
  blank_after : ∀ c ∈ after, c = 32 ∨ c = 9
  ordered : ∀ first last, spec = .firstLast first last → first.value ≤ last.value

namespace RangeHeader

variable (h : RangeHeader)

def text : Bytes := h.unit ++ h.before ++ 61 :: (h.after ++ h.spec.set)

def answer (n : Nat) : Except Int (Int × Int) :=
  match h.spec.slice n with
  | none => .error (-Err.erange)
  | some (first, last) => .ok (first, last)

def Resolves (conds : ReadConds) (astate : ObjState) : Prop :=
  ∃ range, parseRange h.text = .ok range ∧ Read.prepare conds astate range.ofs range.stop =
    h.answer astate.size

def SuffixFits (n : Nat) : Prop :=
  match h.spec with
  | .suffix length => if h.after = [] then length.value ≠ 0 else n ≤ length.value
  | _ => True

variable {c : UInt8}

theorem isAlpha_of_toLower (hc : toLower c ∈ ascii "bytes") : isAlpha c = true := by
  have hletters : ascii "bytes" = [98, 121, 116, 101, 115] := rfl
  grind [isAlpha, toLower]

theorem isAlpha_unit (hc : c ∈ h.unit) : isAlpha c = true :=
  isAlpha_of_toLower (h.unit_eq ▸ mem_map_of_mem hc)

theorem length_unit : h.unit.length = 5 := by
  have hlen := congrArg List.length h.unit_eq
  rwa [length_map] at hlen

theorem afterFirst_eq_some {pat s rest : Bytes} (hs : afterFirst pat s = some rest) :
    ∃ pre, s = pre ++ pat ++ rest := by
  fun_induction afterFirst pat s with
  | case1 => simp_all
  | case2 => simp_all
  | case3 c s hpre =>
    cases hs
    exact ⟨[], (prefix_append_drop (List.isPrefixOf_iff_prefix.mp hpre))⟩
  | case4 c s hpre ih =>
    obtain ⟨pre, rfl⟩ := ih hs
    exact ⟨c :: pre, rfl⟩

theorem notMem_set (hc : isDigit c = false) (hminus : c ≠ 45) (spec : RangeSpec) :
    c ∉ spec.set := by
  cases spec <;> simp [RangeSpec.set, Numeral.notMem hc, hminus]

theorem notMem_text (hc : isDigit c = false) (hother : c ∉ [9, 32, 45])
    (halpha : isAlpha c = false) :
    c ∉ h.unit ++ h.before ∧ c ∉ h.after ++ h.spec.set := by
  simp only [mem_cons, not_mem_nil, or_false, not_or] at hother
  constructor
  · rw [mem_append]
    rintro (hmem | hmem)
    · exact absurd (h.isAlpha_unit hmem) (by simp [halpha])
    · exact (h.blank_before c hmem).elim hother.2.1 hother.1
  · rw [mem_append]
    rintro (hmem | hmem)
    · exact (h.blank_after c hmem).elim hother.2.1 hother.1
    · exact notMem_set hc hother.2.2 h.spec hmem

theorem isSpace_blank (hc : c = 32 ∨ c = 9) : isSpace c = true ∧ isAlpha c = false := by
  rcases hc with rfl | rfl <;> decide

theorem append_cons_inj_of_once {s s' x x' : Bytes} (hs : c ∉ s) (hx : c ∉ x)
    (heq : s ++ c :: x = s' ++ c :: x') : s = s' ∧ x = x' := by
  have hcount := congrArg (List.count c) heq
  rw [count_append, count_append, count_cons_self, count_cons_self, count_eq_zero.mpr hs,
    count_eq_zero.mpr hx] at hcount
  have hs' : c ∉ s' := count_eq_zero.mp (by omega)
  exact append_cons_inj hs hs' heq

theorem isSpace_of_isAlpha (hc : isAlpha c = true) : isSpace c = false := by
  grind [isAlpha, isSpace]

theorem takeWhile_text : h.text.takeWhile isAlpha = h.unit
    ∧ (h.text.dropWhile isAlpha).dropWhile isSpace = 61 :: (h.after ++ h.spec.set) := by
  have hunit : ∀ c ∈ h.unit, isAlpha c = true := fun c hc => h.isAlpha_unit hc
  have hstop : (h.before ++ 61 :: (h.after ++ h.spec.set)).takeWhile isAlpha = [] := by
    cases hbefore : h.before with
    | nil => exact takeWhile_cons_of_neg (by decide)
    | cons c b =>
      have hc := h.blank_before c (hbefore ▸ mem_cons_self)
      exact takeWhile_cons_of_neg (by simp [(isSpace_blank hc).2])
  have hrest : (h.before ++ 61 :: (h.after ++ h.spec.set)).dropWhile isAlpha
      = h.before ++ 61 :: (h.after ++ h.spec.set) := by
    have hall := takeWhile_append_dropWhile (p := isAlpha) (l := h.before ++
      61 :: (h.after ++ h.spec.set))
    rwa [hstop, nil_append] at hall
  rw [text, append_assoc, takeWhile_append_of_pos hunit, dropWhile_append_of_pos hunit, hstop,
    hrest,
    append_nil, dropWhile_append_of_pos fun c hc => (isSpace_blank (h.blank_before c hc)).1,
    dropWhile_cons_of_neg (by decide)]
  exact ⟨rfl, rfl⟩

theorem dropWhile_text : h.text.dropWhile isSpace = h.text := by
  obtain ⟨c, unit, hcons⟩ : ∃ c unit, h.unit = c :: unit :=
    exists_cons_of_ne_nil (ne_nil_of_length_pos (by rw [h.length_unit]; decide))
  have hc : isAlpha c = true := h.isAlpha_unit (hcons ▸ mem_cons_self)
  rw [text, hcons]
  exact dropWhile_cons_of_neg (by simp [isSpace_of_isAlpha hc])

theorem rangeSet_text : rangeSet (cstr h.text) = some (h.after ++ h.spec.set) := by
  obtain ⟨hequal, hequal'⟩ := h.notMem_text (c := 61) (by decide) (by decide) (by decide)
  obtain ⟨hzero, hzero'⟩ := h.notMem_text (c := 0) (by decide) (by decide) (by decide)
  have hcstr : cstr h.text = h.text := cstr_eq_self fun hmem => by
    rcases mem_append.mp hmem with hmem | hmem
    · exact hzero hmem
    · exact (mem_cons.mp hmem).elim (by decide) hzero'
  rw [hcstr, rangeSet]
  cases hfirst : afterFirst (ascii "bytes=") h.text with
  | some rest =>
    obtain ⟨pre, hpre⟩ := afterFirst_eq_some hfirst
    have hbytes : pre ++ ascii "bytes=" ++ rest = (pre ++ ascii "bytes") ++ 61 :: rest := by
      have hascii : ascii "bytes=" = ascii "bytes" ++ [61] := by decide
      rw [hascii]
      simp
    exact congrArg some (append_cons_inj_of_once hequal hequal' (hpre.trans hbytes)).2.symm
  | none =>
    obtain ⟨htake, hdrop⟩ := h.takeWhile_text
    have hcmp : strncasecmpEq h.text (ascii "bytes") h.unit.length = true := by
      have hfive : (h.text ++ [0]).take h.unit.length = h.unit := by
        rw [text, append_assoc, append_assoc, take_left]
      have hbytes : ((cstr (ascii "bytes") ++ [0]).take 5).map toLower = ascii "bytes" := by decide
      rw [strncasecmpEq, hcstr, hfive, h.unit_eq, h.length_unit, hbytes, decide_eq_true rfl]
    dsimp only
    rw [h.dropWhile_text, htake, hcmp, hdrop]
    rfl

def parsed : ByteRange :=
  match h.spec with
  | .firstLast first last => ⟨min first.value (2 ^ 63 - 1), min last.value (2 ^ 63 - 1), true⟩
  | .startingAt first => ⟨min first.value (2 ^ 63 - 1), -1, true⟩
  | .suffix length =>
    if h.after = [] then ⟨-min (length.value : Int) (2 ^ 63 - 1), -1, true⟩
      else ⟨0, min length.value (2 ^ 63 - 1), true⟩

theorem atoll_blank_append {b : Bytes} (hb : ∀ c ∈ b, c = 32 ∨ c = 9) (s : Bytes) :
    atoll (b ++ s) = atoll s := by
  rw [atoll, atoll, dropWhile_append_of_pos fun c hc => (isSpace_blank (hb c hc)).1]

theorem atoll_numeral (s : Numeral) : atoll s.1 = min (s.value : Int) (2 ^ 63 - 1) :=
  atoll_of_isDigit s.2.1 s.2.2

/-- A header with blanks and any case is parsed as its range. -/
theorem parseRange_text : parseRange h.text = .ok h.parsed := by
  have hafter : 45 ∉ h.after := fun hmem => absurd (h.blank_after 45 hmem) (by decide)
  have hblank : atoll h.after = 0 := by
    have hatoll := atoll_blank_append h.blank_after []
    rw [append_nil] at hatoll
    exact hatoll.trans (by decide)
  have hfirst : ∀ first : Numeral, 45 ∉ h.after ++ first.1 := fun first hmem =>
    (mem_append.mp hmem).elim hafter (Numeral.notMem (by decide))
  unfold parseRange
  rw [h.rangeSet_text, parsed]
  cases hspec : h.spec with
  | firstLast first last =>
    have hordered := h.ordered first last hspec
    have hne : h.after ++ first.1 ≠ [] := append_ne_nil_of_right_ne_nil _ first.2.1
    simp only [RangeSpec.set, ← append_assoc, takeWhile_ne_append (hfirst first),
      dropWhile_ne_append (hfirst first), last.2.1, hne, if_false, atoll_blank_append h.blank_after,
        atoll_numeral]
    rw [if_neg (by omega), if_neg (by omega)]
  | startingAt first =>
    have hne : h.after ++ first.1 ≠ [] := append_ne_nil_of_right_ne_nil _ first.2.1
    simp only [RangeSpec.set, ← append_assoc, takeWhile_ne_append (hfirst first),
      dropWhile_ne_append (hfirst first), hne, if_false, if_true, atoll_blank_append h.blank_after,
        atoll_numeral]
    rw [if_neg (by simp), if_neg (by omega)]
  | suffix length =>
    simp only [RangeSpec.set, takeWhile_ne_append hafter, dropWhile_ne_append hafter, length.2.1,
      if_false,
      atoll_numeral]
    rw [if_neg (by omega)]
    by_cases hempty : h.after = []
    · simp only [hempty, if_true]
      rw [if_neg (by omega)]
    · simp only [hempty, if_false, hblank]
      rw [if_neg (by omega)]

variable {n : Nat}

theorem answer_eq_error : h.answer n = .error (-Err.erange) ↔ h.spec.slice n = none := by
  rw [answer]
  cases h.spec.slice n with
  | none => exact iff_of_true rfl rfl
  | some p => exact iff_of_false nofun nofun

theorem resolveRange_zero (ofs stop : Int) : ∃ p, resolveRange 0 ofs stop = .ok p := by
  rw [resolveRange]
  exact ⟨_, if_neg (lt_irrefl 0)⟩

theorem resolveRange_of_le (hlo : 2 ^ 63 ≤ n) (hn : n < 2 ^ 64) (ofs stop : Int) :
    resolveRange n ofs stop = .error (-Err.erange) := by
  have hneg : toI64 n < 0 := by
    rw [toI64, Int.bmod_def]
    split_ifs <;> omega
  rw [resolveRange]
  dsimp only
  rw [if_pos (by omega), if_pos]
  split_ifs <;> omega

/-- The resolution of a range in closed form, for sizes that are not negative as `off_t`. -/
theorem resolveRange_of_lt (hpos : n ≠ 0) (hn : n < 2 ^ 63) {ofs : Int} (hofs : -2 ^ 63 ≤ ofs)
    (stop : Int) :
    resolveRange n ofs stop = if ofs < 0 then .ok (max 0 (ofs + n), n - 1) else if n ≤ ofs then
      .error (-Err.erange)
      else .ok (ofs, if stop < 0 ∨ n ≤ stop then n - 1 else stop) := by
  have hlast : toI64 ((n : Int) - 1) = n - 1 := by
    rw [toI64, Int.bmod_def]
    split_ifs <;> omega
  rw [resolveRange]
  dsimp only
  rw [hlast, toI64_of_lt hn, if_pos (Nat.pos_of_ne_zero hpos)]
  by_cases hneg : ofs < 0
  · have hsum : toI64 (ofs + n) = ofs + n := by
      rw [toI64, Int.bmod_def]
      split_ifs <;> omega
    rw [if_pos hneg, if_pos hneg, hsum]
    rw [if_neg (by omega), if_neg (by omega)]
  · split_ifs <;> first | rfl | omega

/-- A range of a non-empty object is resolved rightly exactly if a suffix fits. -/
theorem resolveRange_parsed_of_lt (hpos : n ≠ 0) (hn : n < 2 ^ 63) :
    resolveRange n h.parsed.ofs h.parsed.stop = h.answer n ↔ h.SuffixFits n := by
  rw [parsed, answer, SuffixFits]
  cases hspec : h.spec with
  | firstLast first last =>
    have hordered := h.ordered first last hspec
    refine iff_of_true ?_ trivial
    dsimp only [RangeSpec.slice]
    rw [resolveRange_of_lt hpos hn (by omega), if_neg (by omega)]
    by_cases hfirst : first.value < n
    · rw [if_neg (by omega), if_pos (show first.value ≤ last.value ∧ _ from ⟨hordered, hfirst⟩)]
      refine congrArg Except.ok (Prod.ext (by dsimp only; omega) ?_)
      split_ifs <;> omega
    · rw [if_pos (by omega), if_neg fun hand => hfirst hand.2]
  | startingAt first =>
    refine iff_of_true ?_ trivial
    dsimp only [RangeSpec.slice]
    rw [resolveRange_of_lt hpos hn (by omega), if_neg (by omega)]
    by_cases hfirst : first.value < n
    · rw [if_neg (by omega), if_pos hfirst, if_pos (.inl (by decide))]
      refine congrArg Except.ok (Prod.ext (by dsimp only; omega) (by dsimp only; omega))
    · rw [if_pos (by omega), if_neg hfirst]
  | suffix length =>
    dsimp only [RangeSpec.slice]
    by_cases hempty : h.after = []
    · rw [if_pos hempty, if_pos hempty]
      dsimp only
      rw [resolveRange_of_lt hpos hn (by omega)]
      by_cases hlength : length.value = 0
      · rw [if_neg (by omega), if_neg (by omega), if_neg (by omega : ¬ (1 ≤ length.value ∧ 1 ≤ n))]
        exact iff_of_false nofun fun hne => hne hlength
      · rw [if_pos (by omega), if_pos (by omega : 1 ≤ length.value ∧ 1 ≤ n)]
        exact iff_of_true (congrArg Except.ok
          (Prod.ext (by dsimp only; omega) (by dsimp only; omega))) hlength
    · rw [if_neg hempty, if_neg hempty]
      dsimp only
      rw [resolveRange_of_lt hpos hn (by omega), if_neg (by omega), if_neg (by omega)]
      by_cases hlength : length.value = 0
      · rw [if_neg (by omega : ¬ (1 ≤ length.value ∧ 1 ≤ n))]
        exact iff_of_false nofun (by omega)
      · rw [if_pos (by omega : 1 ≤ length.value ∧ 1 ≤ n)]
        constructor
        · intro heq
          have hfirst := congrArg Prod.fst (Except.ok.inj heq)
          omega
        · intro hle
          exact congrArg Except.ok (Prod.ext (by dsimp only; omega) (by dsimp only; omega))

/-- An object of `2 ^ 63` bytes and more satisfies no range. -/
theorem resolveRange_parsed (hn : n < 2 ^ 64) :
    resolveRange n h.parsed.ofs h.parsed.stop = h.answer n
      ↔ n ≠ 0 ∧ (n < 2 ^ 63 ∧ h.SuffixFits n ∨ 2 ^ 63 ≤ n ∧ h.spec.slice n = none) := by
  by_cases hzero : n = 0
  · subst hzero
    obtain ⟨p, hp⟩ := resolveRange_zero h.parsed.ofs h.parsed.stop
    have hnone : h.spec.slice 0 = none := by cases h.spec <;> simp [RangeSpec.slice]
    rw [hp, h.answer_eq_error.mpr hnone]
    exact iff_of_false (by rintro ⟨⟩) fun hand => hand.1 rfl
  · by_cases hlt : n < 2 ^ 63
    · rw [h.resolveRange_parsed_of_lt hzero hlt]
      exact ⟨fun hfits => ⟨hzero, .inl ⟨hlt, hfits⟩⟩, fun hand => hand.2.elim (·.2) fun hbig =>
        absurd hlt hbig.1.not_gt⟩
    · rw [resolveRange_of_le (not_lt.mp hlt) hn, eq_comm, h.answer_eq_error]
      exact ⟨fun hnone => ⟨hzero, .inr ⟨not_lt.mp hlt, hnone⟩⟩, fun hand =>
        hand.2.elim (fun hsmall => absurd hsmall.1 hlt) (·.2)⟩

/-- A range is resolved as it should be for objects that have bytes, and of them less than `2 ^ 63`,
unless it is a suffix that is empty or stands behind a blank. -/
theorem resolves_iff (conds : ReadConds) (astate : ObjState) (hpresent : astate.present = true)
    (hconds : conds.check astate = .ok ()) (hsize : astate.size < 2 ^ 64) :
    h.Resolves conds astate ↔ astate.size ≠ 0
        ∧ (astate.size < 2 ^ 63 ∧ h.SuffixFits astate.size
          ∨ 2 ^ 63 ≤ astate.size ∧ h.spec.slice astate.size = none) := by
  have hprepare : ∀ ofs stop,
    Read.prepare conds astate ofs stop = resolveRange astate.size ofs stop := by
    intro ofs stop
    rw [Read.prepare, hpresent, hconds]
    rfl
  rw [← h.resolveRange_parsed hsize, Resolves, h.parseRange_text]
  constructor
  · rintro ⟨range, hrange, hanswer⟩
    obtain rfl := Except.ok.inj hrange
    rwa [hprepare] at hanswer
  · exact fun hanswer => ⟨h.parsed, rfl, by rwa [hprepare]⟩

def sample : RangeHeader where
  unit := ascii "Bytes"
  before := [32]
  after := [32]
  spec := .firstLast ⟨[50], by decide, forall_mem_singleton.mpr rfl⟩
    ⟨[57], by decide, forall_mem_singleton.mpr rfl⟩
  unit_eq := by decide
  blank_before := forall_mem_singleton.mpr (by decide)
  blank_after := forall_mem_singleton.mpr (by decide)
  ordered := by
    intro first last hspec
    obtain ⟨rfl, rfl⟩ := RangeSpec.firstLast.inj hspec
    decide

/-- A range in the middle of an object. -/
theorem sample_resolves :
    sample.answer 5 = .ok (2, 4) ∧ sample.Resolves {}
    { present := true, size := 5, mtime := 0, etag := none } :=
  ⟨by decide, (sample.resolves_iff {} { present := true, size := 5, mtime := 0, etag := none } rfl
    rfl (by decide)).mpr
    ⟨by decide, .inl ⟨by decide, trivial⟩⟩⟩

/-- The last no bytes of an object are all of it, and any range of an object without bytes is
satisfied. -/
theorem empty_range_resolved :
    RangeSpec.slice 5 (.suffix ⟨[48], by decide, forall_mem_singleton.mpr rfl⟩) = none
      ∧ parseRange (ascii "bytes=-0") = .ok ⟨0, -1, true⟩
      ∧ Read.prepare {} { present := true, size := 5, mtime := 0, etag := none } 0 (-1) = .ok (0, 4)
      ∧ RangeSpec.slice 0 sample.spec = none ∧ parseRange sample.text = .ok ⟨2, 9, true⟩
      ∧ Read.prepare {} { present := true, size := 0, mtime := 0, etag := none } 2 9 =
        .ok (2, 9) := by
  decide

end RangeHeader

end RadosGateway
