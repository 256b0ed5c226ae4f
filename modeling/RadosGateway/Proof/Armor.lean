import RadosGateway.Armor
import RadosGateway.Proof.UrlCoding

/-!
# Bytes come back from their text

Each of the three codings writes a byte, or a group of bytes, as a piece of text that its reader
turns back wherever the piece stands. -/

namespace RadosGateway.Armor

open Text
open List hiding le_refl

variable {room len : Nat} {c d x : UInt8} {b dst s : Bytes}

theorem halves_add (c : UInt8) : (c >>> 4) <<< 4 + (c &&& 15) = c := by
  have hc := c.toNat_lt
  have hshift : ((c >>> 4) <<< 4).toNat = c.toNat / 16 * 16 % 256 := by
    rw [UInt8.toNat_shiftLeft, toNat_high]
    exact congrArg (· % 256) (Nat.shiftLeft_eq _ _)
  apply UInt8.toNat_inj.mp
  rw [UInt8.toNat_add, hshift, toNat_low]
  omega

theorem hexdigit_lowerHexDigit (h : d < 16) : hexdigit (lowerHexDigit d) = some d := by
  grind [hexdigit, lowerHexDigit, toUpper]

def hexText (b : Bytes) : Bytes :=
  b.flatMap fun c : UInt8 => [lowerHexDigit (c >>> 4), lowerHexDigit (c &&& 15)]

variable {i outlen : Nat} {cs text rest : Bytes}

theorem bufToHexFrom_of_le (h : i + b.length ≤ 2 ^ 30) : bufToHexFrom i b = some (hexText b) := by
  induction b generalizing i with
  | nil => rfl
  | cons c b ih =>
    rw [length_cons] at h
    rw [bufToHexFrom, if_neg (by omega), ih (by omega)]
    rfl

theorem bufToHexFrom_of_lt (hi : i ≤ 2 ^ 30) (h : 2 ^ 30 < i + b.length) :
    bufToHexFrom i b = none := by
  induction b generalizing i with
  | nil => exact absurd h (Nat.not_lt.mpr hi)
  | cons c b ih =>
    rw [length_cons] at h
    rw [bufToHexFrom]
    split_ifs
    · rfl
    · rw [ih (by omega) (by omega)]
      rfl

theorem cstr_hexText (b : Bytes) : cstr (hexText b) = hexText b := by
  have hdigit {d : UInt8} (h : d < 16) : lowerHexDigit d ≠ 0 := by grind [lowerHexDigit]
  apply cstr_eq_self
  intro hzero
  obtain ⟨c, -, hc⟩ := mem_flatMap.mp hzero
  rcases mem_pair.mp hc with heq | heq
  · exact hdigit (halves_lt c).1 heq.symm
  · exact hdigit (halves_lt c).2 heq.symm

/-- Hex text of bytes for which there is room is decoded to them. -/
theorem hexToBufFrom_hexText (h : dst.length + b.length ≤ len) :
    hexToBufFrom len (hexText b) dst = (((dst ++ b).length : Int), dst ++ b) := by
  induction b generalizing dst with
  | nil =>
    rw [append_nil]
    rfl
  | cons c b ih =>
    rw [length_cons] at h
    have hroom : ¬ (len : Int) ≤ dst.length := by omega
    change hexToBufFrom len (lowerHexDigit (c >>> 4) :: lowerHexDigit (c &&& 15) :: hexText b) dst =
      _
    rw [hexToBufFrom, if_neg hroom, hexdigit_lowerHexDigit (halves_lt c).1]
    dsimp only
    rw [hexdigit_lowerHexDigit (halves_lt c).2]
    dsimp only
    rw [halves_add, ih (by rw [length_append, length_singleton]; omega), append_assoc]
    rfl

def IsHexText (s : Bytes) : Prop := s.length % 2 = 0 ∧ ∀ c ∈ s, (hexdigit c).isSome

def StrayDigit : Bytes → Nat → Prop
  | c :: c' :: p, room + 1 => (hexdigit c).isSome ∧ (hexdigit c' = none ∨ StrayDigit p room)
  | _, _ => False

theorem isHexText_cons_cons {c' : UInt8} {p : Bytes} :
    IsHexText (c :: c' :: p) ↔ (hexdigit c).isSome ∧ (hexdigit c').isSome ∧ IsHexText p := by
  rw [IsHexText, IsHexText, forall_mem_cons, forall_mem_cons, length_cons, length_cons]
  constructor
  · rintro ⟨heven, hc, hc', hp⟩
    exact ⟨hc, hc', by omega, hp⟩
  · rintro ⟨hc, hc', heven, hp⟩
    exact ⟨by omega, hc, hc', hp⟩

structure HexResult (s dst : Bytes) (room : Nat) (r : Int × Bytes) : Prop where
  inside : r.2.length ≤ dst.length + room
  refused : ¬ StrayDigit s room → r.1 < 0 ∨ IsHexText s ∧ s.length ≤ 2 * room
  accepted : StrayDigit s room → 0 ≤ r.1 ∧ ¬ IsHexText s

theorem HexResult.of_neg {r : Int × Bytes} (hstray : ¬ StrayDigit s room)
    (hinside : r.2.length ≤ dst.length + room) (hneg : r.1 < 0) : HexResult s dst room r :=
  ⟨hinside, fun _ => .inl hneg, fun h => absurd h hstray⟩

/-- What `hex_to_buf` makes of any text. -/
theorem hexResult (s dst : Bytes) (room : Nat) :
    HexResult s dst room (hexToBufFrom ((dst.length + room : Nat) : Int) s dst) := by
  fun_induction StrayDigit s room generalizing dst with
  | case1 c c' p room ih =>
    rw [hexToBufFrom, if_neg (by omega)]
    cases hc : hexdigit c with
    | none =>
      refine ⟨by simp, fun _ => .inl (by simp), ?_⟩
      rintro ⟨hsome, -⟩
      rw [hc] at hsome
      cases hsome
    | some d =>
      dsimp only
      cases hc' : hexdigit c' with
      | none =>
        refine ⟨by simp, ?_, fun _ => ⟨by simp, ?_⟩⟩
        · intro hnot
          exact absurd ⟨by rw [hc]; rfl, .inl hc'⟩ hnot
        · rw [isHexText_cons_cons, hc']
          rintro ⟨-, hsome, -⟩
          cases hsome
      | some d' =>
        have hstray : StrayDigit (c :: c' :: p) (room + 1) ↔ StrayDigit p room := by
          simp [StrayDigit, hc, hc']
        have htext : IsHexText (c :: c' :: p) ↔ IsHexText p := by
          simp [isHexText_cons_cons, hc, hc']
        have hih := ih (dst ++ [d <<< 4 + d'])
        have hlength : (dst ++ [d <<< 4 + d']).length + room = dst.length + (room + 1) := by
          rw [length_append, length_singleton]
          omega
        rw [hlength] at hih
        refine ⟨hlength ▸ hih.inside, ?_, ?_⟩
        · rw [hstray, htext, length_cons, length_cons]
          intro hnot
          exact (hih.refused hnot).imp_right fun h => ⟨h.1, by omega⟩
        · rw [hstray, htext]
          exact hih.accepted
  | case2 s room hother =>
    have hstray : ¬ StrayDigit s room := by
      rw [StrayDigit.eq_def]
      split
      · exact (hother _ _ _ _ rfl rfl).elim
      · exact id
    match s with
    | [] => exact ⟨Nat.le_add_right _ _, fun _ => .inr ⟨⟨rfl, forall_mem_nil _⟩, Nat.zero_le _⟩,
      (absurd · hstray)⟩
    | [c] =>
      rw [hexToBufFrom]
      split_ifs with hroom
      · exact .of_neg hstray (Nat.le_add_right _ _) (by simp)
      · have hlength (x : UInt8) : (dst ++ [x]).length ≤ dst.length + room := by
          rw [length_append, length_singleton]
          omega
        cases hexdigit c with
        | none => exact .of_neg hstray (hlength _) (by simp)
        | some d => exact .of_neg hstray (hlength _) (by simp)
    | c :: c' :: p =>
      cases room with
      | zero =>
        rw [hexToBufFrom, if_pos (by omega)]
        exact .of_neg hstray (Nat.le_add_right _ _) (by simp)
      | succ room => exact (hother c c' p room rfl rfl).elim

def Restored (b : Bytes) : Prop :=
  ∀ len : Nat, b.length ≤ len → ∃ hex, bufToHex b = some hex ∧
    hexToBuf hex len = ((b.length : Int), b)

def Judged (s : Bytes) (len : Nat) : Prop :=
  (hexToBuf s len).2.length ≤ len ∧
    ((hexToBuf s len).1 < 0 ∨ IsHexText (cstr s) ∧ (cstr s).length ≤ 2 * len)

/-- **Hex coding.** Bytes come back from their hex text, and a text is decoded only if it is one of
hex digits that fits, exactly for at most `2 ^ 30` bytes and texts without a stray character in the
low place of a pair. -/
theorem hexCodec_iff (b s : Bytes) (len : Nat) :
    Restored b ∧ Judged s len ↔ b.length ≤ 2 ^ 30 ∧ ¬ StrayDigit (cstr s) len := by
  have hresult := hexResult (cstr s) [] len
  rw [length_nil, zero_add] at hresult
  apply and_congr
  · constructor
    · intro h
      obtain ⟨hex, hhex, -⟩ := h b.length (le_refl _)
      by_contra hlong
      rw [bufToHex, bufToHexFrom_of_lt (Nat.zero_le _) (by omega)] at hhex
      cases hhex
    · intro hshort n hn
      refine ⟨_, bufToHexFrom_of_le (by omega), ?_⟩
      rw [hexToBuf, cstr_hexText]
      exact hexToBufFrom_hexText (by simpa using hn)
  · constructor
    · rintro ⟨-, hjudged⟩ hstray
      obtain ⟨hret, htext⟩ := hresult.accepted hstray
      rcases hjudged with hneg | ⟨hhex, -⟩
      · exact absurd hret (Int.not_le.mpr hneg)
      · exact htext hhex
    · intro hstray
      exact ⟨hresult.inside.trans (by simp), hresult.refused hstray⟩

/-- A low digit that is none is taken for a positive error number and decoded. -/
theorem hexToBuf_stray : hexToBuf (ascii "0g") 8 = (22, [0]) ∧ ¬ Judged (ascii "0g") 8 := by
  refine ⟨rfl, ?_⟩
  rintro ⟨-, hneg | ⟨⟨-, hdigits⟩, -⟩⟩
  · exact absurd hneg (by decide)
  · exact absurd (hdigits 103 (by decide)) (by decide)

def group (a b c : UInt8) : Bytes :=
  [encodeBits (a >>> 2), encodeBits ((a &&& 3) <<< 4 ||| b >>> 4),
    encodeBits ((b &&& 15) <<< 2 ||| c >>> 6),
    encodeBits (c &&& 63)]

def lineEnd (w line : Nat) : Bytes := if w ≠ 0 ∧ line + 4 = w then [10] else []

def lineAfter (w line : Nat) : Nat := if w ≠ 0 ∧ line + 4 = w then 0 else line + 4

def armorText (w : Nat) : Nat → Bytes → Bytes
  | _, [] => []
  | line, [a] => [encodeBits (a >>> 2), encodeBits ((a &&& 3) <<< 4), 61, 61] ++
    (lineEnd w line ++ [])
  | line, [a, b] => [encodeBits (a >>> 2), encodeBits ((a &&& 3) <<< 4 ||| b >>> 4),
    encodeBits ((b &&& 15) <<< 2), 61]
      ++ (lineEnd w line ++ [])
  | line, a :: b :: c :: src =>
    group a b c ++ (lineEnd w line ++ armorText w (lineAfter w line) src)

def emitted (room : Nat) (dst text : Bytes) (ret : Int) : Int × Bytes :=
  if dst.length + text.length ≤ room then (ret, dst ++ text) else (-34, (dst ++ text).take room)

theorem length_emitted_le (room : Nat) (dst text : Bytes) (ret : Int) :
    (emitted room dst text ret).2.length ≤ room := by
  rw [emitted]
  split_ifs with h
  · simpa using h
  · exact length_take_le _ _

theorem emitted_append (cs text : Bytes) (ret : Int) :
    emitted room (dst ++ cs) text ret = emitted room dst (cs ++ text) ret := by
  rw [emitted, emitted, append_assoc, length_append, length_append, add_assoc]

theorem emitted_of_full (h : dst.length = room) (text : Bytes) (ret : Int) (ht : text ≠ []) :
    emitted room dst text ret = (-34, dst) := by
  have hpos := length_pos_iff.mpr ht
  rw [emitted, if_neg (by omega), ← h, take_left']
  rfl

variable {ret : Int} {w line olen : Nat}

theorem setDst_eq {β : Type} {answer : Int × Bytes → β} {next : Bytes → β} (h : dst.length ≤ room)
    (hnext : (dst ++ cs).length ≤ room →
      next (dst ++ cs) = answer (emitted room (dst ++ cs) text ret)) :
    setDst answer room cs dst next = answer (emitted room dst (cs ++ text) ret) := by
  induction cs generalizing dst with
  | nil =>
    rw [append_nil] at hnext
    exact hnext h
  | cons c cs ih =>
    rw [setDst]
    split_ifs with hroom
    · rw [append_cons] at hnext
      rw [ih (by simpa using hroom) hnext, emitted_append]
      rfl
    · have hfull : dst.length = room := by omega
      exact congrArg answer (emitted_of_full hfull _ _ (cons_ne_nil _ _)).symm

theorem turn_eq {next : Nat → Nat → Bytes → Int × Bytes} (hcs : cs.length = 4)
    (h : dst.length ≤ room)
    (hnext : ∀ olen dst, dst.length ≤ room →
      next olen (lineAfter w line) dst = emitted room dst text ((olen + text.length : Nat) : Int)) :
    setDst id room cs dst (fun dst => breakLine room w olen line dst next) =
      emitted room dst (cs ++ (lineEnd w line ++ text))
        ((olen + (cs ++ (lineEnd w line ++ text)).length : Nat) : Int) := by
  apply setDst_eq h
  intro hroom
  rw [length_append, hcs, length_append, ← add_assoc, ← add_assoc]
  unfold lineEnd lineAfter at *
  rw [breakLine]
  split_ifs with hbreak
  · simp only [if_pos hbreak] at hnext
    exact setDst_eq hroom fun hroom => hnext _ _ hroom
  · simp only [if_neg hbreak] at hnext
    exact hnext _ _ hroom

theorem emitted_nil (h : dst.length ≤ room) : emitted room dst [] ret = (ret, dst) := by
  rw [emitted, append_nil]
  exact if_pos h

variable (src : Bytes) (ts : List Bytes)

theorem armorFrom_eq (h : dst.length ≤ room) : armorFrom room w src olen line dst =
    emitted room dst (armorText w line src)
    ((olen + (armorText w line src).length : Nat) : Int) := by
  fun_induction armorText w line src generalizing olen dst with
  | case1 line => exact (emitted_nil h).symm
  | case2 line a => exact turn_eq rfl h fun olen dst h => (emitted_nil h).symm
  | case3 line a b => exact turn_eq rfl h fun olen dst h => (emitted_nil h).symm
  | case4 line a b c src ih => exact turn_eq rfl h fun olen dst h => ih h

/-! The reader: a character stands for six bits, and four of them for three bytes. -/

set_option maxRecDepth 2000 in
theorem decodeBits_encodeBits (h : x < 64) :
    decodeBits (encodeBits x) = some x ∧ encodeBits x ≠ 10 ∧ encodeBits x ≠ 61 := by
  have htable : ∀ n < 64, decodeBits (encodeBits n.toUInt8) = some n.toUInt8 ∧
    encodeBits n.toUInt8 ≠ 10 ∧
      encodeBits n.toUInt8 ≠ 61 := by decide
  have hx := htable x.toNat h
  rwa [Nat.toUInt8_eq, UInt8.ofNat_toNat] at hx

theorem sextets_lt (a b c : UInt8) : a >>> 2 < 64 ∧ (a &&& 3) <<< 4 ||| b >>> 4 < 64 ∧
    (b &&& 15) <<< 2 ||| c >>> 6 < 64 ∧ c &&& 63 < 64 := by
  have hlt (x : UInt8) (hx : x &&& 63 = x) : x < 64 := by
    rw [← hx, UInt8.lt_iff_toNat_lt, UInt8.toNat_and]
    exact Nat.and_lt_two_pow (n := 6) x.toNat (by decide)
  refine ⟨hlt _ ?_, hlt _ ?_, hlt _ ?_, hlt _ ?_⟩ <;>
  · apply UInt8.toBitVec_inj.mp
    ext i hi
    interval_cases i <;> simp

theorem octets_eq (a b c : UInt8) : (a >>> 2) <<< 2 ||| ((a &&& 3) <<< 4 ||| b >>> 4) >>> 4 = a ∧
      (((a &&& 3) <<< 4 ||| b >>> 4) &&& 15) <<< 4 ||| ((b &&& 15) <<< 2 ||| c >>> 6) >>> 2 = b ∧
      (((b &&& 15) <<< 2 ||| c >>> 6) &&& 3) <<< 6 ||| (c &&& 63) = c := by
  refine ⟨?_, ?_, ?_⟩ <;>
  · apply UInt8.toBitVec_inj.mp
    ext i hi
    interval_cases i <;> simp

/-- One group of four characters. -/
theorem unarmorFrom_four {s₀ s₁ s₂ s₃ v₀ v₁ v₂ v₃ : UInt8} (hline : s₀ ≠ 10)
    (h₀ : decodeBits s₀ = some v₀)
    (h₁ : decodeBits s₁ = some v₁) (h₂ : decodeBits s₂ = some v₂) (h₃ : decodeBits s₃ = some v₃)
    (rest : Bytes) :
    unarmorFrom room (s₀ :: s₁ :: s₂ :: s₃ :: rest) olen dst =
      setDst some room [v₀ <<< 2 ||| v₁ >>> 4] dst fun dst =>
        if s₂ = 61 then some (olen + 1, dst)
        else setDst some room [(v₁ &&& 15) <<< 4 ||| v₂ >>> 2] dst fun dst =>
          if s₃ = 61 then some (olen + 2, dst)
          else setDst some room [(v₂ &&& 3) <<< 6 ||| v₃] dst fun dst =>
            unarmorFrom room rest (olen + 3) dst := by
  rw [unarmorFrom.eq_def]
  dsimp only
  rw [if_neg hline, if_neg (by simp)]
  dsimp only [getElem?_cons_zero, getElem?_cons_succ, drop_succ_cons, drop_zero]
  rw [h₀, h₁, h₂, h₃]
  rfl

theorem unarmorFrom_lineEnd (rest : Bytes) :
    unarmorFrom room (lineEnd w line ++ rest) olen dst = unarmorFrom room rest olen dst := by
  rw [lineEnd]
  split_ifs
  · rw [singleton_append, unarmorFrom.eq_def]
    exact if_pos rfl
  · rfl

/-- Reading what was written gives the bytes, as far as there is room. -/
theorem unarmorFrom_eq (h : dst.length ≤ room) : unarmorFrom room (armorText w line src) olen dst =
    some (emitted room dst src ((olen + src.length : Nat) : Int)) := by
  have hpad : decodeBits 61 = some 0 := rfl
  fun_induction armorText w line src generalizing olen dst with
  | case1 line =>
    rw [unarmorFrom.eq_def, emitted_nil h]
    rfl
  | case2 line a =>
    obtain ⟨h₀, h₁, -⟩ := sextets_lt a 0 0
    obtain ⟨hbyte, -⟩ := octets_eq a 0 0
    have hzero : (0 : UInt8) >>> 4 = 0 := by decide
    rw [hzero, UInt8.or_zero] at h₁ hbyte
    obtain ⟨hd₀, hline, -⟩ := decodeBits_encodeBits h₀
    refine (unarmorFrom_four hline hd₀ (decodeBits_encodeBits h₁).1 hpad hpad _).trans ?_
    rw [hbyte]
    exact setDst_eq h fun h => congrArg some (emitted_nil h).symm
  | case3 line a b =>
    obtain ⟨h₀, h₁, h₂, -⟩ := sextets_lt a b 0
    obtain ⟨hbyte₀, hbyte₁, -⟩ := octets_eq a b 0
    have hzero : (0 : UInt8) >>> 6 = 0 := by decide
    rw [hzero, UInt8.or_zero] at h₂ hbyte₁
    obtain ⟨hd₀, hline, -⟩ := decodeBits_encodeBits h₀
    obtain ⟨hd₂, -, hne₂⟩ := decodeBits_encodeBits h₂
    refine (unarmorFrom_four hline hd₀ (decodeBits_encodeBits h₁).1 hd₂ hpad _).trans ?_
    rw [hbyte₀, hbyte₁]
    refine setDst_eq h fun h => (if_neg hne₂).trans ?_
    exact setDst_eq h fun h => congrArg some (emitted_nil h).symm
  | case4 line a b c src ih =>
    obtain ⟨h₀, h₁, h₂, h₃⟩ := sextets_lt a b c
    obtain ⟨hbyte₀, hbyte₁, hbyte₂⟩ := octets_eq a b c
    obtain ⟨hd₀, hline, -⟩ := decodeBits_encodeBits h₀
    obtain ⟨hd₂, -, hne₂⟩ := decodeBits_encodeBits h₂
    obtain ⟨hd₃, -, hne₃⟩ := decodeBits_encodeBits h₃
    refine (unarmorFrom_four hline hd₀ (decodeBits_encodeBits h₁).1 hd₂ hd₃ _).trans ?_
    rw [hbyte₀, hbyte₁, hbyte₂]
    refine setDst_eq h fun h => (if_neg hne₂).trans ?_
    refine setDst_eq h fun h => (if_neg hne₃).trans ?_
    refine setDst_eq h fun h => ?_
    refine (unarmorFrom_lineEnd _).trans ((ih h).trans ?_)
    congr 2
    rw [length_cons, length_cons, length_cons]
    omega

theorem setDst_inside {next : Bytes → Option (Int × Bytes)} (h : dst.length ≤ room)
    (hnext : ∀ dst, dst.length ≤ room → ∃ r, next dst = some r ∧ r.2.length ≤ room) :
    ∃ r, setDst some room cs dst next = some r ∧ r.2.length ≤ room := by
  induction cs generalizing dst with
  | nil => exact hnext dst h
  | cons c cs ih =>
    rw [setDst]
    split_ifs with hroom
    · exact ih (by simpa using hroom)
    · exact ⟨_, rfl, h⟩

/-- Whatever the text, `ceph_unarmor` stays inside of the destination. -/
theorem unarmorFrom_inside (h : dst.length ≤ room) :
    ∃ r, unarmorFrom room src olen dst = some r ∧ r.2.length ≤ room := by
  induction hn : src.length using Nat.strong_induction_on generalizing src olen dst with
  | h n ih =>
    rw [unarmorFrom.eq_def]
    match src with
    | [] => exact ⟨_, rfl, h⟩
    | s :: rest =>
      dsimp only
      rw [length_cons] at hn
      split_ifs with hline hshort
      · exact ih rest.length (by omega) rest h rfl
      · exact ⟨_, rfl, h⟩
      · match rest with
        | [] | [_] | [_, _] => simp at hshort
        | s₁ :: s₂ :: s₃ :: rest =>
          dsimp only [getElem?_cons_zero, getElem?_cons_succ]
          split
          · refine setDst_inside h fun dst h => ?_
            split_ifs
            · exact ⟨_, rfl, h⟩
            · exact setDst_inside h fun dst h => ⟨_, rfl, h⟩
            · simp only [length_cons] at hn
              exact setDst_inside h fun dst h => setDst_inside h fun dst h =>
                ih rest.length (by omega) rest h rfl
          · exact ⟨_, rfl, h⟩

theorem length_armorText_zero (line : Nat) (b : Bytes) :
    (armorText 0 line b).length = 4 * ((b.length + 2) / 3) := by
  have hend (line : Nat) : lineEnd 0 line = [] := if_neg fun h => h.1 rfl
  fun_induction armorText 0 line b with
  | case1 => rfl
  | case2 | case3 => simp [hend]
  | case4 line a b c src ih =>
    rw [hend, length_append, nil_append, ih, length_cons, length_cons, length_cons]
    change 4 + _ = _
    omega

variable {k j : Nat}

/-- One line end after every `k + 1` groups. -/
theorem length_armorText (b : Bytes) (hline : line = 4 * j) (hj : j ≤ k) :
    (armorText (4 * (k + 1)) line b).length = 4 * ((b.length + 2) / 3) +
      (j + (b.length + 2) / 3) / (k + 1) := by
  have hend {line j : Nat} (hline : line = 4 * j) (hj : j ≤ k) :
      (lineEnd (4 * (k + 1)) line).length = (j + 1) / (k + 1) := by
    rw [lineEnd]
    split_ifs with hfull
    · rw [show j = k by omega, Nat.div_self (Nat.succ_pos k)]
      rfl
    · exact (Nat.div_eq_of_lt (by omega)).symm
  fun_induction armorText (4 * (k + 1)) line b generalizing j with
  | case1 line => simp [Nat.div_eq_of_lt (Nat.lt_succ_of_le hj)]
  | case2 line a | case3 line a b =>
    simp [hend hline hj]
    omega
  | case4 line a b c src ih =>
    have hthree : ((a :: b :: c :: src).length + 2) / 3 = (src.length + 2) / 3 + 1 := by
      simp only [length_cons]
      omega
    rw [length_append, length_append, hend hline hj, hthree]
    change 4 + _ = _
    by_cases hfull : j = k
    · subst hfull
      have hafter : lineAfter (4 * (j + 1)) line = 4 * 0 := if_pos ⟨by omega, by omega⟩
      rw [ih hafter (Nat.zero_le _), ← add_assoc j, add_right_comm,
        Nat.add_div_left _ (Nat.succ_pos j),
        Nat.div_self (Nat.succ_pos j), zero_add, Nat.succ_eq_add_one]
      omega
    · have hafter : lineAfter (4 * (k + 1)) line = 4 * (j + 1) :=
        (if_neg (by omega)).trans (by omega)
      rw [ih hafter (by omega), Nat.div_eq_of_lt (show j + 1 < k + 1 by omega), ← add_assoc j,
        add_right_comm]
      omega

def ArmoredBack (b : Bytes) (lineWidth : Nat) : Prop :=
  ∀ (room n : Nat) (text : Bytes), cephArmorLineBreak room b lineWidth = ((n : Int), text) →
    decodeBase64 text = some b

theorem decodeBase64_armorText (b : Bytes) : decodeBase64 (armorText w 0 b) =
    if b.length ≤ 4 + (armorText w 0 b).length * 3 % 2 ^ 32 / 4 then some b else none := by
  rw [decodeBase64, cephUnarmor, unarmorFrom_eq b (Nat.zero_le _), emitted, Option.bind_some]
  rw [length_nil, zero_add]
  by_cases hroom : b.length ≤ 4 + (armorText w 0 b).length * 3 % 2 ^ 32 / 4
  · rw [if_pos hroom, if_pos hroom]
    exact if_neg (by omega)
  · rw [if_neg hroom, if_neg hroom]
    exact if_pos (show (-34 : Int) < 0 by decide)

theorem cephArmorLineBreak_eq (room w : Nat) (b : Bytes) : cephArmorLineBreak room b w =
    emitted room [] (armorText w 0 b) ((0 + (armorText w 0 b).length : Nat) : Int) :=
  armorFrom_eq b (Nat.zero_le room)

/-- The reader's destination has three quarters of the text, counted in 32 bits. -/
theorem armoredBack_iff (hb : b.length < 2 ^ 30) : ArmoredBack b (4 * (k + 1)) ↔
    3 * (4 * ((b.length + 2) / 3) + (b.length + 2) / 3 / (k + 1)) < 2 ^ 32 := by
  have hlength : (armorText (4 * (k + 1)) 0 b).length = 4 * ((b.length + 2) / 3) +
      (b.length + 2) / 3 / (k + 1) := by
    rw [length_armorText b rfl (Nat.zero_le k), zero_add]
  have hbreaks := Nat.div_le_self ((b.length + 2) / 3) (k + 1)
  have hdecode := decodeBase64_armorText (w := 4 * (k + 1)) b
  rw [hlength] at hdecode
  generalize (b.length + 2) / 3 / (k + 1) = breaks at *
  constructor
  · intro hback
    have hsome := hback _ _ _
      ((cephArmorLineBreak_eq (armorText (4 * (k + 1)) 0 b).length _ b).trans (if_pos (by simp)))
    rw [nil_append, hdecode] at hsome
    split_ifs at hsome with hroom
    by_contra hge
    rw [Nat.mod_eq_sub_mod (by omega), Nat.mod_eq_of_lt (by omega)] at hroom
    omega
  · intro hlt room n text htext
    rw [cephArmorLineBreak_eq, emitted] at htext
    split_ifs at htext with hroom
    · obtain rfl := (Prod.mk.inj htext).2
      rw [nil_append, hdecode, Nat.mod_eq_of_lt (by omega), if_pos (by omega)]
    · exact absurd (Prod.mk.inj htext).1 (by omega)

theorem encodeBase64_eq (hb : b.length < 2 ^ 30) : encodeBase64 b = armorText 0 0 b := by
  have hlength := length_armorText_zero 0 b
  rw [encodeBase64, cephArmor, cephArmorLineBreak_eq, emitted, if_pos]
  · rfl
  · rw [hlength]
    change 0 + _ ≤ _
    omega

/-- **Base64.** Fewer than `2 ^ 30` bytes come back, in one line and in lines of `4 * (k + 1)`
characters, and nothing is written outside of the destination, exactly if three times the length of
the lines is a 32-bit number. -/
theorem base64_iff (b src : Bytes) (room k : Nat) (hb : b.length < 2 ^ 30) :
    (decodeBase64 (encodeBase64 b) = some b ∧ ArmoredBack b (4 * (k + 1)) ∧
      (cephArmorLineBreak room src (4 * (k + 1))).2.length ≤ room ∧
      (cephArmor room src).2.length ≤ room ∧
      ∃ r, cephUnarmor room src = some r ∧ r.2.length ≤ room) ↔
    3 * (4 * ((b.length + 2) / 3) + (b.length + 2) / 3 / (k + 1)) < 2 ^ 32 := by
  rw [← armoredBack_iff hb]
  constructor
  · exact fun h => h.2.1
  · intro hback
    refine ⟨?_, hback, ?_, ?_, unarmorFrom_inside src (Nat.zero_le _)⟩
    · rw [encodeBase64_eq hb, decodeBase64_armorText, length_armorText_zero, if_pos (by omega)]
    · rw [cephArmorLineBreak_eq]
      exact length_emitted_le ..
    · rw [cephArmor, cephArmorLineBreak_eq]
      exact length_emitted_le ..

/-- Letters in lines of eight characters, and a text that is no base64 with little room. -/
theorem base64_letters :
    decodeBase64 (encodeBase64 (ascii "rados gateway")) = some (ascii "rados gateway") ∧
    ArmoredBack (ascii "rados gateway") 8 ∧ (cephArmorLineBreak 5 (ascii "r?w!") 8).2.length ≤ 5 ∧
    (cephArmor 5 (ascii "r?w!")).2.length ≤ 5 ∧ ∃ r, cephUnarmor 5 (ascii "r?w!") = some r ∧
    r.2.length ≤ 5 :=
  (base64_iff (ascii "rados gateway") (ascii "r?w!") 5 1 (by decide)).mpr (by decide)

/-- A gigabyte in lines of four characters: `e.length() * 3` wraps, and the destination is too
small. -/
theorem not_armoredBack_long : ¬ ArmoredBack (List.replicate (2 ^ 30 - 1) 0) 4 := by
  rw [show 4 = 4 * (0 + 1) from rfl, armoredBack_iff (by rw [length_replicate]; decide),
    length_replicate]
  decide

def printAll : List Bytes → Int → Nat → Bytes → Int × Bytes
  | [], ret, _, rest => (ret, rest)
  | t :: ts, ret, outlen, rest => printAt t ret outlen rest (printAll ts)

theorem qpEncodeFrom_eq (s : Bytes) : qpEncodeFrom s = printAll (s.map qpText) := by
  induction s with
  | nil => rfl
  | cons c s ih =>
    funext ret outlen rest
    rw [qpEncodeFrom, ih]
    rfl

/-- What one byte is coded as is decoded to that byte, whatever follows. -/
theorem qpDecodeFrom_qpText (c : UInt8) (i : Bytes) (ret : Int) (outlen : Nat) (rest : Bytes) :
    qpDecodeFrom (qpText c ++ i) ret outlen rest =
      printAt [c] ret outlen rest (qpDecodeFrom i) := by
  have hhigh : hexcharToInt (upperHexDigit (c >>> 4)) = some (c >>> 4) :=
    hexToNum_upperHexDigit (halves_lt c).1
  have hlow : hexcharToInt (upperHexDigit (c &&& 15)) = some (c &&& 15) :=
    hexToNum_upperHexDigit (halves_lt c).2
  rw [qpText]
  split_ifs with hplain
  · change qpDecodeFrom (61 :: upperHexDigit (c >>> 4) :: upperHexDigit (c &&& 15) :: i) ret outlen
      rest = _
    rw [qpDecodeFrom, if_neg (by decide), if_pos rfl, hhigh, hlow]
    dsimp only
    rw [halves_add]
  · push Not at hplain
    rw [singleton_append, qpDecodeFrom.eq_def]
    dsimp only
    rw [if_neg (not_not.mpr hplain.1), if_neg hplain.2.1]

theorem qpDecodeFrom_eq (s : Bytes) :
    qpDecodeFrom (s.flatMap qpText) = printAll (s.map fun c => [c]) := by
  induction s with
  | nil => rfl
  | cons c s ih =>
    funext ret outlen rest
    rw [flatMap_cons, qpDecodeFrom_qpText, ih]
    rfl

theorem printAll_ret (z : Int) (outlen : Nat) (rest : Bytes) :
    (printAll ts (toI32 z) outlen rest).1 = toI32 (z + ts.flatten.length) := by
  induction ts generalizing z outlen rest with
  | nil => simp [printAll]
  | cons t ts ih =>
    have hret : toI32 (toI32 z + t.length) = toI32 (z + t.length) := Int.bmod_add_bmod
    rw [printAll, printAt, hret]
    split_ifs
    · dsimp only
      rw [ih, flatten_cons, length_append, Nat.cast_add, Int.add_assoc]
    · rw [ih, flatten_cons, length_append, Nat.cast_add, Int.add_assoc]

theorem snprintf_outside {n : Nat} (text : Bytes) (h : n ≤ rest.length) :
    (snprintf n text rest).drop n = rest.drop n ∧ (snprintf n text rest).length = rest.length := by
  rw [snprintf]
  split_ifs with hn
  · exact ⟨rfl, rfl⟩
  · have hlength := length_take_le (n - 1) text
    generalize text.take (n - 1) = t at *
    have hdrop : (t ++ 0 :: rest.drop (t.length + 1)).drop n = rest.drop n := by
      have hn' : n = t.length + (n - t.length - 1 + 1) := by omega
      rw [hn', drop_length_add_append, drop_succ_cons, drop_drop]
      congr 1
      omega
    refine ⟨hdrop, ?_⟩
    rw [length_append, length_cons, length_drop]
    omega

/-- Nothing behind `outlen` is written. -/
theorem printAll_outside (ret : Int) (h : outlen ≤ rest.length) :
    (printAll ts ret outlen rest).2.drop outlen = rest.drop outlen ∧
      (printAll ts ret outlen rest).2.length = rest.length := by
  induction ts generalizing ret outlen rest with
  | nil => exact ⟨rfl, rfl⟩
  | cons t ts ih =>
    rw [printAll, printAt]
    split_ifs with hroom
    · obtain ⟨hdrop, hlength⟩ := snprintf_outside t h
      dsimp only
      generalize snprintf outlen t rest = out at *
      have htake : (out.take t.length).length = t.length := length_take_of_le (by omega)
      have hroom' : outlen - t.length ≤ (out.drop t.length).length := by
        rw [length_drop]
        omega
      obtain ⟨ihdrop, ihlength⟩ := ih (toI32 (ret + t.length)) hroom'
      constructor
      · rw [drop_append, drop_of_length_le (by omega), nil_append, htake, ihdrop, drop_drop,
          Nat.add_sub_cancel' hroom, hdrop]
      · rw [length_append, htake, ihlength, length_drop]
        omega
    · obtain ⟨ihdrop, ihlength⟩ := ih (toI32 (ret + t.length)) (Nat.zero_le rest.length)
      rw [drop_zero, drop_zero] at ihdrop
      exact ⟨by rw [ihdrop], ihlength⟩

/-- Where there is room, texts are printed one behind the other, with the end of the string. -/
theorem printAll_fits {ts : List Bytes} (ret : Int) (hne : ts ≠ [])
    (hroom : ts.flatten.length < outlen) :
    (printAll ts ret outlen rest).2 = ts.flatten ++ 0 :: rest.drop (ts.flatten.length + 1) := by
  induction ts generalizing ret outlen rest with
  | nil => exact absurd rfl hne
  | cons t ts ih =>
    rw [flatten_cons, length_append] at *
    have hprint : snprintf outlen t rest = t ++ 0 :: rest.drop (t.length + 1) := by
      rw [snprintf, if_neg (by omega), take_of_length_le (by omega)]
    rw [printAll, printAt, if_pos (by omega), hprint]
    dsimp only
    rw [take_left, drop_left, append_assoc]
    congr 1
    by_cases hts : ts = []
    · rw [hts]
      rfl
    · rw [ih _ hts (by omega), drop_succ_cons, drop_drop]
      congr 3
      omega

def qpSize (s : Bytes) : Nat := (s.flatMap qpText).length + 1

theorem mimeEncodeAsQp_eq (hs : 0 ∉ s) (out : Bytes) (outlen : Nat) :
    mimeEncodeAsQp s out outlen = printAll (s.map qpText) (toI32 1) outlen out := by
  rw [mimeEncodeAsQp, cstr_eq_self hs, qpEncodeFrom_eq]
  rfl

theorem mimeEncodeAsQp_ret (hs : 0 ∉ s) (out : Bytes) (outlen : Nat) :
    (mimeEncodeAsQp s out outlen).1 = toI32 (qpSize s) := by
  rw [mimeEncodeAsQp_eq hs, printAll_ret, ← flatMap_def, Int.add_comm]
  rfl

theorem qpText_ne_zero (h : c ≠ 0) : 0 ∉ qpText c := by
  grind [qpText, upperHexDigit, halves_lt]

theorem length_le_flatMap_qpText (s : Bytes) : s.length ≤ (s.flatMap qpText).length := by
  induction s with
  | nil => exact Nat.le_refl 0
  | cons c s ih =>
    have hpos : 0 < (qpText c).length := by grind [qpText]
    rw [flatMap_cons, length_append, length_cons]
    omega

def QpBack (s : Bytes) : Prop :=
  ∀ out out' : Bytes, qpSize s ≤ out.length → s.length + 1 ≤ out'.length →
    let text := mimeEncodeAsQp s out out.length
    let back := mimeDecodeFromQp text.2 out' out'.length
    text.1 = qpSize s ∧ back.1 = s.length + 1 ∧ 0 ∈ back.2 ∧ cstr back.2 = s

def QpContained (s : Bytes) : Prop :=
  ∀ (out : Bytes) (outlen : Nat), outlen ≤ out.length →
    let text := mimeEncodeAsQp s out outlen
    text.1 = qpSize s ∧ text.2.drop outlen = out.drop outlen ∧ text.2.length = out.length

theorem qpBack (hs : 0 ∉ s) (hne : s ≠ []) (hsize : qpSize s < 2 ^ 31) : QpBack s := by
  intro out out' hout hout'
  have hflat : 0 ∉ s.flatMap qpText := by
    intro hzero
    obtain ⟨c, hc, hmem⟩ := mem_flatMap.mp hzero
    exact qpText_ne_zero (fun h => hs (h ▸ hc)) hmem
  have hmap : ∀ f : UInt8 → Bytes, s.map f ≠ [] := fun f h => hne (map_eq_nil_iff.mp h)
  have hencoded : (mimeEncodeAsQp s out out.length).2 = s.flatMap qpText ++
      0 :: out.drop (qpSize s) := by
    rw [mimeEncodeAsQp_eq hs, printAll_fits _ (hmap _) hout, ← flatMap_def]
    rfl
  have htext : cstr (mimeEncodeAsQp s out out.length).2 = s.flatMap qpText := by
    rw [hencoded, cstr_append_of_zero_notMem hflat, cstr_zero, append_nil]
  have hpieces : (s.map fun c => [c]).flatten = s := flatMap_singleton' s
  have hdecoded : mimeDecodeFromQp (mimeEncodeAsQp s out out.length).2 out' out'.length =
      printAll (s.map fun c => [c]) (toI32 1) out'.length out' := by
    rw [mimeDecodeFromQp, htext, qpDecodeFrom_eq]
    rfl
  have hback : (printAll (s.map fun c => [c]) (toI32 1) out'.length out').2 =
      s ++ 0 :: out'.drop (s.length + 1) := by
    rw [printAll_fits _ (hmap _) (by rwa [hpieces]), hpieces]
  refine ⟨(mimeEncodeAsQp_ret hs _ _).trans (toI32_of_lt hsize), ?_⟩
  rw [hdecoded, hback]
  refine ⟨?_, mem_append_right s mem_cons_self, ?_⟩
  · have hle := length_le_flatMap_qpText s
    rw [printAll_ret, hpieces, Int.add_comm]
    exact toI32_of_lt (show s.length + 1 < 2 ^ 31 by unfold qpSize at hsize; omega)
  · rw [cstr_append_of_zero_notMem hs, cstr_zero, append_nil]

/-- **Quoted printable.** A text comes back from its coding, which stays inside of its buffer,
exactly if it is not empty and its coding has a length that is an `int`. -/
theorem qp_iff (hs : 0 ∉ s) : QpBack s ∧ QpContained s ↔ s ≠ [] ∧ qpSize s < 2 ^ 31 := by
  constructor
  · rintro ⟨hback, hcontained⟩
    constructor
    · rintro rfl
      -- Nothing is written, so the byte that was there is decoded.
      exact absurd (hback [65] [0, 0] (Nat.le_refl 1) (by decide)).2.1 (by decide)
    · have hret := (hcontained [] 0 (Nat.le_refl 0)).1
      have hrange := toI32_range (qpSize s)
      rw [mimeEncodeAsQp_ret hs] at hret
      omega
  · rintro ⟨hne, hsize⟩
    refine ⟨qpBack hs hne hsize, fun out outlen hout => ⟨?_, ?_⟩⟩
    · exact (mimeEncodeAsQp_ret hs out outlen).trans (toI32_of_lt hsize)
    · rw [mimeEncodeAsQp_eq hs]
      exact printAll_outside _ _ hout

/-- An equals sign, which is coded. -/
theorem qp_equals : QpBack [61] ∧ QpContained [61] :=
  (qp_iff (s := [61]) (by decide)).mpr ⟨by decide, by decide⟩

/-- Of the empty text nothing is written, not even the end of a string. -/
theorem not_qpBack_empty : ¬ QpBack [] := fun hback =>
  absurd (hback [65] [0, 0] (Nat.le_refl 1) (by decide)).2.1 (by decide)

end RadosGateway.Armor
