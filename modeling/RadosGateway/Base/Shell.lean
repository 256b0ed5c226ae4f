import RadosGateway.Base.Bytes

/-!
# Shell command lines

How a POSIX shell splits a line into the words of a simple command: blanks separate, quotes and
backslashes protect what they quote, an unquoted number sign in front of a word starts a comment. A
line that needs more than that to be a list of words (operators, expansions, an open quote) has no
reading here. -/

namespace Shell

open Text List Option

abbrev Word := List (UInt8 × Bool)

variable {s : Bytes} {ws : List Word} {cur : Option Word}

def Word.bytes (w : Word) : Bytes := w.map Prod.fst

def literal (s : Bytes) : Word := s.map fun c => (c, false)

theorem bytes_literal (s : Bytes) : Word.bytes (literal s) = s := by
  simp [Word.bytes, literal, Function.comp_def]

def isBlank (c : UInt8) : Bool := c = 32 || c = 9

def isQuoting (c : UInt8) : Bool := c = 39 || c = 34 || c = 92

def isActive (c : UInt8) : Bool :=
  c = 10 || c = 36 || c = 38 || c = 40 || c = 41 || c = 59 || c = 60 || c = 62 || c = 96 || c = 124

def isOrdinary (c : UInt8) : Bool := !isBlank c && !isQuoting c && !isActive c

inductive Mode where
  | bare
  | escape
  | single
  | double
  | doubleEscape
  deriving DecidableEq

def push (cur : Option Word) (c : UInt8) (quoted : Bool) : Option Word :=
  some (cur.getD [] ++ [(c, quoted)])

def flush (cur : Option Word) (ws : List Word) : List Word :=
  match cur with
  | none => ws
  | some w => w :: ws

def lex : Mode → Option Word → Bytes → Option (List Word)
  | .bare, cur, [] => some (flush cur [])
  | _, _, [] => none
  | .bare, cur, c :: cs =>
    if isBlank c then (lex .bare none cs).map (flush cur)
    else if c = 39 then lex .single (some (cur.getD [])) cs
    else if c = 34 then lex .double (some (cur.getD [])) cs
    else if c = 92 then lex .escape cur cs
    else if c = 35 ∧ cur = none then if 10 ∈ cs then none else some []
    -- a tilde in front of a word is an expansion as well
    else if isActive c ∨ (c = 126 ∧ cur = none) then none
    else lex .bare (push cur c false) cs
  | .escape, cur, c :: cs =>
    -- a quoted newline continues the line and is dropped
    if c = 10 then lex .bare cur cs else lex .bare (push cur c true) cs
  | .single, cur, c :: cs =>
    if c = 39 then lex .bare cur cs else lex .single (push cur c true) cs
  | .double, cur, c :: cs =>
    if c = 34 then lex .bare cur cs
    else if c = 92 then lex .doubleEscape cur cs
    else if c = 36 ∨ c = 96 then none
    else lex .double (push cur c true) cs
  | .doubleEscape, cur, c :: cs =>
    -- inside double quotes a backslash only quotes the characters that are special there
    if c = 10 then lex .double cur cs
    else if c = 36 ∨ c = 96 ∨ c = 34 ∨ c = 92 then lex .double (push cur c true) cs
    else lex .double (push (push cur 92 true) c true) cs

def closesBracket (w : Word) : Bool :=
  let w := match w with
    | (33, false) :: rest => rest
    | _ => w
  match w with
  | [] => false
  | (c, _) :: rest => c ≠ 47 && (rest.takeWhile fun x => x.1 ≠ 47).any (· == (93, false))

def hasBracket : Word → Bool
  | [] => false
  | x :: w => (x == (91, false) && closesBracket w) || hasBracket w

def isPattern (w : Word) : Bool :=
  w.any (fun x => x == (42, false) || x == (63, false)) || hasBracket w

def expand (glob : Bytes → List Bytes) (w : Word) : List Bytes :=
  if isPattern w ∧ glob w.bytes ≠ [] then glob w.bytes else [w.bytes]

def argv (glob : Bytes → List Bytes) (line : Bytes) : Option (List Bytes) :=
  (lex .bare none line).map fun ws => ws.flatMap (expand glob)

def isOption (arg : Bytes) : Bool := arg.head? = some 45 && 1 < arg.length

def operands : List Bytes → List Bytes
  | [] => []
  | arg :: args =>
    if arg = [45, 45] then args
    else if isOption arg then operands args else arg :: operands args

theorem mem_of_mem_operands {args : List Bytes} {arg : Bytes} (h : arg ∈ operands args) :
    arg ∈ args := by
  induction args with
  | nil => simp [operands] at h
  | cons a args ih =>
    simp only [operands] at h
    split_ifs at h
    · exact mem_cons_of_mem _ h
    · exact mem_cons_of_mem _ (ih h)
    · rcases mem_cons.mp h with rfl | h
      · exact mem_cons_self
      · exact mem_cons_of_mem _ (ih h)

theorem lex_blank (cur : Option Word) (s : Bytes) :
    lex .bare cur (32 :: s) = (lex .bare none s).map (flush cur) := by
  have hblank : isBlank 32 = true := by decide
  simp only [lex, hblank, if_true]

theorem lex_append_of_ordinary (hs : ∀ c ∈ s, isOrdinary c = true) (w : Word)
    (rest : Bytes) : lex .bare (some w) (s ++ rest) = lex .bare (some (w ++ literal s)) rest := by
  induction s generalizing w with
  | nil => simp [literal]
  | cons c s ih =>
    have hc := hs c (by simp)
    simp only [isOrdinary, Bool.and_eq_true, Bool.not_eq_true'] at hc
    obtain ⟨⟨hblank, hquoting⟩, hactive⟩ := hc
    simp only [isQuoting, Bool.or_eq_false_iff, decide_eq_false_iff_not] at hquoting
    simp only [cons_append, lex, hblank, hquoting, hactive, push, Bool.false_eq_true,
      if_false, reduceCtorEq, and_false, or_false, getD_some]
    rw [ih fun d hd => hs d (mem_cons_of_mem _ hd)]
    simp [literal]

theorem lex_word {c : UInt8} (hs : ∀ d ∈ c :: s, isOrdinary d = true) (hhash : c ≠ 35)
    (htilde : c ≠ 126) (rest : Bytes) :
    lex .bare none (c :: s ++ rest) = lex .bare (some (literal (c :: s))) rest := by
  have hc := hs c (by simp)
  simp only [isOrdinary, Bool.and_eq_true, Bool.not_eq_true'] at hc
  obtain ⟨⟨hblank, hquoting⟩, hactive⟩ := hc
  simp only [isQuoting, Bool.or_eq_false_iff, decide_eq_false_iff_not] at hquoting
  simp only [cons_append, lex, hblank, hquoting, hactive, hhash, htilde, push,
    Bool.false_eq_true, if_false, false_and, or_false, getD_none, nil_append]
  rw [lex_append_of_ordinary fun d hd => hs d (mem_cons_of_mem _ hd)]
  rfl

def quoted (s : Bytes) : Word := s.map fun c => (c, true)

theorem bytes_quoted (s : Bytes) : Word.bytes (quoted s) = s := by
  simp [Word.bytes, quoted, Function.comp_def]

theorem lex_single (hs : 39 ∉ s) (w : Word) (rest : Bytes) :
    lex .single (some w) (s ++ 39 :: rest) = lex .bare (some (w ++ quoted s)) rest := by
  induction s generalizing w with
  | nil => simp [lex, quoted]
  | cons c s ih =>
    rw [mem_cons, not_or] at hs
    rw [cons_append, lex, if_neg (Ne.symm hs.1), push, getD_some, ih hs.2]
    simp [quoted]

theorem lex_quote (hs : 39 ∉ s) (rest : Bytes) :
    lex .bare none (39 :: (s ++ 39 :: rest)) = lex .bare (some (quoted s)) rest := by
  have hblank : isBlank 39 = false := by decide
  rw [lex, hblank, if_neg Bool.false_ne_true, if_pos rfl, lex_single hs]
  rfl

theorem isPattern_quoted (s : Bytes) : isPattern (quoted s) = false := by
  have hbracket : hasBracket (quoted s) = false := by
    induction s with
    | nil => rfl
    | cons c s ih =>
      change hasBracket ((c, true) :: quoted s) = false
      rw [hasBracket, ih]
      simp
  rw [isPattern, hbracket]
  simp [quoted]

def isMark (c : UInt8) : Bool := isQuoting c || c = 35

def marks (s : Bytes) : Nat := s.countP isMark

theorem marks_cons (c : UInt8) (s : Bytes) : marks (c :: s) = marks s + if isMark c then 1 else 0 :=
  countP_cons

theorem marks_append (s r : Bytes) : marks (s ++ r) = marks s + marks r := countP_append

def wordMarks (ws : List Word) : Nat := (ws.map fun w => marks w.bytes).sum

def curMarks (cur : Option Word) : Nat := marks (Word.bytes (cur.getD []))

def pending : Mode → Nat
  | .doubleEscape => 1
  | _ => 0

@[simp]
theorem curMarks_none : curMarks none = 0 := rfl

@[simp]
theorem curMarks_some_getD (cur : Option Word) : curMarks (some (cur.getD [])) = curMarks cur := rfl

@[simp]
theorem curMarks_push (cur : Option Word) (c : UInt8) (quoted : Bool) :
    curMarks (push cur c quoted) = curMarks cur + if isMark c then 1 else 0 := by
  simp [curMarks, push, Word.bytes, marks]

@[simp]
theorem wordMarks_nil : wordMarks [] = 0 := rfl

@[simp]
theorem wordMarks_flush (cur : Option Word) (ws : List Word) :
    wordMarks (flush cur ws) = curMarks cur + wordMarks ws := by
  cases cur <;> simp [flush, wordMarks, curMarks, Word.bytes, marks]

/-- The shell does not make marks: every quoting character of the words was one of the line. -/
theorem wordMarks_lex_le {m : Mode}
    (h : lex m cur s = some ws) : wordMarks ws ≤ curMarks cur + pending m + marks s := by
  induction s generalizing m cur ws with
  | nil =>
    cases m <;> simp only [lex, some.injEq, reduceCtorEq] at h
    rw [← h, wordMarks_flush, wordMarks_nil]
    omega
  | cons c s ih =>
    rw [marks_cons]
    cases m with
    | bare =>
      simp only [lex] at h
      split_ifs at h with hblank hsq hdq hesc hhash hnl hactive
      · obtain ⟨ws', hws', rfl⟩ := map_eq_some_iff.mp h
        have := ih hws'
        simp only [wordMarks_flush, curMarks_none, pending] at this ⊢
        omega
      · have := ih h
        simp only [curMarks_some_getD, pending] at this ⊢
        omega
      · have := ih h
        simp only [curMarks_some_getD, pending] at this ⊢
        omega
      · have := ih h
        simp only [pending] at this ⊢
        omega
      · rw [← some.inj h, wordMarks_nil]
        omega
      · have := ih h
        simp only [curMarks_push, pending] at this ⊢
        omega
    | escape =>
      simp only [lex] at h
      split_ifs at h with hnl
      all_goals
        have := ih h
        simp only [curMarks_push, pending] at this ⊢
        omega
    | single =>
      simp only [lex] at h
      split_ifs at h with hsq
      all_goals
        have := ih h
        simp only [curMarks_push, pending] at this ⊢
        omega
    | double =>
      simp only [lex] at h
      split_ifs at h with hdq hesc hactive
      · have := ih h
        simp only [pending] at this ⊢
        omega
      · have := ih h
        have hmark : isMark c = true := by rw [hesc]; decide
        simp only [pending, hmark, if_true] at this ⊢
        omega
      · have := ih h
        simp only [curMarks_push, pending] at this ⊢
        omega
    | doubleEscape =>
      simp only [lex] at h
      split_ifs at h with hnl hquoted
      · have := ih h
        simp only [pending] at this ⊢
        omega
      · have := ih h
        simp only [curMarks_push, pending] at this ⊢
        omega
      · have := ih h
        have hmark : isMark 92 = true := by decide
        simp only [curMarks_push, pending, hmark, if_true] at this ⊢
        omega

/-- If no mark was used up in reading, the line has only blanks and ordinary characters. -/
theorem ordinary_of_marks_le (h : lex .bare cur s = some ws)
    (hmarks : curMarks cur + marks s ≤ wordMarks ws) :
    ∀ c ∈ s, isBlank c = true ∨ isOrdinary c = true := by
  induction s generalizing cur ws with
  | nil => simp
  | cons c s ih =>
    rw [marks_cons] at hmarks
    simp only [lex] at h
    split_ifs at h with hblank hsq hdq hesc hhash hnl hactive
    · obtain ⟨ws', hws', rfl⟩ := map_eq_some_iff.mp h
      have hrest := ih hws' (by simp only [wordMarks_flush, curMarks_none] at hmarks ⊢; omega)
      intro d hd
      rcases mem_cons.mp hd with rfl | hd
      · exact .inl hblank
      · exact hrest d hd
    · have := wordMarks_lex_le h
      have hmark : isMark c = true := by rw [hsq]; decide
      simp only [curMarks_some_getD, pending, hmark, if_true] at this hmarks
      omega
    · have := wordMarks_lex_le h
      have hmark : isMark c = true := by rw [hdq]; decide
      simp only [curMarks_some_getD, pending, hmark, if_true] at this hmarks
      omega
    · have := wordMarks_lex_le h
      have hmark : isMark c = true := by rw [hesc]; decide
      simp only [pending, hmark, if_true] at this hmarks
      omega
    · have hmark : isMark c = true := by rw [hhash.1]; decide
      rw [← some.inj h] at hmarks
      simp only [wordMarks_nil, hmark, if_true] at hmarks
      omega
    · have hordinary : isOrdinary c = true := by
        have hactive' : isActive c = false := by simpa using fun h => hactive (.inl h)
        simp [isOrdinary, isQuoting, hblank, hsq, hdq, hesc, hactive']
      have hrest := ih h (by simp only [curMarks_push]; omega)
      intro d hd
      rcases mem_cons.mp hd with rfl | hd
      · exact .inr hordinary
      · exact hrest d hd

theorem mem_of_mem_lex {P : UInt8 → Prop}
    (hs : ∀ c ∈ s, isBlank c = true ∨ isOrdinary c = true ∧ P c)
    (hcur : ∀ w, cur = some w → w ≠ [] ∧ ∀ x ∈ w, P x.1) (h : lex .bare cur s = some ws) {w : Word}
    (hw : w ∈ ws) :
    w ≠ [] ∧ ∀ x ∈ w, P x.1 := by
  induction s generalizing cur ws with
  | nil =>
    simp only [lex, some.injEq] at h
    subst h
    cases cur with
    | none => simp [flush] at hw
    | some v =>
      obtain rfl : w = v := by simpa [flush] using hw
      exact hcur w rfl
  | cons c s ih =>
    have hrest : ∀ d ∈ s, isBlank d = true ∨ isOrdinary d = true ∧ P d :=
      fun d hd => hs d (mem_cons_of_mem _ hd)
    by_cases hblank : isBlank c = true
    · simp only [lex, hblank, if_true] at h
      obtain ⟨ws', hws', rfl⟩ := map_eq_some_iff.mp h
      cases cur with
      | none => exact ih hrest (by simp) hws' (by simpa [flush] using hw)
      | some v =>
        rcases mem_cons.mp hw with rfl | hw
        · exact hcur w rfl
        · exact ih hrest (by simp) hws' hw
    · obtain ⟨hordinary, hP⟩ := (hs c (by simp)).resolve_left hblank
      simp only [isOrdinary, isQuoting, Bool.and_eq_true, Bool.not_eq_true',
        Bool.or_eq_false_iff, decide_eq_false_iff_not] at hordinary
      obtain ⟨⟨-, ⟨hsq, hdq⟩, hesc⟩, hactive⟩ := hordinary
      simp only [lex, hblank, hsq, hdq, hesc, hactive, Bool.false_eq_true, if_false, false_or] at h
      split_ifs at h
      · rw [← some.inj h] at hw
        simp at hw
      · refine ih hrest ?_ h hw
        intro v hv
        cases hv
        refine ⟨by simp, ?_⟩
        intro x hx
        rcases mem_append.mp hx with hx | hx
        · cases cur with
          | none => simp at hx
          | some v => exact (hcur v rfl).2 x hx
        · rw [mem_singleton.mp hx]
          exact hP

theorem ordinary_of_mem_lex {line : Bytes} {w : Word}
    (h : lex .bare none line = some ws) (hw : w ∈ ws) (hmarks : marks line ≤ marks w.bytes) :
    w.bytes ≠ [] ∧ ∀ c ∈ w.bytes, isOrdinary c = true ∧ c ∈ line := by
  have hsum : marks w.bytes ≤ wordMarks ws :=
    single_le_sum (by simp) _ (List.mem_map_of_mem hw)
  have hline := ordinary_of_marks_le h (by rw [curMarks_none]; omega)
  have hbytes : ∀ c ∈ line, isBlank c = true ∨
      isOrdinary c = true ∧ (isOrdinary c = true ∧ c ∈ line) := by
    intro c hc
    exact (hline c hc).imp_right fun hordinary => ⟨hordinary, hordinary, hc⟩
  obtain ⟨hne, hmem⟩ := mem_of_mem_lex hbytes (by simp) h hw
  refine ⟨by simpa [Word.bytes] using hne, ?_⟩
  intro c hc
  obtain ⟨x, hx, rfl⟩ := List.mem_map.mp hc
  exact hmem x hx

def isPlain (s : Bytes) : Bool :=
  s.all isOrdinary && s.head?.any (fun c => c ≠ 35 && c ≠ 126) && !isPattern (literal s)

theorem cons_of_isPlain (h : isPlain s = true) :
    ∃ c s', s = c :: s' ∧ (∀ d ∈ c :: s', isOrdinary d = true) ∧ c ≠ 35 ∧ c ≠ 126 := by
  simp only [isPlain, Bool.and_eq_true, List.all_eq_true] at h
  obtain ⟨⟨hall, hhead⟩, -⟩ := h
  cases s with
  | nil => simp at hhead
  | cons c s =>
    simp only [head?_cons, any_some, Bool.and_eq_true, decide_eq_true_eq] at hhead
    exact ⟨c, s, rfl, hall, hhead.1, hhead.2⟩

theorem lex_of_isPlain (hs : isPlain s = true) (rest : Bytes) :
    lex .bare none (s ++ rest) = lex .bare (some (literal s)) rest := by
  obtain ⟨c, s, rfl, hall, hhash, htilde⟩ := cons_of_isPlain hs
  exact lex_word hall hhash htilde rest

theorem expand_of_isPlain (hs : isPlain s = true) (glob : Bytes → List Bytes) :
    expand glob (literal s) = [s] := by
  simp only [isPlain, Bool.and_eq_true, Bool.not_eq_true'] at hs
  simp [expand, hs.2, bytes_literal]

end Shell
