import RadosGateway.ConfFile
import RadosGateway.Store

/-!
# What the configuration parser makes of a file

A blank line counts as a comment when the line before it was one, because its first word is looked
for in a buffer that still holds the last one. A name is only trimmed at its end, and only of
spaces. -/

namespace RadosGateway

open Text Posix List Option

variable {c : UInt8}

theorem isSpace_of_isBlank (h : isBlank c = true) : isSpace c = true :=
  (Bool.and_eq_true_iff.mp h).1

variable {s : Bytes}

theorem zero_notMem_of_isBlank (h : ∀ c ∈ s, isBlank c = true) : 0 ∉ s := by
  intro h0
  have hspace := isSpace_of_isBlank (h 0 h0)
  cases hspace

theorem newline_notMem_of_isBlank (h : ∀ c ∈ s, isBlank c = true) : 10 ∉ s := by
  intro h10
  have hne := (Bool.and_eq_true_iff.mp (h 10 h10)).2
  cases hne

variable {b : Bytes}

theorem firstToken_blank_append (h : ∀ c ∈ b, isBlank c = true) (s : Bytes) :
    firstToken (b ++ s) = firstToken s := by
  rw [firstToken, dropWhile_append_of_pos fun c hc => isSpace_of_isBlank (h c hc)]
  rfl

theorem firstToken_blank (h : ∀ c ∈ b, isBlank c = true) : firstToken b = [] := by
  have hnil := firstToken_blank_append h []
  rwa [append_nil] at hnil

theorem firstToken_cons (h : isSpace c = false) (s : Bytes) :
    firstToken (c :: s) = c :: s.takeWhile fun c => !isSpace c := by
  rw [firstToken, dropWhile_cons_of_neg (by simp [h]), takeWhile_cons_of_pos (by simp [h])]

theorem firstToken_solid_append {s b : Bytes} (hs : ∀ c ∈ s, isSpace c = false)
    (hb : ∀ c ∈ b, isBlank c = true) : firstToken (s ++ b) = s := by
  cases s with
  | nil => exact firstToken_blank hb
  | cons c s =>
    have htail : (s ++ b).takeWhile (fun c => !isSpace c) = s := by
      rw [takeWhile_append_of_pos fun c hc => by simp [hs c (mem_cons_of_mem _ hc)]]
      cases b with
      | nil => simp
      | cons d b =>
        rw [takeWhile_cons_of_neg (by simp [isSpace_of_isBlank (hb d mem_cons_self)]), append_nil]
    rw [cons_append, firstToken_cons (hs c mem_cons_self), htail]

def withoutSpaces (s : Bytes) : Bytes := (s.reverse.dropWhile (· = 32)).reverse

theorem withoutSpaces_append (hlast : s.getLast? = some c) (hc : c ≠ 32)
    (b : Bytes) : withoutSpaces (s ++ b) = s ++ withoutSpaces b := by
  have hstop : s.reverse.dropWhile (fun c => decide (c = 32)) = s.reverse := by
    rw [← head?_reverse] at hlast
    cases hrev : s.reverse with
    | nil => rfl
    | cons d t =>
      rw [hrev, head?_cons, some.injEq] at hlast
      subst hlast
      exact dropWhile_cons_of_neg (by simpa using hc)
  rw [withoutSpaces, reverse_append, dropWhile_append, hstop]
  split_ifs with hempty
  · rw [withoutSpaces, List.isEmpty_iff.mp hempty, reverse_nil, append_nil, reverse_reverse]
  · rw [reverse_append, reverse_reverse, withoutSpaces]

theorem withoutSpaces_eq_nil : withoutSpaces s = [] ↔ ∀ c ∈ s, c = 32 := by
  simp [withoutSpaces, dropWhile_eq_nil_iff]

theorem stripSpace_append (hlast : s.getLast? = some c) (hc : c ≠ 32) (b : Bytes) :
    stripSpace (s ++ b) = some (s ++ withoutSpaces b) := by
  have hmem : c ∈ s ++ b := mem_append_left _ (mem_of_getLast? hlast)
  have hall : ¬ (s ++ b).all (fun c => decide (c = 32)) = true := by
    intro hall
    exact hc (by simpa using List.all_eq_true.mp hall c hmem)
  rw [stripSpace, if_neg hall, ← withoutSpaces, withoutSpaces_append hlast hc]

section Line

variable {var : Bytes} {rest : List Bytes}

theorem confLoop_cons {line : Bytes} (hne : line ≠ []) (hlen : line.length < 256) :
    confLoop 61 var (line :: rest) =
      if (if firstToken (cstr line) = [] then var else firstToken (cstr line)).head? = some 35 then
        if rest = [] then some ([], -1)
        else confLoop 61 (if firstToken (cstr line) = [] then var else firstToken (cstr line)) rest
      else match scanAssign 61 (cstr line) with
        | none => some ([], -1)
        | some (name, value) =>
          match stripSpace name with
          | none => none
          | some name => (confLoop 61 name rest).map fun r => ((name, value) :: r.1, r.2) := by
  rw [confLoop, if_neg hne]
  exact if_neg hlen.not_ge

theorem confLoop_white {white : Bytes} (hwhite : ∀ c ∈ white, isBlank c = true) (hne : white ≠ [])
    (hlen : white.length < 256) : confLoop 61 var (white :: rest) =
      if var.head? = some 35 ∧ rest ≠ [] then confLoop 61 var rest else some ([], -1) := by
  have hcstr : cstr white = white := cstr_eq_self (zero_notMem_of_isBlank hwhite)
  have hdelim : ∀ c ∈ white, decide (c ≠ 61) = true := by
    intro c hc
    have hspace := isSpace_of_isBlank (hwhite c hc)
    rw [decide_eq_true_eq]
    rintro rfl
    cases hspace
  have hscan : scanAssign 61 white = none := by
    rw [scanAssign, dropWhile_eq_nil_iff.mpr hdelim]
  rw [confLoop_cons hne hlen, hcstr, firstToken_blank hwhite, hscan]
  split_ifs <;> simp_all

theorem confLoop_comment (var : Bytes) (rest : List Bytes) {indent text : Bytes}
    (hindent : ∀ c ∈ indent, isBlank c = true)
    (hlen : (indent ++ 35 :: text).length < 256) :
    ∃ var', var'.head? = some 35 ∧ confLoop 61 var ((indent ++ 35 :: text) :: rest) =
      if rest ≠ [] then confLoop 61 var' rest else some ([], -1) := by
  have hcstr : cstr (indent ++ 35 :: text) = indent ++ 35 :: cstr text := by
    rw [cstr_append_of_zero_notMem (zero_notMem_of_isBlank hindent)]
    rfl
  have htoken : firstToken (cstr (indent ++ 35 :: text)) = 35 :: (cstr text).takeWhile fun c =>
      !isSpace c := by
    rw [hcstr, firstToken_blank_append hindent, firstToken_cons (by decide)]
  refine ⟨35 :: (cstr text).takeWhile fun c => !isSpace c, rfl, ?_⟩
  rw [confLoop_cons (by simp) hlen, htoken]
  split_ifs <;> simp_all

end Line

namespace ConfAssign

variable (a : ConfAssign) {var : Bytes} {rest : List Bytes}

def handedName : Bytes := a.indent ++ a.name ++ withoutSpaces a.before

theorem exists_last : ∃ c, (a.indent ++ a.name).getLast? = some c ∧ c ≠ 32 := by
  obtain ⟨c, hc⟩ := isSome_iff_exists.mp (getLast?_isSome.mpr a.name_ne_nil)
  refine ⟨c, by rw [getLast?_append, hc]; rfl, ?_⟩
  rintro rfl
  have hspace := a.name_last 32 hc
  cases hspace

theorem stripSpace_name : stripSpace (a.indent ++ a.name ++ a.before) = some a.handedName := by
  obtain ⟨c, hlast, hc⟩ := a.exists_last
  exact stripSpace_append hlast hc a.before

theorem handedName_eq_iff : a.handedName = a.name ↔ a.indent = [] ∧ ∀ c ∈ a.before, c = 32 := by
  rw [← withoutSpaces_eq_nil, handedName]
  constructor
  · intro h
    have hlen := congrArg List.length h
    rw [length_append, length_append] at hlen
    exact ⟨eq_nil_of_length_eq_zero (by omega), eq_nil_of_length_eq_zero (by omega)⟩
  · rintro ⟨hindent, hbefore⟩
    rw [hindent, hbefore, nil_append, append_nil]

theorem exists_name_cons : ∃ c t, a.name = c :: t ∧ isSpace c = false ∧ c ≠ 35 := by
  obtain ⟨c, t, hname⟩ := exists_cons_of_ne_nil a.name_ne_nil
  exact ⟨c, t, hname, a.name_first c (by rw [hname]; rfl)⟩

theorem head_handedName : a.handedName.head? ≠ some 35 := by
  obtain ⟨c, t, hname, -, hhash⟩ := a.exists_name_cons
  rw [handedName, hname]
  cases hindent : a.indent with
  | nil => simpa using hhash
  | cons d u =>
    have hblank := isSpace_of_isBlank (a.indent_blank d (by simp [hindent]))
    simp only [cons_append, head?_cons, ne_eq, some.injEq]
    rintro rfl
    cases hblank

theorem text_eq : (ConfLine.assign a).text =
    a.indent ++ (a.name ++ (a.before ++ 61 :: (a.after ++ (a.value ++ a.trail)))) := by
  simp [ConfLine.text]

theorem text_ne_nil : (ConfLine.assign a).text ≠ [] := by
  simp [ConfLine.text]

theorem cstr_text_of_zero_notMem (hname : 0 ∉ a.name) : cstr (ConfLine.assign a).text =
      a.indent ++ (a.name ++ (a.before ++ 61 :: (a.after ++ cstr (a.value ++ a.trail)))) := by
  rw [text_eq, cstr_append_of_zero_notMem (zero_notMem_of_isBlank a.indent_blank),
    cstr_append_of_zero_notMem hname,
      cstr_append_of_zero_notMem (zero_notMem_of_isBlank a.before_blank),
    ← cstr_append_of_zero_notMem (zero_notMem_of_isBlank a.after_blank)]
  rfl

theorem cstr_text_of_zero_mem (hname : 0 ∈ a.name) :
    cstr (ConfLine.assign a).text = a.indent ++ cstr a.name := by
  rw [text_eq, cstr_append_of_zero_notMem (zero_notMem_of_isBlank a.indent_blank),
    cstr_append_of_zero_mem hname]

theorem firstToken_value : firstToken (a.after ++ cstr (a.value ++ a.trail)) = cstr a.value := by
  rw [firstToken_blank_append a.after_blank]
  by_cases hzero : 0 ∈ a.value
  · have hsolid : ∀ c ∈ cstr a.value, isSpace c = false := fun c hc =>
      a.value_solid c (takeWhile_subset _ hc)
    have htoken := firstToken_solid_append (b := []) hsolid (by simp)
    rw [cstr_append_of_zero_mem hzero]
    rwa [append_nil] at htoken
  · rw [cstr_append_of_zero_notMem hzero, cstr_eq_self (zero_notMem_of_isBlank a.trail_blank),
      firstToken_solid_append a.value_solid a.trail_blank, cstr_eq_self hzero]

theorem ne_delim : ∀ c ∈ a.indent ++ a.name ++ a.before, decide (c ≠ 61) = true := by
  have hblank : isBlank 61 = false := by decide
  intro c hc
  rw [decide_eq_true_eq]
  rintro rfl
  rcases mem_append.mp hc with hc | hc
  · rcases mem_append.mp hc with hc | hc
    · rw [a.indent_blank 61 hc] at hblank
      cases hblank
    · exact (a.name_plain 61 hc).1 rfl
  · rw [a.before_blank 61 hc] at hblank
    cases hblank

theorem scan_of_zero_notMem (hname : 0 ∉ a.name) : scanAssign 61 (cstr (ConfLine.assign a).text) =
      if cstr a.value = [] then none else some (a.indent ++ a.name ++ a.before, cstr a.value) := by
  have hline : cstr (ConfLine.assign a).text =
      a.indent ++ a.name ++ a.before ++ 61 :: (a.after ++ cstr (a.value ++ a.trail)) := by
    rw [a.cstr_text_of_zero_notMem hname]
    simp
  have hne : a.indent ++ a.name ++ a.before ≠ [] := by simp [a.name_ne_nil]
  rw [hline, scanAssign, takeWhile_append_of_pos a.ne_delim, dropWhile_append_of_pos a.ne_delim,
    takeWhile_cons_of_neg (by simp), dropWhile_cons_of_neg (by simp), append_nil]
  simp only [a.firstToken_value, hne, false_or]

/-- One assignment: an empty value ends the loop with an error. -/
theorem confLoop_assign_eq (hname : 0 ∉ a.name) (hlen : (ConfLine.assign a).text.length < 256) :
    confLoop 61 var ((ConfLine.assign a).text :: rest) = if cstr a.value = [] then some ([], -1)
      else (confLoop 61 a.handedName rest).map fun r =>
        ((a.handedName, cstr a.value) :: r.1, r.2) := by
  obtain ⟨c, t, hcons, hspace, hhash⟩ := a.exists_name_cons
  have htoken : ∃ u, firstToken (cstr (ConfLine.assign a).text) = c :: u := by
    rw [a.cstr_text_of_zero_notMem hname, firstToken_blank_append a.indent_blank, hcons,
      cons_append,
      firstToken_cons hspace]
    exact ⟨_, rfl⟩
  obtain ⟨u, hu⟩ := htoken
  rw [confLoop_cons a.text_ne_nil hlen, hu, a.scan_of_zero_notMem hname]
  simp only [reduceCtorEq, if_false, head?_cons, some.injEq, hhash]
  split_ifs
  · rfl
  · simp only [a.stripSpace_name]

/-- A zero byte in the name ends the line early. -/
theorem confLoop_assign_of_zero_mem (var : Bytes) (rest : List Bytes) (hname : 0 ∈ a.name)
    (hlen : (ConfLine.assign a).text.length < 256) :
    confLoop 61 var ((ConfLine.assign a).text :: rest) = some ([], -1) ∨
      confLoop 61 var ((ConfLine.assign a).text :: rest) = confLoop 61 var rest := by
  obtain ⟨c, t, hcons, hspace, hhash⟩ := a.exists_name_cons
  have hscan : scanAssign 61 (a.indent ++ cstr a.name) = none := by
    have hdelim : ∀ c ∈ a.indent ++ cstr a.name, decide (c ≠ 61) = true := by
      intro c hc
      refine a.ne_delim c (mem_append_left _ ?_)
      rcases mem_append.mp hc with hc | hc
      · exact mem_append_left _ hc
      · exact mem_append_right _ (takeWhile_subset _ hc)
    rw [scanAssign, dropWhile_eq_nil_iff.mpr hdelim]
  rw [confLoop_cons a.text_ne_nil hlen, a.cstr_text_of_zero_mem hname, hscan,
    firstToken_blank_append a.indent_blank]
  by_cases hzero : c = 0
  · have hnil : firstToken (cstr a.name) = [] := by
      rw [hcons, hzero]
      rfl
    dsimp only
    split_ifs
    · exact .inl rfl
    · exact .inr rfl
    · exact .inl rfl
  · have hcstr : cstr a.name = c :: cstr t := by
      rw [hcons]
      exact takeWhile_cons_of_pos (by simpa using hzero)
    rw [hcstr, firstToken_cons hspace]
    simp [hhash]

end ConfAssign

section File

variable {final : Bool} {lines : List ConfLine} {var : Bytes}

def Follows (lines : List ConfLine) (final : Bool) : Prop := lines ≠ [] ∨ final = true

instance (lines : List ConfLine) (final : Bool) : Decidable (Follows lines final) :=
  decidable_of_iff (lines.isEmpty = false ∨ final = true) (by simp [Follows])

def ReadableFrom (final : Bool) : Bool → List ConfLine → Prop
  | _, [] => True
  | _, .comment _ _ _ _ :: lines => Follows lines final ∧ ReadableFrom final true lines
  | commented, .blank white _ :: lines =>
    (white = [] ∨ commented = true ∧ Follows lines final) ∧ ReadableFrom final commented lines
  | _, .assign a :: lines =>
    (a.indent = [] ∧ (∀ c ∈ a.before, c = 32) ∧ 0 ∉ a.name ∧ 0 ∉ a.value) ∧
      ReadableFrom final false lines

def Readable (lines : List ConfLine) (final : Bool) : Prop :=
  match lines with
  | .blank [] _ :: _ => confAssigns lines = []
  | _ => ReadableFrom final false lines

theorem confPieces_ne_nil : confPieces lines final ≠ [] ↔ Follows lines final := by
  cases lines <;> cases final <;> simp [confPieces, Follows]

theorem confPieces_cons (l : ConfLine) :
    confPieces (l :: lines) final = l.text :: confPieces lines final := rfl

theorem confLoop_nil_cons {rest : List Bytes} :
    confLoop 61 var ([] :: rest) = confLoop 61 var rest := by
  rw [confLoop, if_pos rfl]

variable {calls : List (Bytes × Bytes)}

theorem not_error : ¬ (some ([], -1) : Option (List (Bytes × Bytes) × Int)) = some (calls, 0) := by
  simp

theorem length_of_error {r : Int} {n : Nat} (h : some ([], -1) = some (calls, r)) :
    calls.length ≤ n := by
  simp [← (Prod.mk.inj (some.inj h)).1]

/-- A line gives at most one call. -/
theorem length_calls_le (hshort : ∀ l ∈ lines, l.text.length < 256) {r : Int}
    (h : confLoop 61 var (confPieces lines final) = some (calls, r)) :
    calls.length ≤ (confAssigns lines).length := by
  induction lines generalizing var calls with
  | nil =>
    have hnil : confLoop 61 var (confPieces [] final) = some ([], 0) := by cases final <;> rfl
    rw [hnil] at h
    simp [← (Prod.mk.inj (some.inj h)).1]
  | cons l lines ih =>
    obtain ⟨hl, hrest⟩ := forall_mem_cons.mp hshort
    rw [confPieces_cons] at h
    cases l with
    | comment indent text hindent htext =>
      obtain ⟨var', -, hloop⟩ := confLoop_comment var (confPieces lines final) hindent hl
      rw [ConfLine.text, hloop] at h
      split_ifs at h
      · exact ih hrest h
      · exact length_of_error h
    | blank white hwhite =>
      rw [ConfLine.text] at h
      by_cases hnil : white = []
      · rw [hnil, confLoop_nil_cons] at h
        exact ih hrest h
      · rw [confLoop_white hwhite hnil hl] at h
        split_ifs at h
        · exact ih hrest h
        · exact length_of_error h
    | assign a =>
      by_cases hzero : 0 ∈ a.name
      · rcases a.confLoop_assign_of_zero_mem var (confPieces lines final) hzero
          hl with hloop | hloop
        · exact length_of_error (hloop.symm.trans h)
        · exact (ih hrest (hloop.symm.trans h)).trans (Nat.le_succ _)
      · rw [a.confLoop_assign_eq hzero hl] at h
        split_ifs at h
        · exact length_of_error h
        · obtain ⟨⟨calls', r'⟩, hloop, heq⟩ := map_eq_some_iff.mp h
          cases heq
          exact Nat.succ_le_succ (ih hrest hloop)

/-- The loop assigns every line exactly if every line can be read where it stands. -/
theorem confLoop_eq_iff (var : Bytes) (hshort : ∀ l ∈ lines, l.text.length < 256) :
    confLoop 61 var (confPieces lines final) = some (confAssigns lines, 0) ↔
      ReadableFrom final (decide (var.head? = some 35)) lines := by
  induction lines generalizing var with
  | nil => cases final <;> simp [confPieces, confLoop, confAssigns, ReadableFrom]
  | cons l lines ih =>
    obtain ⟨hl, hrest⟩ := forall_mem_cons.mp hshort
    rw [confPieces_cons]
    cases l with
    | comment indent text hindent htext =>
      obtain ⟨var', hhash, hloop⟩ :=
        confLoop_comment var (confPieces lines final) hindent hl
      rw [ConfLine.text, hloop, ReadableFrom, confAssigns, ← confPieces_ne_nil]
      split_ifs with hfollows
      · rw [ih _ hrest, and_iff_right hfollows, decide_eq_true hhash]
      · exact iff_of_false not_error fun h => hfollows h.1
    | blank white hwhite =>
      rw [ConfLine.text, ReadableFrom, confAssigns, ← confPieces_ne_nil, decide_eq_true_eq]
      by_cases hnil : white = []
      · rw [hnil, confLoop_nil_cons, ih _ hrest, and_iff_right (.inl rfl)]
      · rw [confLoop_white hwhite hnil hl, or_iff_right hnil]
        split_ifs with hpassed
        · rw [ih _ hrest, and_iff_right hpassed]
        · exact iff_of_false not_error fun h => hpassed h.1
    | assign a =>
      rw [ReadableFrom, confAssigns]
      by_cases hzero : 0 ∈ a.name
      · refine iff_of_false (fun h => ?_) fun h => h.1.2.2.1 hzero
        rcases a.confLoop_assign_of_zero_mem var (confPieces lines final) hzero
          hl with hloop | hloop
        · exact not_error (hloop.symm.trans h)
        · have hle := length_calls_le hrest (hloop.symm.trans h)
          simp at hle
      · have hnext := ih a.handedName hrest
        rw [decide_eq_false a.head_handedName] at hnext
        rw [a.confLoop_assign_eq hzero hl]
        constructor
        · intro h
          split_ifs at h with hcut
          · exact absurd h not_error
          · obtain ⟨⟨calls, r⟩, hloop, heq⟩ := map_eq_some_iff.mp h
            obtain ⟨hcalls, rfl⟩ := Prod.mk.inj heq
            obtain ⟨hcall, rfl⟩ := List.cons.inj hcalls
            obtain ⟨hname, hvalue⟩ := Prod.mk.inj hcall
            obtain ⟨hindent, hbefore⟩ := a.handedName_eq_iff.mp hname
            exact ⟨⟨hindent, hbefore, hzero, hvalue ▸ zero_notMem_cstr a.value⟩, hnext.mp hloop⟩
        · rintro ⟨⟨hindent, hbefore, -, hvalue⟩, hlines⟩
          rw [cstr_eq_self hvalue, if_neg a.value_ne_nil, hnext.mpr hlines,
            a.handedName_eq_iff.mpr ⟨hindent, hbefore⟩]
          rfl

theorem newline_notMem_text (l : ConfLine) : 10 ∉ l.text := by
  cases l with
  | comment indent text hindent htext =>
    simp [ConfLine.text, newline_notMem_of_isBlank hindent, htext]
  | blank white hwhite => exact newline_notMem_of_isBlank hwhite
  | assign a =>
    have hname : 10 ∉ a.name := fun h => (a.name_plain 10 h).2 rfl
    have hvalue : 10 ∉ a.value := fun h => by cases a.value_solid 10 h
    simp [ConfLine.text, newline_notMem_of_isBlank a.indent_blank,
      newline_notMem_of_isBlank a.before_blank,
      newline_notMem_of_isBlank a.after_blank, newline_notMem_of_isBlank a.trail_blank, hname,
        hvalue]

theorem splitOn_confFile (hfollows : Follows lines final) :
    (confFile lines final).splitOn 10 = confPieces lines final := by
  refine splitOn_intercalate 10 (fun piece hpiece => ?_) (confPieces_ne_nil.mpr hfollows)
  rcases mem_append.mp hpiece with hline | hlast
  · obtain ⟨l, -, rfl⟩ := List.mem_map.mp hline
    exact newline_notMem_text l
  · cases final with
    | false => cases hlast
    | true =>
      rw [mem_singleton.mp hlast]
      exact not_mem_nil

theorem confText_eq_confLoop {l : ConfLine} (hne : l.text ≠ []) :
    confText 61 (confFile (l :: lines) final) = confLoop 61 [] (confPieces (l :: lines) final) := by
  obtain ⟨c, t, htext⟩ := exists_cons_of_ne_nil hne
  rw [confText, splitOn_confFile (.inl (cons_ne_nil l lines)), confPieces_cons, htext]

theorem confText_eq_iff (hshort : ∀ l ∈ lines, l.text.length < 256) :
    confText 61 (confFile lines final) = some (confAssigns lines, 0) ↔ Readable lines final := by
  cases lines with
  | nil =>
    have hempty : confFile [] final = [] := by cases final <;> rfl
    rw [hempty]
    exact iff_of_true rfl trivial
  | cons l lines =>
    cases l with
    | comment indent text hindent htext =>
      rw [confText_eq_confLoop (by simp [ConfLine.text]), confLoop_eq_iff [] hshort]
      rfl
    | assign a =>
      rw [confText_eq_confLoop a.text_ne_nil, confLoop_eq_iff [] hshort]
      rfl
    | blank white hwhite =>
      cases white with
      | nil =>
        rw [confText, splitOn_confFile (.inl (cons_ne_nil _ lines)), confPieces_cons, ConfLine.text]
        exact ⟨fun h => (Prod.mk.inj (some.inj h)).1.symm, fun h => by rw [h]⟩
      | cons c white =>
        rw [confText_eq_confLoop (l := .blank (c :: white) hwhite) (cons_ne_nil c white),
          confLoop_eq_iff [] hshort]
        rfl

end File

theorem exec_parseConfCalls (k : Kernel) {w : World} {path : Bytes} {p : Path} {text : Bytes}
    (hres : w.tree.resolve (cstr path) = some p) (hfile : readFile w.tree p = some text)
    (delim : UInt8) :
    exec k (parseConfCalls path delim) w = (confText delim text).map fun r => ((r.2, r.1), w) := by
  have hopen : openTree w.tree (cstr path) .rdonly = some (p, w.tree) := by
    simp [openTree, hres, readFile_eq_some.mp hfile]
  unfold parseConfCalls
  rw [exec_openFile_bind, hopen]
  simp only [exec_readAll_bind, hfile]
  cases confText delim text <;> rfl

/-- For every file of comments, blank lines and assignments shorter than the line buffer:
`parse_conf` returns zero and calls back once for each assignment, in order, with its name and
value, exactly when the file is readable. -/
theorem parseConfCalls_iff (k : Kernel) {w : World} {path : Bytes} {p : Path}
    {lines : List ConfLine}
    {final : Bool} (hres : w.tree.resolve (cstr path) = some p)
    (hfile : readFile w.tree p = some (confFile lines final))
    (hshort : ∀ l ∈ lines, l.text.length < 256) :
    exec k (parseConfCalls path 61) w = some ((0, confAssigns lines), w) ↔
    Readable lines final := by
  rw [← confText_eq_iff hshort, exec_parseConfCalls k hres hfile]
  cases confText 61 (confFile lines final) with
  | none => simp
  | some r => simp [Prod.ext_iff, and_comm]

namespace Sample

def assignLine : ConfAssign where
  indent := []
  name := [97]
  before := [32]
  after := [32]
  value := [49]
  trail := []
  indent_blank := by simp
  before_blank := forall_mem_singleton.mpr (by decide)
  after_blank := forall_mem_singleton.mpr (by decide)
  trail_blank := by simp
  name_ne_nil := by decide
  name_plain := forall_mem_singleton.mpr (by decide)
  name_first := fun c h => by obtain rfl := some.inj h; decide
  name_last := fun c h => by obtain rfl := some.inj h; decide
  value_ne_nil := by decide
  value_solid := forall_mem_singleton.mpr (by decide)

def commentLine : ConfLine := .comment [] [99] (by simp) (by decide)

def emptyLine : ConfLine := .blank [] (by simp)

def confWorld (lines : List ConfLine) : World :=
  ⟨0, tree.writeFile (ascii "k" :: base) (confFile lines true)⟩

end Sample

/-- A comment, an empty line and an assignment. -/
theorem parseConfCalls_comment_first : exec Sample.kernel (parseConfCalls (ascii "/r/bkt/k") 61)
        (Sample.confWorld [Sample.commentLine, Sample.emptyLine, .assign Sample.assignLine]) =
      some ((0, [([97], [49])]),
        Sample.confWorld [Sample.commentLine, Sample.emptyLine, .assign Sample.assignLine]) := by
  have hfile : readFile (Sample.confWorld [Sample.commentLine, Sample.emptyLine,
      .assign Sample.assignLine]).tree (ascii "k" :: Sample.base) =
      some (confFile [Sample.commentLine, Sample.emptyLine, .assign Sample.assignLine] true) := rfl
  apply (parseConfCalls_iff Sample.kernel (by decide) hfile (by decide)).mpr
  exact ⟨.inl (by simp),
    ⟨.inl rfl, ⟨⟨rfl, forall_mem_singleton.mpr rfl, by decide, by decide⟩, trivial⟩⟩⟩

/-- An empty line in front: nothing is read, and no error is reported. -/
theorem empty_first_line_hides_assignment :
    exec Sample.kernel (parseConfCalls (ascii "/r/bkt/k") 61)
        (Sample.confWorld [Sample.emptyLine, .assign Sample.assignLine]) =
      some ((0, []), Sample.confWorld [Sample.emptyLine, .assign Sample.assignLine]) ∧
    confAssigns [Sample.emptyLine, .assign Sample.assignLine] ≠ [] := by
  refine ⟨?_, by decide⟩
  rfl

end RadosGateway
