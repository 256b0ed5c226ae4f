import RadosGateway.DeleteObj
import RadosGateway.Names
import RadosGateway.Store

/-!
# The command line of a removal

The path of an object is printed into `rm %s -rf` as it is. The line means what it should exactly
for plain paths: short enough for the buffer, and made of bytes that the shell takes for themselves.
-/

namespace RadosGateway

open Text Posix List Option

variable {path : Bytes} {s : Bytes} {c : UInt8}

/-- The line of a removal fits its buffer and is `rm` with the path as its one operand, whatever a
pattern could match; and running it loses no file but the one named. -/
structure RemovesOne (path : Bytes) (t : FileTree) : Prop where
  fits : (rmLine (cstr path)).length < scmdSize
  operand : ∀ glob, ∃ args,
    Shell.argv glob (rmLine (cstr path)) = some (ascii "rm" :: args) ∧ Shell.operands args = [path]
  frame : ∀ (k : Kernel) (uid : Nat), ∃ t', exec k (monCommandRm (cstr path)) ⟨uid, t⟩ =
    some (0, ⟨uid, t'⟩) ∧
    ∀ q bytes, t.node q = some (.file bytes) → t.resolve path ≠ some q →
      t'.node q = some (.file bytes)

def isOperand (path : Bytes) : Bool := Shell.isPlain path && !Shell.isOption path && 0 ∉ path

def NothingBelow (t : FileTree) (path : Bytes) : Prop :=
  endsInDots path = false → ∀ p q bytes, t.resolve path = some p → p ≠ [] → p <:+ q →
    t.node q = some (.file bytes) → q = p

theorem rmLine_eq (path : Bytes) :
    rmLine path = [114, 109] ++ (32 :: (path ++ (32 :: [45, 114, 102]))) := by
  have h1 : ascii "rm " = [114, 109, 32] := by decide
  have h2 : ascii " -rf" = [32, 45, 114, 102] := by decide
  simp [rmLine, h1, h2]

theorem length_rmLine (path : Bytes) : (rmLine path).length = path.length + 7 := by
  simp [rmLine_eq]

theorem lex_rmLine (path : Bytes) : Shell.lex .bare none (rmLine path) =
      (Shell.lex .bare none (path ++ (32 :: [45, 114, 102]))).map (Shell.literal [114,
        109] :: ·) := by
  rfl

section

variable (h : ∀ d ∈ c :: s, Shell.isOrdinary d = true) (hhash : c ≠ 35) (htilde : c ≠ 126)
include h hhash htilde

theorem lex_rmLine_of_word : Shell.lex .bare none (rmLine (c :: s)) =
      some [Shell.literal [114, 109], Shell.literal (c :: s), Shell.literal [45, 114, 102]] := by
  have hrf : Shell.lex .bare none [45, 114, 102] = some [Shell.literal [45, 114, 102]] := by decide
  rw [lex_rmLine, Shell.lex_word h hhash htilde, Shell.lex_blank, hrf]
  rfl

theorem argv_rmLine_of_word (glob : Bytes → List Bytes) : Shell.argv glob (rmLine (c :: s)) =
      some (ascii "rm" :: (Shell.expand glob (Shell.literal (c :: s)) ++ [ascii "-rf"])) := by
  have hrm : ascii "rm" = [114, 109] := by decide
  have hrf : ascii "-rf" = [45, 114, 102] := by decide
  rw [Shell.argv, lex_rmLine_of_word h hhash htilde, hrm, hrf]
  rfl

end

theorem operands_of_not_isOption (h : Shell.isOption path = false) :
    Shell.operands [path, ascii "-rf"] = [path] := by
  have hdashes : path ≠ [45, 45] := by
    rintro rfl
    exact absurd h (by decide)
  have hrf : Shell.operands [ascii "-rf"] = [] := by decide
  rw [Shell.operands, if_neg hdashes, h, hrf]
  rfl

theorem operands_of_isOption (h : Shell.isOption path = true) :
    Shell.operands [path, ascii "-rf"] ≠ [path] := by
  by_cases hdashes : path = [45, 45]
  · rw [hdashes]
    decide
  · have hrf : Shell.operands [ascii "-rf"] = [] := by decide
    rw [Shell.operands, if_neg hdashes, h, hrf]
    simp

/-- A path that the shell leaves alone is removed. -/
theorem runLine_rmLine (h : isOperand path = true) (k : Kernel) (t : FileTree) :
    runLine k (rmLine path) t = ([], rmTree t path) := by
  simp only [isOperand, Bool.and_eq_true, Bool.not_eq_true'] at h
  obtain ⟨⟨hplain, hoption⟩, -⟩ := h
  obtain ⟨c, s, rfl, hall, hhash, htilde⟩ := Shell.cons_of_isPlain hplain
  have hpattern : Shell.isPattern (Shell.literal (c :: s)) = false := by
    simp only [Shell.isPlain, Bool.and_eq_true, Bool.not_eq_true'] at hplain
    exact hplain.2
  have hrm : [114, 109] = ascii "rm" := by decide
  have hrf : [45, 114, 102] = ascii "-rf" := by decide
  have hrmPattern : Shell.isPattern (Shell.literal (ascii "rm")) = false := by decide
  have hrfPattern : Shell.isPattern (Shell.literal (ascii "-rf")) = false := by decide
  have hrfOption : Shell.isOption (ascii "-rf") = true := by decide
  rw [runLine, lex_rmLine_of_word hall hhash htilde, hrm, hrf]
  simp only [any_cons, any_nil, hpattern, hrmPattern, hrfPattern, Bool.or_false,
    Bool.false_eq_true, if_false, map_cons, map_nil, Shell.bytes_literal, runCommand,
    filter_cons, filter_nil, hoption, hrfOption, if_true, and_self,
    operands_of_not_isOption hoption, foldl_cons, foldl_nil, getD_some]

theorem exec_monCommandRm (hfits : (rmLine path).length < scmdSize)
    (h : isOperand path = true) (k : Kernel) (w : World) :
    exec k (monCommandRm path) w = some (0, { w with tree := rmTree w.tree path }) := by
  rw [monCommandRm, if_neg (Nat.not_le.mpr hfits), exec_popen_bind, runLine_rmLine h]
  rfl

/-- `rm -rf` keeps all other files exactly if there is nothing below the path. -/
theorem rmTree_keeps_iff (t : FileTree) (path : Bytes) :
    (∀ q bytes, t.node q = some (.file bytes) → t.resolve path ≠ some q →
      (rmTree t path).node q = some (.file bytes)) ↔ NothingBelow t path := by
  constructor
  · intro h hdots p q bytes hres hroot hpq hq
    by_contra hne
    have hother : t.resolve path ≠ some q := by
      rw [hres]
      exact fun heq => hne (some.inj heq).symm
    have hkept := h q bytes hq hother
    simp [rmTree, hdots, hres, FileTree.node_removeTree, hpq, hroot] at hkept
  · intro h q bytes hq hother
    unfold rmTree
    split_ifs with hdots
    · exact hq
    · cases hres : t.resolve path with
      | none => exact hq
      | some p =>
        have hkept : ¬ (p ≠ [] ∧ p <:+ q) := by
          rintro ⟨hroot, hpq⟩
          have heq := h (by simpa using hdots) p q bytes hres hroot hpq hq
          rw [hres, heq] at hother
          exact hother rfl
        simp only [FileTree.node_removeTree, if_neg hkept, hq]

theorem marks_rmLine (path : Bytes) : Shell.marks (rmLine path) = Shell.marks path := by
  have hfront : Shell.marks [114, 109] = 0 := by decide
  have hback : Shell.marks (32 :: [45, 114, 102]) = 0 := by decide
  have hblank : Shell.isMark 32 = false := by decide
  rw [rmLine_eq, Shell.marks_append, hfront, Shell.marks_cons, Shell.marks_append, hback, hblank]
  simp

/-- A word that the shell leaves alone does not begin with a comment or a home directory. -/
theorem head_of_mem_lex_rmLine {ws : List Shell.Word} {w : Shell.Word}
    (h : Shell.lex .bare none (rmLine (c :: s)) = some ws) (hw : w ∈ ws)
    (hbytes : w.bytes = c :: s) :
    c ≠ 35 ∧ c ≠ 126 := by
  rw [lex_rmLine] at h
  obtain ⟨ws', hws', rfl⟩ := map_eq_some_iff.mp h
  constructor
  · rintro rfl
    have hnil : ws' = [] := by
      have hblank : Shell.isBlank 35 = false := by decide
      simp only [cons_append, Shell.lex, hblank, Bool.false_eq_true, if_false, and_self,
        if_true] at hws'
      split_ifs at hws' with h39 h34 h92 hnl
      · exact absurd h39 (by decide)
      · exact absurd h34 (by decide)
      · exact absurd h92 (by decide)
      · exact (some.inj hws').symm
    rw [hnil, mem_singleton] at hw
    rw [hw, Shell.bytes_literal] at hbytes
    exact absurd (List.cons.inj hbytes).1 (by decide)
  · rintro rfl
    have hblank : Shell.isBlank 126 = false := by decide
    simp only [cons_append, Shell.lex, hblank, Bool.false_eq_true, if_false, and_self, or_true,
      if_true] at hws'
    split_ifs at hws' with h39 h34 h92 h35
    · exact absurd h39 (by decide)
    · exact absurd h34 (by decide)
    · exact absurd h92 (by decide)
    · exact absurd h35.1 (by decide)

/-- The path is the one operand of the line only if the shell leaves it alone. -/
theorem isOperand_of_operand (h : ∀ glob, ∃ args, Shell.argv glob (rmLine (cstr path)) =
    some (ascii "rm" :: args) ∧
      Shell.operands args = [path]) : isOperand path = true := by
  obtain ⟨args, hargv, hoperands⟩ := h fun _ => []
  obtain ⟨ws, hws, hflat⟩ := map_eq_some_iff.mp hargv
  -- in an empty directory the words of the line are its arguments, so the path is one of them
  have hexpand : Shell.expand (fun _ => []) = fun w => [w.bytes] := by
    funext w
    simp [Shell.expand]
  have hwords : ws.map Shell.Word.bytes = ascii "rm" :: args := by
    rw [← hflat, hexpand, map_eq_flatMap]
  have hmem : path ∈ ws.map Shell.Word.bytes := by
    rw [hwords]
    exact mem_cons_of_mem _ (Shell.mem_of_mem_operands (by rw [hoperands]; simp))
  obtain ⟨w, hw, hbytes⟩ := List.mem_map.mp hmem
  have hmarks : Shell.marks (rmLine (cstr path)) ≤ Shell.marks w.bytes := by
    rw [marks_rmLine, hbytes]
    exact (takeWhile_sublist _).countP_le
  obtain ⟨hne, hordinary⟩ := Shell.ordinary_of_mem_lex hws hw hmarks
  rw [hbytes] at hne hordinary
  have hzero : 0 ∉ path := by
    intro h0
    have hline := (hordinary 0 h0).2
    rw [rmLine_eq] at hline
    simp [zero_notMem_cstr] at hline
  rw [cstr_eq_self hzero] at hws h
  obtain ⟨c, s, rfl⟩ := exists_cons_of_ne_nil hne
  obtain ⟨hhash, htilde⟩ := head_of_mem_lex_rmLine hws hw hbytes
  have hall : ∀ d ∈ c :: s, Shell.isOrdinary d = true := fun d hd => (hordinary d hd).1
  -- a pattern may match two names
  have hpattern : Shell.isPattern (Shell.literal (c :: s)) = false := by
    by_contra hpat
    rw [Bool.not_eq_false] at hpat
    obtain ⟨args, hargv, hoperands⟩ := h fun _ => [[], []]
    rw [argv_rmLine_of_word hall hhash htilde] at hargv
    obtain rfl := (List.cons.inj (some.inj hargv)).2
    have hlen := congrArg List.length hoperands
    simp [Shell.expand, hpat, Shell.operands, Shell.isOption] at hlen
  have hoption : Shell.isOption (c :: s) = false := by
    by_contra hopt
    rw [Bool.not_eq_false] at hopt
    obtain ⟨args, hargv, hoperands⟩ := h fun _ => []
    rw [argv_rmLine_of_word hall hhash htilde, hexpand] at hargv
    obtain rfl := (List.cons.inj (some.inj hargv)).2
    have hrest : Shell.operands ([(Shell.literal (c :: s)).bytes] ++ [ascii "-rf"]) = [c :: s] :=
      hoperands
    rw [Shell.bytes_literal] at hrest
    exact operands_of_isOption hopt hrest
  have hplain : Shell.isPlain (c :: s) = true := by
    simp only [Shell.isPlain, Bool.and_eq_true, List.all_eq_true, hpattern, head?_cons,
      any_some, decide_eq_true_eq, Bool.not_false, and_true]
    exact ⟨hall, hhash, htilde⟩
  simp only [isOperand, hplain, hoption, Bool.not_false, Bool.and_self, Bool.true_and]
  exact decide_eq_true hzero

/-- A removal touches one file exactly when the path fits the buffer, is an operand as it stands,
and names no directory with files in it. -/
theorem removesOne_iff (G : Global) (bucket object : Bytes) (t : FileTree) :
    RemovesOne (G.objectPath bucket object) t ↔ (G.objectPath bucket object).length + 7 < scmdSize ∧
        isOperand (G.objectPath bucket object) = true ∧
        NothingBelow t (G.objectPath bucket object) := by
  generalize G.objectPath bucket object = path
  have hnul : isOperand path = true → cstr path = path := by
    intro h
    simp only [isOperand, Bool.and_eq_true, decide_eq_true_eq] at h
    exact cstr_eq_self h.2
  constructor
  · intro h
    have hoperand := isOperand_of_operand h.operand
    have hcstr := hnul hoperand
    have hfits := h.fits
    rw [hcstr] at hfits
    refine ⟨by rwa [length_rmLine] at hfits, hoperand, ?_⟩
    rw [← rmTree_keeps_iff]
    obtain ⟨t', hexec, hkeeps⟩ := h.frame Sample.kernel 0
    rw [hcstr, exec_monCommandRm hfits hoperand] at hexec
    obtain rfl : rmTree t path = t' := by simpa using hexec
    exact hkeeps
  · rintro ⟨hfits, hoperand, hbelow⟩
    have hcstr := hnul hoperand
    rw [← length_rmLine] at hfits
    refine ⟨by rwa [hcstr], ?_, ?_⟩
    · intro glob
      rw [hcstr]
      simp only [isOperand, Bool.and_eq_true, Bool.not_eq_true'] at hoperand
      obtain ⟨⟨hplain, hoption⟩, -⟩ := hoperand
      refine ⟨[path, ascii "-rf"], ?_, operands_of_not_isOption hoption⟩
      have hexpand := Shell.expand_of_isPlain hplain glob
      obtain ⟨c, s, rfl, hall, hhash, htilde⟩ := Shell.cons_of_isPlain hplain
      rw [argv_rmLine_of_word hall hhash htilde, hexpand]
      rfl
    · intro k uid
      rw [hcstr, exec_monCommandRm hfits hoperand]
      exact ⟨rmTree t path, rfl, (rmTree_keeps_iff t path).mpr hbelow⟩

/-- The name `a b` is accepted, and removing it removes the object `a`. -/
theorem not_removesOne_blank : validateObjectName (ascii "a b") = 0 ∧
      ¬ RemovesOne (Sample.G.objectPath Sample.bucket (ascii "a b"))
        (Sample.tree.writeFile (ascii "a" :: Sample.base) (ascii "x")) := by
  refine ⟨by decide, ?_⟩
  intro h
  obtain ⟨t', hexec, hkeeps⟩ := h.frame Sample.kernel 0
  have hlost : t'.node (ascii "a" :: Sample.base) = none := by
    have hrun :
        (exec Sample.kernel (monCommandRm (cstr (Sample.G.objectPath Sample.bucket (ascii "a b"))))
        ⟨0, Sample.tree.writeFile (ascii "a" :: Sample.base) (ascii "x")⟩).map
          (fun r => r.2.tree.node (ascii "a" :: Sample.base)) = some none := by decide
    rw [hexec] at hrun
    simpa using hrun
  have hkept := hkeeps (ascii "a" :: Sample.base) (ascii "x") (by decide) (by decide)
  rw [hlost] at hkept
  exact absurd hkept (by decide)

end RadosGateway
