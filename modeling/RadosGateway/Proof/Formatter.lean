import RadosGateway.Base.JsonRules
import RadosGateway.Formatter

/-!
# What the JSON formatter writes

A balanced sequence of calls stands for a value. What the formatter writes for it is read back as
that value exactly when the sequence has no string in it, the names of members need no escaping, and
no section has more than `2 ^ 32` entries: strings are not put out at all, and the comma is left out
when the number of entries has come back to zero. -/

namespace RadosGateway.JsonFormatter

open Text Json List Option

variable {outer : List JsonFormatterStackEntry} {ps : List Bytes} {p : Bytes}

def Dump.length : Dump → Nat
  | .done => 0
  | .leaf _ _ next => next.length + 1
  | .nested _ _ _ _ next => next.length + 1

def Leaf.value : Leaf → Value
  | .unsigned u => .num (u.toNat : Int)
  | .int s => .num s.toInt
  | .string s => .str s
  | .stream s => .str s

def sectionName (name : Bytes) : Option Bytes → Bytes
  | none => name
  | some ns => name ++ ascii " " ++ ns

def sectionValue (isArray : Bool) (members : List (Bytes × Value)) : Value :=
  if isArray then .arr (members.map fun m => m.2) else .obj members

def Dump.members : Dump → List (Bytes × Value)
  | .done => []
  | .leaf name x next => (name, x.value) :: next.members
  | .nested name ns isArray inner next =>
    (sectionName name ns, sectionValue isArray inner.members) :: next.members

section Text

variable (pretty : Bool) (depth : Nat) (isArray : Bool)

def newLine : Bytes :=
  if pretty then ascii "\n" ++ (List.replicate (depth - 1) (ascii "    ")).flatten else []

def gap : Bytes := newLine pretty depth ++ if pretty && isArray then ascii "    " else []

def label (name : Bytes) : Bytes :=
  if isArray then []
  else (if pretty then ascii "    " else []) ++ (ascii "\"" ++ name ++ ascii "\"")
    ++ if pretty then ascii ": " else ascii ":"

def comma (size : Nat) : Bytes := if size ≠ 0 then ascii "," else []

def closing (size : Nat) : Bytes := if size ≠ 0 then newLine pretty depth else []

def openBracket : Bytes := if isArray then ascii "[" else ascii "\x7b"

def closeBracket : Bytes := if isArray then ascii "]" else ascii "\x7d"

def Leaf.text : Leaf → Bytes
  | .unsigned u => decimal u.toNat
  | .int s => decimalInt s.toInt
  | .string _ => []
  | .stream _ => []

def joinFrom : Nat → List Bytes → Bytes
  | _, [] => []
  | k, p :: ps => comma (k % 2 ^ 32) ++ p ++ joinFrom (k + 1) ps

end Text

def Dump.pieces (pretty : Bool) : Nat → Bool → Dump → List Bytes
  | _, _, .done => []
  | depth, isArray, .leaf name x next =>
    (gap pretty depth isArray ++ label pretty isArray name ++ x.text) ::
      next.pieces pretty depth isArray
  | depth, isArray, .nested name ns isArray' inner next =>
    (gap pretty depth isArray ++ label pretty isArray (sectionName name ns) ++
      (openBracket isArray' ++
        joinFrom 0 (inner.pieces pretty (depth + 1) isArray')
          ++ closing pretty (depth + 1) (inner.length % 2 ^ 32) ++ closeBracket isArray')) ::
      next.pieces pretty depth isArray

structure Wrote (f f' : JsonFormatter) (text : Bytes) (stack : List JsonFormatterStackEntry) :
    Prop where
  ss : f'.ss = f.ss ++ text
  stack : f'.stack = stack
  pretty : f'.pretty = f.pretty

theorem Wrote.trans {f f' f'' : JsonFormatter} {text text' : Bytes}
    {stack stack' : List JsonFormatterStackEntry} (h : Wrote f f' text stack)
    (h' : Wrote f' f'' text' stack') : Wrote f f'' (text ++ text') stack' :=
  ⟨by rw [h'.ss, h.ss, append_assoc], h'.stack, h'.pretty.trans h.pretty⟩

section

variable (f : JsonFormatter)
include f

theorem wrote_finishPendingString : Wrote f f.finishPendingString [] f.stack := by
  unfold finishPendingString
  split_ifs
  · exact ⟨(append_nil _).symm, rfl, rfl⟩
  · exact ⟨(append_nil _).symm, rfl, rfl⟩

theorem wrote_put (text : Bytes) : Wrote f (f.put text) text f.stack := ⟨rfl, rfl, rfl⟩

theorem printComma_eq (entry : JsonFormatterStackEntry) :
    f.printComma entry = f.put (comma entry.size ++ gap f.pretty f.stack.length entry.isArray) := by
  obtain ⟨size, isArray⟩ := entry
  unfold printComma comma gap newLine put indent
  cases hpretty : f.pretty <;> cases isArray <;> by_cases hsize :
      size = 0 <;> simp [hpretty, hsize, ascii]
  all_goals rw [← hpretty]

/-- A name is written behind a comma, on a line of its own where the output is pretty. -/
theorem wrote_printName (name : Bytes) {entry : JsonFormatterStackEntry}
    (hstack : f.stack = entry :: outer) :
    Wrote f (f.printName name) (comma entry.size ++
        (gap f.pretty (outer.length + 1) entry.isArray ++ label f.pretty entry.isArray name))
      (⟨(entry.size + 1) % 2 ^ 32, entry.isArray⟩ :: outer) := by
  have hpending := wrote_finishPendingString f
  rw [hstack] at hpending
  obtain ⟨f₁, hf₁⟩ : ∃ f₁, f.finishPendingString = f₁ := ⟨_, rfl⟩
  rw [hf₁] at hpending
  have hss := hpending.ss
  have hpretty := hpending.pretty
  unfold printName
  rw [hf₁]
  dsimp only
  rw [hpending.stack]
  dsimp only
  rw [printComma_eq, hpending.stack, hpretty]
  constructor
  · cases entry.isArray <;> cases h : f.pretty <;> simp [put, label, hss, hpretty, h]
  · rfl
  · cases entry.isArray <;> cases h : f.pretty <;> simp [put, hpretty, h]

theorem wrote_openSection (name : Bytes) (isArray : Bool) {entry : JsonFormatterStackEntry}
    (hstack : f.stack = entry :: outer) : Wrote f (f.openSection name isArray)
      (comma entry.size ++ (gap f.pretty (outer.length + 1) entry.isArray
        ++ label f.pretty entry.isArray name) ++ openBracket isArray)
      (⟨0, isArray⟩ :: ⟨(entry.size + 1) % 2 ^ 32, entry.isArray⟩ :: outer) := by
  have hname := wrote_printName f name hstack
  have hput := hname.trans (wrote_put (f.printName name) (openBracket isArray))
  refine ⟨hput.ss, ?_, hput.pretty⟩
  rw [← hname.stack]
  rfl

/-- A section is closed on its level. -/
theorem wrote_closeSection {entry : JsonFormatterStackEntry} (hstack : f.stack = entry :: outer) :
    ∃ f', f.closeSection = some f' ∧
      Wrote f f' (closing f.pretty (outer.length + 1) entry.size ++
        closeBracket entry.isArray) outer := by
  have hpending := wrote_finishPendingString f
  rw [hstack] at hpending
  unfold closeSection
  rw [hstack]
  refine ⟨_, rfl, ?_⟩
  obtain ⟨f₁, hf₁⟩ : ∃ f₁, f.finishPendingString = f₁ := ⟨_, rfl⟩
  obtain ⟨hss, hstack₁, hpretty⟩ := hpending
  constructor
  · cases h : f.pretty <;> by_cases hsize : entry.size = 0 <;>
      simp [put, closing, newLine, indent, closeBracket, hss, hstack₁, hpretty, h, hsize]
  · rfl
  · cases h : f.pretty <;> by_cases hsize : entry.size = 0 <;> simp [put, hpretty, h, hsize]

/-- A leaf is a member of its section. -/
theorem wrote_leaf (name : Bytes) (x : Leaf) {entry : JsonFormatterStackEntry}
    (hstack : f.stack = entry :: outer) :
    ∃ f', f.call (x.call name) = some f' ∧ Wrote f f'
        (comma entry.size ++ (gap f.pretty (outer.length + 1) entry.isArray
          ++ label f.pretty entry.isArray name) ++ x.text) (⟨(entry.size + 1) % 2 ^ 32,
            entry.isArray⟩ :: outer) := by
  have hname := wrote_printName f name hstack
  have hput (text : Bytes) := hname.trans (wrote_put (f.printName name) text)
  simp only [hname.stack] at hput
  cases x with
  | unsigned u => exact ⟨_, rfl, hput _⟩
  | int s => exact ⟨_, rfl, hput _⟩
  | string s =>
    refine ⟨_, rfl, ?_⟩
    rw [Leaf.text, append_nil]
    exact hname
  | stream s =>
    refine ⟨_, rfl, ?_⟩
    rw [Leaf.text, append_nil]
    exact ⟨hname.ss, hname.stack, hname.pretty⟩

theorem call_opening (name : Bytes) (ns : Option Bytes) (isArray : Bool) :
    f.call (opening name ns isArray) = some (f.openSection (sectionName name ns) isArray) := by
  cases ns <;> cases isArray <;> rfl

end

/-- Calls of one level write its pieces, joined by commas, and leave the levels outside alone. -/
theorem wrote_run (d : Dump) (f : JsonFormatter) (k : Nat) (isArray : Bool)
    (outer : List JsonFormatterStackEntry) (hstack : f.stack = ⟨k % 2 ^ 32, isArray⟩ :: outer) :
    ∃ f', f.run d.calls = some f' ∧
    Wrote f f' (joinFrom k (d.pieces f.pretty (outer.length + 1) isArray))
        (⟨(k + d.length) % 2 ^ 32, isArray⟩ :: outer) := by
  induction d generalizing f k isArray outer with
  | done => exact ⟨f, rfl, (append_nil _).symm, hstack, rfl⟩
  | leaf name x next ih =>
    obtain ⟨f₁, hcall, hwrote⟩ := wrote_leaf f name x hstack
    have hsize : (k % 2 ^ 32 + 1) % 2 ^ 32 = (k + 1) % 2 ^ 32 := Nat.mod_add_mod k (2 ^ 32) 1
    rw [hsize] at hwrote
    obtain ⟨f₂, hrun, hwrote₂⟩ := ih f₁ (k + 1) isArray outer hwrote.stack
    rw [hwrote.pretty] at hwrote₂
    refine ⟨f₂, ?_, ?_⟩
    · rw [run, Dump.calls, foldlM_cons, hcall]
      exact hrun
    · have hboth := hwrote.trans hwrote₂
      rw [add_assoc, add_comm 1] at hboth
      rw [Dump.pieces, joinFrom, Dump.length]
      simpa only [append_assoc] using hboth
  | nested name ns isArray' inner next ihInner ihNext =>
    have hopen := wrote_openSection f (sectionName name ns) isArray' hstack
    have hsize : (k % 2 ^ 32 + 1) % 2 ^ 32 = (k + 1) % 2 ^ 32 := Nat.mod_add_mod k (2 ^ 32) 1
    rw [hsize] at hopen
    obtain ⟨f₁, hf₁⟩ : ∃ f₁, f.openSection (sectionName name ns) isArray' = f₁ := ⟨_, rfl⟩
    rw [hf₁] at hopen
    obtain ⟨f₂, hinner, hwrote₂⟩ := ihInner f₁ 0 isArray' _ hopen.stack
    obtain ⟨f₃, hclose, hwrote₃⟩ := wrote_closeSection f₂ hwrote₂.stack
    obtain ⟨f₄, hnext, hwrote₄⟩ := ihNext f₃ (k + 1) isArray outer hwrote₃.stack
    rw [hwrote₃.pretty, hwrote₂.pretty, hopen.pretty] at hwrote₄
    rw [hwrote₂.pretty, hopen.pretty] at hwrote₃
    rw [hopen.pretty] at hwrote₂
    refine ⟨f₄, ?_, ?_⟩
    · rw [run, Dump.calls, foldlM_cons, call_opening, hf₁]
      change (inner.calls ++ Call.closeSection :: next.calls).foldlM call f₁ = _
      have hinner' : inner.calls.foldlM call f₁ = some f₂ := hinner
      rw [foldlM_append, hinner']
      change (f₂.closeSection).bind _ = _
      rw [hclose]
      exact hnext
    · have hall := ((hopen.trans hwrote₂).trans hwrote₃).trans hwrote₄
      rw [add_assoc, add_comm 1] at hall
      rw [Dump.pieces, joinFrom, Dump.length]
      simpa only [append_assoc, zero_add, length_cons] using hall

def sectionText (pretty isArray : Bool) (inner : Dump) : Bytes :=
  openBracket isArray ++ joinFrom 0 (inner.pieces pretty 1 isArray)
    ++ closing pretty 1 (inner.length % 2 ^ 32) ++ closeBracket isArray

/-- The whole text of one section. -/
theorem write_sectionCalls (pretty : Bool) (name : Bytes) (ns : Option Bytes) (isArray : Bool)
    (inner : Dump) :
    write pretty (sectionCalls name ns isArray inner)
      = some (sectionText pretty isArray inner ++ if pretty then ascii "\n" else []) := by
  obtain ⟨f₁, hf₁⟩ : ∃ f₁, (new pretty).openSection (sectionName name ns) isArray = f₁ := ⟨_, rfl⟩
  have hopen : Wrote (new pretty) f₁ (openBracket isArray) [⟨0, isArray⟩] := by
    rw [← hf₁]
    exact ⟨rfl, rfl, rfl⟩
  obtain ⟨f₂, hinner, hwrote₂⟩ := wrote_run inner f₁ 0 isArray [] hopen.stack
  obtain ⟨f₃, hclose, hwrote₃⟩ := wrote_closeSection f₂ hwrote₂.stack
  rw [hwrote₂.pretty, hopen.pretty] at hwrote₃
  rw [hopen.pretty] at hwrote₂
  have hall := (hopen.trans hwrote₂).trans hwrote₃
  have hflush := hall.trans (wrote_finishPendingString f₃)
  have hrun : (new pretty).run (sectionCalls name ns isArray inner) = some f₃ := by
    rw [run, sectionCalls, foldlM_cons, call_opening, hf₁]
    change (inner.calls ++ [Call.closeSection]).foldlM call f₁ = _
    have hinner' : inner.calls.foldlM call f₁ = some f₂ := hinner
    rw [foldlM_append, hinner']
    change (f₂.closeSection).bind _ = _
    rw [hclose]
    rfl
  rw [write, hrun, map_some, flush]
  rw [hflush.ss, hflush.pretty, append_nil]
  cases pretty <;> simp [new, sectionText]

def Leaf.IsInteger : Leaf → Prop
  | .unsigned _ => True
  | .int _ => True
  | .string _ => False
  | .stream _ => False

def Dump.Readable : Bool → Dump → Prop
  | _, .done => True
  | isArray, .leaf name x next =>
    x.IsInteger ∧ (isArray = false → Plain name) ∧ next.Readable isArray
  | isArray, .nested name ns isArray' inner next =>
    (isArray = false → Plain (sectionName name ns)) ∧
      (inner.length ≤ 2 ^ 32 ∧ inner.Readable isArray') ∧ next.Readable isArray

theorem blank_newLine (pretty : Bool) (depth : Nat) : Blank (newLine pretty depth) := by
  intro c hc
  unfold newLine at hc
  split_ifs at hc
  · rcases mem_append.mp hc with hc | hc
    · rw [show ascii "\n" = [10] from rfl, mem_singleton] at hc
      subst hc
      decide
    · obtain ⟨l, hl, hc⟩ := mem_flatten.mp hc
      rw [eq_of_mem_replicate hl] at hc
      obtain rfl : c = 32 := by simpa [ascii] using hc
      decide
  · cases hc

theorem blank_indent (p : Bool) : Blank (if p then ascii "    " else []) := by
  intro c hc
  cases p
  · cases hc
  · obtain rfl : c = 32 := by simpa [ascii] using hc
    decide

theorem blank_gap (pretty : Bool) (depth : Nat) (isArray : Bool) :
    Blank (gap pretty depth isArray) :=
  blank_append (blank_newLine pretty depth) (blank_indent _)

theorem blank_closing (pretty : Bool) (depth size : Nat) : Blank (closing pretty depth size) := by
  unfold closing
  split_ifs
  · exact blank_newLine pretty depth
  · exact blank_nil

variable {k n : Nat} {name text b : Bytes} {v : Value} {ms : List (Bytes × Value)}

theorem joinFrom_eq_flatMap (hk : 0 < k) (hlength : k + ps.length ≤ 2 ^ 32) :
    joinFrom k ps = ps.flatMap fun p => 44 :: p := by
  induction ps generalizing k with
  | nil => rfl
  | cons p ps ih =>
    rw [length_cons] at hlength
    have hsize : k % 2 ^ 32 ≠ 0 := by
      omega
    rw [joinFrom, ih (by omega) (by omega), comma, if_pos hsize, flatMap_cons]
    rfl

theorem joinFrom_cons (hlength : ps.length + 1 ≤ 2 ^ 32) :
    joinFrom 0 (p :: ps) = p ++ ps.flatMap fun p => 44 :: p := by
  rw [joinFrom, joinFrom_eq_flatMap Nat.one_pos (by omega)]
  rfl

theorem length_pieces (pretty : Bool) (depth : Nat) (isArray : Bool) (d : Dump) :
    (d.pieces pretty depth isArray).length = d.length := by
  induction d with
  | done => rfl
  | leaf name x next ih => rw [Dump.pieces, length_cons, ih, Dump.length]
  | nested name ns isArray' inner next ihInner ihNext =>
    rw [Dump.pieces, length_cons, ihNext, Dump.length]

def ReadsValue (text : Bytes) (v : Value) : Prop :=
  text ≠ [] ∧ ∀ n, text.length ≤ n → ∀ b, Blank b → ReadsPiece (Json.value n) (b ++ text) v

def ReadsMember (isArray : Bool) (p : Bytes) (m : Bytes × Value) : Prop :=
  ∀ n, p.length ≤ n →
    if isArray then ReadsPiece (Json.value n) p m.2 else ReadsPiece (member (Json.value n) n) p m

/-- A member is read if its value is, and its name needs no escape. -/
theorem readsMember_of_value {pretty : Bool} {depth : Nat} {isArray : Bool}
    (hname : isArray = false → Plain name) (htext : ReadsValue text v) :
    ReadsMember isArray (gap pretty depth isArray ++ label pretty isArray name ++ text)
    (name, v) := by
  intro n hn
  have hgap := blank_gap pretty depth isArray
  cases isArray with
  | true =>
    have hlabel : label pretty true name = [] := rfl
    rw [hlabel, append_nil] at hn ⊢
    rw [length_append] at hn
    exact htext.2 n (by omega) _ hgap
  | false =>
    intro t ht
    have hcolon : (if pretty then ascii ": " else ascii ":")
        = 58 :: (if pretty then [32] else [] : Bytes) := by
      cases pretty <;> rfl
    have hblank : Blank (if pretty then [32] else [] : Bytes) := by
      intro c hc
      cases pretty
      · cases hc
      · rw [mem_singleton.mp hc]
        decide
    have hpiece : gap pretty depth false ++ label pretty false name ++ text ++ t
        = (gap pretty depth false ++ if pretty then ascii "    " else []) ++ 34 :: (name ++ 34 ::
            ([] ++ 58 :: ((if pretty then [32] else []) ++ text ++ t))) := by
      rw [label, if_neg (by decide), hcolon]
      simp [ascii]
    have hlength : name.length + text.length < n := by
      simp only [label, Bool.false_eq_true, if_false, length_append] at hn
      have hquote : (ascii "\"").length = 1 := rfl
      omega
    rw [member, hpiece, expect_append (blank_append hgap (blank_indent pretty)) (by decide),
      bind_some, string_append (hname rfl) (by omega), bind_some,
      expect_append blank_nil (by decide), bind_some, htext.2 n (by omega) _ hblank t ht]
    rfl

theorem readsValue_decimalInt (z : Int) : ReadsValue (decimalInt z) (.num z) := by
  refine ⟨decimalInt_ne_nil z, fun n hn b hb t ht => ?_⟩
  have hpos := length_pos_iff.mpr (decimalInt_ne_nil z)
  obtain ⟨n, rfl⟩ : ∃ m, n = m + 1 := ⟨n - 1, by omega⟩
  rw [append_assoc]
  exact value_decimalInt hb ht n

theorem readsValue_leaf {x : Leaf} (hx : x.IsInteger) : ReadsValue x.text x.value := by
  cases x with
  | unsigned u => exact readsValue_decimalInt (u.toNat : Int)
  | int s => exact readsValue_decimalInt s.toInt
  | string s => exact hx.elim
  | stream s => exact hx.elim

theorem length_le_joinFrom (hp : p ∈ ps) (k : Nat) : p.length ≤ (joinFrom k ps).length := by
  induction ps generalizing k with
  | nil => cases hp
  | cons q ps ih =>
    simp only [joinFrom, length_append]
    rcases mem_cons.mp hp with rfl | hp
    · omega
    · have := ih hp (k + 1)
      omega

theorem length_le_joinFrom_zero (hlength : ps.length ≤ 2 ^ 32) :
    ps.length ≤ (joinFrom 0 ps).length + 1 := by
  cases ps with
  | nil => exact Nat.zero_le _
  | cons p ps =>
    have hcommas : ps.length ≤ (ps.flatMap fun p => 44 :: p).length := by
      simp
    rw [joinFrom_cons hlength, length_cons, length_append]
    omega

section Entries

variable {α : Type} {close : UInt8} {entry : Bytes → Option (α × Bytes)}

theorem entries_joinFrom (hblank : Json.isBlank close = false)
    (hnumber : isNumberByte close = false)
    (hcomma : close ≠ 44) (hfirst : ∀ t r, entry t = some r → expect close t = none) {as : List α}
    (hps : List.Forall₂ (ReadsPiece entry) ps as)
    (hlength : ps.length ≤ 2 ^ 32) (hb : Blank b) (hn : ps.length ≤ n) (t : Bytes) :
    entries close entry n (joinFrom 0 ps ++ (b ++ close :: t)) = some (as, t) := by
  cases hps with
  | nil => exact entries_nil hblank hb n t
  | cons hp hps =>
    rw [joinFrom_cons hlength, append_assoc]
    exact entries_flatMap hblank hnumber hcomma hfirst hp hps hb hn t

end Entries

/-- A section is read if all members are. -/
theorem readsValue_section {isArray : Bool}
    (hms : List.Forall₂ (ReadsMember isArray) ps ms) (hlength : ps.length ≤ 2 ^ 32) (hb : Blank b) :
    ReadsValue (openBracket isArray ++ joinFrom 0 ps ++ b ++ closeBracket isArray)
    (sectionValue isArray ms) := by
  have hbrackets : (openBracket isArray).length = 1 ∧ (closeBracket isArray).length = 1 := by
    cases isArray <;> exact ⟨rfl, rfl⟩
  refine ⟨ne_nil_of_length_pos (by simp only [length_append]; omega), fun n hn b' hb' t ht => ?_⟩
  simp only [length_append] at hn
  obtain ⟨n, rfl⟩ : ∃ m, n = m + 1 := ⟨n - 1, by omega⟩
  have hcount := length_le_joinFrom_zero hlength
  have hpieces : ∀ p ∈ ps, p.length ≤ n := by
    intro p hp
    have := length_le_joinFrom hp 0
    omega
  have hreads := (forall₂_and_left ps ms).mpr ⟨hpieces, hms⟩
  cases isArray with
  | true =>
    have hps : List.Forall₂ (ReadsPiece (Json.value n)) ps (ms.map fun m => m.2) := by
      rw [forall₂_map_right_iff]
      exact hreads.imp fun p m h => h.2 n h.1
    have htext : b' ++ (openBracket true ++ joinFrom 0 ps ++ b ++ closeBracket true) ++ t
        = b' ++ 91 :: (joinFrom 0 ps ++ (b ++ 93 :: t)) := by
      simp [openBracket, closeBracket, ascii]
    rw [htext, value_array hb', entries_joinFrom (by decide) (by decide) (by decide)
      (fun t r h => expect_of_value h) hps hlength hb (by omega)]
    rfl
  | false =>
    have hps : List.Forall₂ (ReadsPiece (member (Json.value n) n)) ps ms :=
      hreads.imp fun p m h => h.2 n h.1
    have htext : b' ++ (openBracket false ++ joinFrom 0 ps ++ b ++ closeBracket false) ++ t
        = b' ++ 123 :: (joinFrom 0 ps ++ (b ++ 125 :: t)) := by
      simp [openBracket, closeBracket, ascii]
    rw [htext, value_object hb', entries_joinFrom (by decide) (by decide) (by decide)
      (fun t r h => expect_of_member h) hps hlength hb (by omega)]
    rfl

/-- Readable parts are read, each as its member. -/
theorem readsMember_pieces (pretty : Bool) {d : Dump} {depth : Nat} {isArray : Bool}
    (hd : d.Readable isArray) :
    List.Forall₂ (ReadsMember isArray) (d.pieces pretty depth isArray) d.members := by
  induction d generalizing depth isArray with
  | done => exact List.Forall₂.nil
  | leaf name x next ih =>
    obtain ⟨hx, hname, hnext⟩ := hd
    exact List.Forall₂.cons (readsMember_of_value hname (readsValue_leaf hx)) (ih hnext)
  | nested name ns isArray' inner next ihInner ihNext =>
    obtain ⟨hname, ⟨hlength, hinner⟩, hnext⟩ := hd
    refine List.Forall₂.cons (readsMember_of_value hname ?_) (ihNext hnext)
    apply readsValue_section (ihInner hinner)
    · rw [length_pieces]
      exact hlength
    · exact blank_closing _ _ _

def entryMarks (isArray : Bool) (m : Bytes × Value) : Nat := if isArray then m.2.marks
    else memberMarks m

def need (isArray : Bool) : Nat → List (Bytes × Value) → Nat
  | _, [] => 0
  | k, m :: ms => (if k = 0 then 0 else 1) + entryMarks isArray m + need isArray (k + 1) ms

theorem need_eq (isArray : Bool) (k : Nat) (ms : List (Bytes × Value)) : need isArray k ms
      = (if k = 0 then ms.length - 1 else ms.length) + (ms.map (entryMarks isArray)).sum := by
  induction ms generalizing k with
  | nil =>
    split_ifs <;> rfl
  | cons m ms ih =>
    rw [need, ih, if_neg (Nat.succ_ne_zero k), map_cons, sum_cons, length_cons]
    split_ifs <;> omega

theorem marks_sectionValue (isArray : Bool) (ms : List (Bytes × Value)) :
    (sectionValue isArray ms).marks = need isArray 0 ms := by
  rw [need_eq, if_pos rfl, sectionValue]
  cases isArray with
  | true =>
    rw [if_pos rfl, Value.marks, itemsMarks_eq, List.map_map, length_map]
    rfl
  | false =>
    rw [if_neg (by decide), Value.marks, membersMarks_eq]
    rfl

theorem marks_label (pretty isArray : Bool) (name : Bytes) :
    marks (label pretty isArray name) = if isArray then 0 else 2 + marks name := by
  unfold label
  cases isArray with
  | true => rfl
  | false =>
    have hcolon : marks (if pretty then ascii ": " else ascii ":") = 0 := by cases pretty <;> rfl
    have hquote : marks (ascii "\"") = 1 := rfl
    simp only [Bool.false_eq_true, if_false, marks_append, marks_of_blank (blank_indent pretty),
      hcolon, hquote]
    omega

theorem marks_comma (size : Nat) : marks (comma size) = if size ≠ 0 then 1 else 0 := by
  unfold comma
  split_ifs <;> rfl

theorem marks_piece {pretty : Bool} {depth : Nat} {isArray : Bool} {name text : Bytes} {v : Value}
    (htext : marks text ≤ v.marks) :
    marks (gap pretty depth isArray ++ label pretty isArray name ++ text) ≤
      entryMarks isArray (name, v) ∧
      (entryMarks isArray (name, v) ≤
        marks (gap pretty depth isArray ++ label pretty isArray name ++ text) →
        (isArray = false → Plain name) ∧ v.marks ≤ marks text) := by
  have hname := marks_le_stringMarks name
  rw [marks_append, marks_append, marks_of_blank (blank_gap pretty depth isArray), marks_label,
    entryMarks]
  cases isArray with
  | true =>
    change 0 + 0 + marks text ≤ v.marks ∧ (v.marks ≤ 0 + 0 + marks text → _)
    exact ⟨by omega, fun h => ⟨fun hobject => Bool.noConfusion hobject, by omega⟩⟩
  | false =>
    change 0 + (2 + marks name) + marks text ≤ 2 + stringMarks name + v.marks ∧
      (2 + stringMarks name + v.marks ≤ 0 + (2 + marks name) + marks text → _)
    exact ⟨by omega, fun h => ⟨fun _ => plain_of_stringMarks_le (by omega), by omega⟩⟩

theorem marks_leaf (x : Leaf) : marks x.text ≤ x.value.marks ∧
    (x.value.marks ≤ marks x.text → x.IsInteger) := by
  have hstring (s : Bytes) : 0 < (Value.str s).marks := by
    rw [Value.marks]
    omega
  cases x with
  | unsigned u =>
    have h : marks (decimal u.toNat) = 0 := marks_decimalInt (u.toNat : Int)
    exact ⟨h.le, fun _ => trivial⟩
  | int s => exact ⟨(marks_decimalInt s.toInt).le, fun _ => trivial⟩
  | string s => exact ⟨Nat.zero_le _, fun h => absurd h (Nat.not_le_of_lt (hstring s))⟩
  | stream s => exact ⟨Nat.zero_le _, fun h => absurd h (Nat.not_le_of_lt (hstring s))⟩

theorem marks_section {isArray : Bool} {text b : Bytes} (hb : Blank b) :
    marks (openBracket isArray ++ text ++ b ++ closeBracket isArray) = marks text := by
  have hopen : marks (openBracket isArray) = 0 := by cases isArray <;> rfl
  have hclose : marks (closeBracket isArray) = 0 := by cases isArray <;> rfl
  rw [marks_append, marks_append, marks_append, hopen, hclose, marks_of_blank hb]
  omega

def Counted (k n : Nat) : Prop := ∀ i < n, k + i ≠ 0 → (k + i) % 2 ^ 32 ≠ 0

theorem counted_zero_iff (n : Nat) : Counted 0 n ↔ n ≤ 2 ^ 32 := by
  constructor
  · intro h
    by_contra hn
    exact h (2 ^ 32) (by omega) (by norm_num) (by norm_num)
  · intro hn i hi hne
    rw [Nat.mod_eq_of_lt (by omega)]
    exact hne

theorem marks_comma_le (k : Nat) : marks (comma (k % 2 ^ 32)) ≤ if k = 0 then 0 else 1 := by
  rw [marks_comma]
  split_ifs with hmod hk hk
  · subst hk
    exact absurd rfl hmod
  all_goals omega

theorem Counted.cons (hhere : (if k = 0 then 0 else 1) ≤ marks (comma (k % 2 ^ 32)))
    (hlater : Counted (k + 1) n) : Counted k (n + 1) := by
  intro i hi hne
  rcases Nat.eq_zero_or_pos i with rfl | hpos
  · rw [if_neg (by omega), marks_comma] at hhere
    split_ifs at hhere with hmod
    · exact hmod
    · omega
  · have h := hlater (i - 1) (by omega) (by omega)
    rwa [show k + 1 + (i - 1) = k + i by omega] at h

theorem marks_joinFrom_cons {isArray : Bool} {m : Bytes × Value} {P Q : Prop}
    (hp : marks p ≤ entryMarks isArray m ∧ (entryMarks isArray m ≤ marks p → P))
    (hps : marks (joinFrom (k + 1) ps) ≤ need isArray (k + 1) ms ∧
      (need isArray (k + 1) ms ≤ marks (joinFrom (k + 1) ps) → Q ∧ Counted (k + 1) n)) :
    marks (joinFrom k (p :: ps)) ≤ need isArray k (m :: ms) ∧
      (need isArray k (m :: ms) ≤ marks (joinFrom k (p :: ps)) → (P ∧ Q) ∧ Counted k (n + 1)) := by
  have hcomma := marks_comma_le k
  rw [joinFrom, need, marks_append, marks_append]
  refine ⟨by omega, fun h => ?_⟩
  obtain ⟨hQ, hcounted⟩ := hps.2 (by omega)
  exact ⟨⟨hp.2 (by omega), hQ⟩, hcounted.cons (by omega)⟩

/-- A text has no more marks than its members need, and as many only if every part can be read. -/
theorem marks_joinFrom (pretty : Bool) (d : Dump) (depth : Nat) (isArray : Bool) (k : Nat) :
    marks (joinFrom k (d.pieces pretty depth isArray)) ≤ need isArray k d.members ∧
      (need isArray k d.members ≤ marks (joinFrom k (d.pieces pretty depth isArray)) →
        d.Readable isArray ∧ Counted k d.length) := by
  induction d generalizing depth isArray k with
  | done => exact ⟨Nat.le_refl _, fun _ => ⟨trivial, fun i hi => absurd hi (Nat.not_lt_zero i)⟩⟩
  | leaf name x next ih =>
    obtain ⟨hx, hinteger⟩ := marks_leaf x
    obtain ⟨hpiece, hplain⟩ := @marks_piece pretty depth isArray name _ _ hx
    have hstep := marks_joinFrom_cons ⟨hpiece, hplain⟩ (ih depth isArray (k + 1))
    refine ⟨hstep.1, fun h => ?_⟩
    obtain ⟨⟨⟨hname, hvalue⟩, hnext⟩, hcounted⟩ := hstep.2 h
    exact ⟨⟨hinteger hvalue, hname, hnext⟩, hcounted⟩
  | nested name ns isArray' inner next ihInner ihNext =>
    obtain ⟨hle, hinner⟩ := ihInner (depth + 1) isArray' 0
    have htext := @marks_section isArray' (joinFrom 0 (inner.pieces pretty (depth + 1) isArray')) _
      (blank_closing pretty (depth + 1) (inner.length % 2 ^ 32))
    have hvalue := marks_sectionValue isArray' inner.members
    rw [← htext, ← hvalue] at hle hinner
    obtain ⟨hpiece, hplain⟩ := @marks_piece pretty depth isArray (sectionName name ns) _ _ hle
    have hstep := marks_joinFrom_cons ⟨hpiece, hplain⟩ (ihNext depth isArray (k + 1))
    refine ⟨hstep.1, fun h => ?_⟩
    obtain ⟨⟨⟨hname, hsection⟩, hnext⟩, hcounted⟩ := hstep.2 h
    obtain ⟨hreadable, hinnerCounted⟩ := hinner hsection
    exact ⟨⟨hname, ⟨(counted_zero_iff _).mp hinnerCounted, hreadable⟩, hnext⟩, hcounted⟩

/-- **JSON output.** What the formatter writes for a section is JSON with the section's entries,
names and values exactly when no string is dumped in it, the names of members need no escaping, and
no section has more than `2 ^ 32` entries. -/
theorem write_reads_back_iff (pretty : Bool) (name : Bytes) (ns : Option Bytes) (isArray : Bool)
    (inner : Dump) :
    (write pretty (sectionCalls name ns isArray inner)).bind Json.parse =
      some (sectionValue isArray inner.members) ↔
      inner.length ≤ 2 ^ 32 ∧ inner.Readable isArray := by
  have hblank : Blank (if pretty then ascii "\n" else []) := by
    intro c hc
    cases pretty
    · cases hc
    · rw [mem_singleton.mp hc]
      decide
  have hclosing := blank_closing pretty 1 (inner.length % 2 ^ 32)
  rw [write_sectionCalls, bind_some]
  constructor
  · intro h
    have hmarks := marks_of_parse h
    rw [marks_append, marks_of_blank hblank, marks_sectionValue, sectionText,
      marks_section hclosing] at hmarks
    obtain ⟨hreadable, hcounted⟩ := (marks_joinFrom pretty inner 1 isArray 0).2 hmarks
    exact ⟨(counted_zero_iff _).mp hcounted, hreadable⟩
  · rintro ⟨hlength, hreadable⟩
    have hpieces := @readsMember_pieces pretty inner 1 isArray hreadable
    rw [← length_pieces pretty 1 isArray] at hlength
    have hsection : ReadsValue (sectionText pretty isArray inner)
      (sectionValue isArray inner.members) :=
      readsValue_section hpieces hlength hclosing
    have hends : EndsNumber (if pretty then ascii "\n" else []) := by
      cases pretty
      · exact fun c hc => nomatch hc
      · intro c hc
        cases hc
        decide
    have hskip : skipBlanks (if pretty then ascii "\n" else []) = [] := by
      cases pretty <;> rfl
    have hread := hsection.2
      ((sectionText pretty isArray inner ++ if pretty then ascii "\n" else []).length + 1)
      (by rw [length_append]; omega) [] blank_nil _ hends
    rw [nil_append] at hread
    rw [Json.parse, hread, bind_some, if_pos hskip]

/-- A string with another member behind it makes the text no JSON. -/
theorem parse_write_string (pretty : Bool) (name : Bytes) (ns : Option Bytes) {key : Bytes}
    (hkey : Plain key)
    (s : Bytes) (next : Dump) (hnext : next.length ≠ 0) :
    (write pretty (sectionCalls name ns false (.leaf key (.string s) next))).bind Json.parse =
      none := by
  obtain ⟨p, ps, hpieces⟩ : ∃ p ps, next.pieces pretty 1 false = p :: ps := by
    cases hps : next.pieces pretty 1 false with
    | nil =>
      rw [← length_pieces pretty 1 false, hps] at hnext
      exact absurd rfl hnext
    | cons p ps => exact ⟨p, ps, rfl⟩
  have hblank : Blank (if pretty then [32] else [] : Bytes) := by
    intro c hc
    cases pretty
    · cases hc
    · rw [mem_singleton.mp hc]
      decide
  rw [write_sectionCalls, bind_some]
  obtain ⟨rest, htext⟩ : ∃ rest, (sectionText pretty false (.leaf key (.string s) next)
      ++ if pretty then ascii "\n" else []) =
        123 :: ((gap pretty 1 false ++ if pretty then ascii "    " else [])
        ++ 34 :: (key ++ 34 :: ([] ++ 58 :: ((if pretty then [32] else []) ++ 44 :: rest)))) := by
    rw [sectionText, Dump.pieces, hpieces]
    cases pretty <;> simp [joinFrom, openBracket, label, Leaf.text, comma, ascii, Dump.length]
  obtain ⟨n, hn⟩ : ∃ n, (sectionText pretty false (.leaf key (.string s) next)
      ++ if pretty then ascii "\n" else []).length = n + 1 := ⟨_, by rw [htext, length_cons]⟩
  have hlength : key.length < n + 1 := by
    rw [← hn, htext]
    simp only [length_cons, length_append]
    omega
  have hgap := blank_append (blank_gap pretty 1 false) (blank_indent pretty)
  rw [Json.parse, hn, htext, ← nil_append (123 :: _), value_object blank_nil, entries,
    expect_append_of_ne hgap (by decide) (by decide)]
  rw [member, expect_append hgap (by decide), bind_some, string_append hkey hlength,
    bind_some, expect_append blank_nil (by decide), bind_some, value_comma hblank]
  rfl

/-- A member with a string value is written without its value. -/
theorem string_not_written :
    write false (sectionCalls [] none false (.leaf (ascii "a") (.string (ascii "b")) .done))
        = some (ascii "\x7b\"a\":\x7d") ∧
      (write false (sectionCalls [] none false
        (.leaf (ascii "a") (.string (ascii "b")) .done))).bind
        Json.parse = none :=
  ⟨rfl, rfl⟩

end RadosGateway.JsonFormatter
