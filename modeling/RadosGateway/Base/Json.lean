import Mathlib.Algebra.Order.Field.Rat
import RadosGateway.Base.Bytes

/-!
# JSON texts

A parser for JSON texts: the six kinds of values, all escapes, numbers with fraction and exponent.
Strings are byte strings, and bytes of `0x80` and above are taken as they are. The recursion is on a
number of steps, of which the length of the text is always enough. -/

namespace Json

open Text

inductive Value
  | null
  | bool (b : Bool)
  | num (q : ℚ)
  | str (s : Bytes)
  | arr (items : List Value)
  | obj (members : List (Bytes × Value))

def isBlank (c : UInt8) : Bool := c = 32 || c = 9 || c = 10 || c = 13

def skipBlanks (t : Bytes) : Bytes := t.dropWhile isBlank

def expect (c : UInt8) (t : Bytes) : Option Bytes :=
  match skipBlanks t with
  | [] => none
  | c' :: t => if c' = c then some t else none

def utf8 (n : Nat) : Bytes :=
  if n < 0x80 then [n.toUInt8]
  else if n < 0x800 then [(0xc0 + n / 0x40).toUInt8, (0x80 + n % 0x40).toUInt8]
  else if n < 0x10000 then
    [(0xe0 + n / 0x1000).toUInt8, (0x80 + n / 0x40 % 0x40).toUInt8, (0x80 + n % 0x40).toUInt8]
  else
    [(0xf0 + n / 0x40000 % 8).toUInt8, (0x80 + n / 0x1000 % 0x40).toUInt8,
      (0x80 + n / 0x40 % 0x40).toUInt8, (0x80 + n % 0x40).toUInt8]

def hexDigit (c : UInt8) : Option Nat :=
  if isDigit c then some (c.toNat - 48)
  else if 97 ≤ c && c ≤ 102 then some (c.toNat - 87)
  else if 65 ≤ c && c ≤ 70 then some (c.toNat - 55)
  else none

def codeUnit (t : Bytes) : Option (Nat × Bytes) :=
  if 4 ≤ t.length then
    ((t.take 4).mapM hexDigit).map fun ds => (ds.foldl (fun n d => 16 * n + d) 0, t.drop 4)
  else none

def codePoint (t : Bytes) : Option (Bytes × Bytes) := do
  let (hi, t) ← codeUnit t
  if hi < 0xd800 ∨ 0xe000 ≤ hi then some (utf8 hi, t)
  else if hi < 0xdc00 ∧ t.take 2 = [92, 117] then do
    let (lo, t) ← codeUnit (t.drop 2)
    if 0xdc00 ≤ lo ∧ lo < 0xe000 then
      some (utf8 (0x10000 + (hi - 0xd800) * 0x400 + (lo - 0xdc00)), t)
    else none
  else none

def escaped (c : UInt8) : Option UInt8 :=
  if c = 34 ∨ c = 92 ∨ c = 47 then some c
  else if c = 98 then some 8
  else if c = 102 then some 12
  else if c = 110 then some 10
  else if c = 114 then some 13
  else if c = 116 then some 9
  else none

def unescape : Bytes → Option (Bytes × Bytes)
  | [] => none
  | c :: t => if c = 117 then codePoint t else (escaped c).map fun b => ([b], t)

def string : Nat → Bytes → Option (Bytes × Bytes)
  | 0, _ => none
  | _ + 1, [] => none
  | n + 1, c :: t =>
    if c = 34 then some ([], t)
    else if c = 92 then
      (unescape t).bind fun r => (string n r.2).map fun s => (r.1 ++ s.1, s.2)
    else if c < 32 then none
    else (string n t).map fun s => (c :: s.1, s.2)

def isNumberByte (c : UInt8) : Bool := isDigit c || c = 45 || c = 43 || c = 46 || c = 101 || c = 69

def digits (t : Bytes) : Option (Bytes × Bytes) :=
  if t.takeWhile isDigit = [] then none else some (t.takeWhile isDigit, t.dropWhile isDigit)

def intPart (t : Bytes) : Option (ℚ × Bytes) :=
  (digits t).bind fun r =>
    if r.1.head? = some 48 ∧ r.1 ≠ [48] then none else some ((digitsValue r.1 : ℚ), r.2)

def fracPart (t : Bytes) : Option (ℚ × Bytes) :=
  if t.head? = some 46 then
    (digits t.tail).map fun r => ((digitsValue r.1 : ℚ) / 10 ^ r.1.length, r.2)
  else some (0, t)

def expPart (t : Bytes) : Option (ℚ × Bytes) :=
  if t.head? = some 101 ∨ t.head? = some 69 then
    if t.tail.head? = some 45 then
      (digits t.tail.tail).map fun r => (1 / 10 ^ digitsValue r.1, r.2)
    else
      (digits (if t.tail.head? = some 43 then t.tail.tail else t.tail)).map fun r =>
        (10 ^ digitsValue r.1, r.2)
  else some (1, t)

def unsignedValue (t : Bytes) : Option ℚ := do
  let (i, t) ← intPart t
  let (f, t) ← fracPart t
  let (e, t) ← expPart t
  if t = [] then some ((i + f) * e) else none

def numberValue (t : Bytes) : Option ℚ :=
  if t.head? = some 45 then (unsignedValue t.tail).map fun q => -q else unsignedValue t

def number (t : Bytes) : Option (Value × Bytes) :=
  (numberValue (t.takeWhile isNumberByte)).map fun q => (.num q, t.dropWhile isNumberByte)

def scalar (t : Bytes) : Option (Value × Bytes) :=
  if t.take 4 = ascii "true" then some (.bool true, t.drop 4)
  else if t.take 5 = ascii "false" then some (.bool false, t.drop 5)
  else if t.take 4 = ascii "null" then some (.null, t.drop 4)
  else number t

section Lists

variable {α : Type} (close : UInt8) (entry : Bytes → Option (α × Bytes))

def moreEntries : Nat → Bytes → Option (List α × Bytes)
  | 0, _ => none
  | n + 1, t =>
    match expect 44 t with
    | some t => (entry t).bind fun r => (moreEntries n r.2).map fun s => (r.1 :: s.1, s.2)
    | none => (expect close t).map fun t => ([], t)

def entries (n : Nat) (t : Bytes) : Option (List α × Bytes) :=
  match expect close t with
  | some t => some ([], t)
  | none => (entry t).bind fun r => (moreEntries close entry n r.2).map fun s => (r.1 :: s.1, s.2)

end Lists

def member (item : Bytes → Option (Value × Bytes)) (n : Nat) (t : Bytes) :
    Option ((Bytes × Value) × Bytes) :=
  (expect 34 t).bind fun t => (string n t).bind fun k => (expect 58 k.2).bind fun t =>
    (item t).map fun r => ((k.1, r.1), r.2)

def value : Nat → Bytes → Option (Value × Bytes)
  | 0, _ => none
  | n + 1, t =>
    match skipBlanks t with
    | [] => none
    | c :: t =>
      if c = 34 then (string n t).map fun r => (.str r.1, r.2)
      else if c = 91 then (entries 93 (value n) n t).map fun r => (.arr r.1, r.2)
      else if c = 123 then (entries 125 (member (value n) n) n t).map fun r => (.obj r.1, r.2)
      else scalar (c :: t)

def parse (t : Bytes) : Option Value :=
  (value (t.length + 1) t).bind fun r => if skipBlanks r.2 = [] then some r.1 else none

end Json
