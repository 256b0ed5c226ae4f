import RadosGateway.BucketStat

/-!
# Configuration files

`parse_conf` with any callback, and the files it is meant for: lines that are comments, blank, or
give a name a value. -/

namespace RadosGateway

open Text

/-- `parse_conf(path, obj, delim, cb)`: the return value, and the calls of `cb`. -/
def parseConfCalls (path : Bytes) (delim : UInt8) : Prog (Int × List (Bytes × Bytes)) := do
  match ← openFile (cstr path) .rdonly with
  | none => pure (-1, [])
  | some fd =>
    match ← readAll fd with
    | none => pure (0, [])
    | some text =>
      match confText delim text with
      | none => .undef
      | some (assigns, r) => pure (r, assigns)

def isBlank (c : UInt8) : Bool := isSpace c && c ≠ 10

/-- A line `name = value`, with blanks in all places. -/
structure ConfAssign where
  indent : Bytes
  name : Bytes
  before : Bytes
  after : Bytes
  value : Bytes
  trail : Bytes
  indent_blank : ∀ c ∈ indent, isBlank c = true
  before_blank : ∀ c ∈ before, isBlank c = true
  after_blank : ∀ c ∈ after, isBlank c = true
  trail_blank : ∀ c ∈ trail, isBlank c = true
  name_ne_nil : name ≠ []
  /-- The name has neither an equals sign nor a newline; it is trimmed and does not start a comment.
  -/
  name_plain : ∀ c ∈ name, c ≠ 61 ∧ c ≠ 10
  name_first : ∀ c, name.head? = some c → isSpace c = false ∧ c ≠ 35
  name_last : ∀ c, name.getLast? = some c → isSpace c = false
  value_ne_nil : value ≠ []
  value_solid : ∀ c ∈ value, isSpace c = false

inductive ConfLine where
  | comment (indent text : Bytes) (hindent : ∀ c ∈ indent, isBlank c = true) (htext : 10 ∉ text)
  | blank (white : Bytes) (hwhite : ∀ c ∈ white, isBlank c = true)
  | assign (a : ConfAssign)

namespace ConfLine

/-- The line as it stands in a file, without its newline. -/
def text : ConfLine → Bytes
  | comment indent text _ _ => indent ++ 35 :: text
  | blank white _ => white
  | assign a => a.indent ++ a.name ++ a.before ++ 61 :: (a.after ++ a.value ++ a.trail)

end ConfLine

/-- The pieces between the newlines of a file; a newline at its end leaves an empty one. -/
def confPieces (lines : List ConfLine) (final : Bool) : List Bytes :=
  lines.map ConfLine.text ++ if final then [[]] else []

/-- The file, with or without a newline behind its last line. -/
def confFile (lines : List ConfLine) (final : Bool) : Bytes :=
  [10].intercalate (confPieces lines final)

def confAssigns : List ConfLine → List (Bytes × Bytes)
  | [] => []
  | .comment _ _ _ _ :: lines => confAssigns lines
  | .blank _ _ :: lines => confAssigns lines
  | .assign a :: lines => (a.name, a.value) :: confAssigns lines

end RadosGateway
