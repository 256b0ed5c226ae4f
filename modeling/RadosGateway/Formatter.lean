import RadosGateway.Base.Bytes

/-!
# Writing JSON

`JSONFormatter` writes a text call by call. It keeps the open sections with the number of entries
each has had, which is an `int`, and the string that a caller streams, which is put out at the next
call. The body of `print_quoted_string` is compiled out. -/

namespace RadosGateway

open Text

structure JsonFormatterStackEntry where
  size : Nat
  isArray : Bool
  deriving DecidableEq

/-- The innermost section comes first in `stack`. -/
structure JsonFormatter where
  pretty : Bool
  ss : Bytes
  pendingString : Bytes
  isPendingString : Bool
  stack : List JsonFormatterStackEntry
  deriving DecidableEq

namespace JsonFormatter

def new (pretty : Bool) : JsonFormatter := ⟨pretty, [], [], false, []⟩

def put (text : Bytes) (f : JsonFormatter) : JsonFormatter := { f with ss := f.ss ++ text }

def indent (f : JsonFormatter) : Bytes :=
  (List.replicate (f.stack.length - 1) (ascii "    ")).flatten

def printComma (entry : JsonFormatterStackEntry) (f : JsonFormatter) : JsonFormatter :=
  let f :=
    if entry.size ≠ 0 then
      if f.pretty then f.put (ascii ",\n" ++ f.indent) else f.put (ascii ",")
    else if f.pretty then f.put (ascii "\n" ++ f.indent)
    else f
  if f.pretty && entry.isArray then f.put (ascii "    ") else f

/-- `#if 0` … `#endif`. -/
def printQuotedString (_ : Bytes) (f : JsonFormatter) : JsonFormatter := f

def finishPendingString (f : JsonFormatter) : JsonFormatter :=
  if f.isPendingString then
    { f.printQuotedString f.pendingString with
      pendingString := [],
      isPendingString := false }
  else f

def printName (name : Bytes) (f : JsonFormatter) : JsonFormatter :=
  let f := f.finishPendingString
  match f.stack with
  | [] => f
  | entry :: outer =>
    let f := f.printComma entry
    let f :=
      if entry.isArray then f
      else
        let f := if f.pretty then f.put (ascii "    ") else f
        let f := f.put (ascii "\"" ++ name ++ ascii "\"")
        if f.pretty then f.put (ascii ": ") else f.put (ascii ":")
    { f with stack := { entry with size := (entry.size + 1) % 2 ^ 32 } :: outer }

def openSection (name : Bytes) (isArray : Bool) (f : JsonFormatter) : JsonFormatter :=
  let f := f.printName name
  let f := f.put (if isArray then ascii "[" else ascii "\x7b")
  { f with stack := ⟨0, isArray⟩ :: f.stack }

/-- `none` where the assertion that a section is open fails. -/
def closeSection (f : JsonFormatter) : Option JsonFormatter :=
  match f.stack with
  | [] => none
  | entry :: outer =>
    let f := f.finishPendingString
    let f := if f.pretty && entry.size ≠ 0 then f.put (ascii "\n" ++ f.indent) else f
    let f := f.put (if entry.isArray then ascii "]" else ascii "\x7d")
    some { f with stack := outer }

def dumpUnsigned (name : Bytes) (u : UInt64) (f : JsonFormatter) : JsonFormatter :=
  (f.printName name).put (decimal u.toNat)

def dumpInt (name : Bytes) (s : Int64) (f : JsonFormatter) : JsonFormatter :=
  (f.printName name).put (decimalInt s.toInt)

def dumpString (name s : Bytes) (f : JsonFormatter) : JsonFormatter :=
  (f.printName name).printQuotedString s

/-- `dump_stream`, and what the caller puts into the stream it returns. -/
def dumpStream (name s : Bytes) (f : JsonFormatter) : JsonFormatter :=
  let f := f.printName name
  { f with
    isPendingString := true,
    pendingString := f.pendingString ++ s }

def flush (f : JsonFormatter) : Bytes × JsonFormatter :=
  let f := f.finishPendingString
  (f.ss ++ if f.pretty then ascii "\n" else [], { f with ss := [] })

inductive Call
  | openArraySection (name : Bytes)
  | openArraySectionInNs (name ns : Bytes)
  | openObjectSection (name : Bytes)
  | openObjectSectionInNs (name ns : Bytes)
  | closeSection
  | dumpUnsigned (name : Bytes) (u : UInt64)
  | dumpInt (name : Bytes) (s : Int64)
  | dumpString (name s : Bytes)
  | dumpStream (name s : Bytes)

def call (f : JsonFormatter) : Call → Option JsonFormatter
  | .openArraySection name => some (f.openSection name true)
  | .openArraySectionInNs name ns => some (f.openSection (name ++ ascii " " ++ ns) true)
  | .openObjectSection name => some (f.openSection name false)
  | .openObjectSectionInNs name ns => some (f.openSection (name ++ ascii " " ++ ns) false)
  | .closeSection => f.closeSection
  | .dumpUnsigned name u => some (f.dumpUnsigned name u)
  | .dumpInt name s => some (f.dumpInt name s)
  | .dumpString name s => some (f.dumpString name s)
  | .dumpStream name s => some (f.dumpStream name s)

def run (f : JsonFormatter) (calls : List Call) : Option JsonFormatter := calls.foldlM call f

def write (pretty : Bool) (calls : List Call) : Option Bytes :=
  ((new pretty).run calls).map fun f => f.flush.1

inductive Leaf
  | unsigned (u : UInt64)
  | int (s : Int64)
  | string (s : Bytes)
  | stream (s : Bytes)

/-- The calls inside a section, in order. A section may be opened in a namespace. -/
inductive Dump
  | done
  | leaf (name : Bytes) (x : Leaf) (next : Dump)
  | nested (name : Bytes) (ns : Option Bytes) (isArray : Bool) (inner next : Dump)

def Leaf.call (name : Bytes) : Leaf → Call
  | .unsigned u => .dumpUnsigned name u
  | .int s => .dumpInt name s
  | .string s => .dumpString name s
  | .stream s => .dumpStream name s

def opening (name : Bytes) : Option Bytes → Bool → Call
  | none, true => .openArraySection name
  | some ns, true => .openArraySectionInNs name ns
  | none, false => .openObjectSection name
  | some ns, false => .openObjectSectionInNs name ns

def Dump.calls : Dump → List Call
  | .done => []
  | .leaf name x next => x.call name :: next.calls
  | .nested name ns isArray inner next =>
    opening name ns isArray :: (inner.calls ++ .closeSection :: next.calls)

/-- The calls of a section that is not inside another one. -/
def sectionCalls (name : Bytes) (ns : Option Bytes) (isArray : Bool) (inner : Dump) : List Call :=
  opening name ns isArray :: (inner.calls ++ [.closeSection])

end JsonFormatter

end RadosGateway
