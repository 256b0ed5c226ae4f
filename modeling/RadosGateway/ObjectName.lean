import RadosGateway.Base.Bytes

/-!
# Names of objects

`rgw_obj` joins the namespace, the instance and the name of an object: a plain name stands for
itself, with one more underscore if it starts with one, any other follows the namespace and the
instance between two underscores. `parse_raw_oid` takes the string apart again. -/

namespace RadosGateway

open Text

structure RgwObj where
  origObj : Bytes := []
  object : Bytes := []
  ns : Bytes := []
  inst : Bytes := []
  deriving DecidableEq

namespace RgwObj

def encodesInstance (inst : Bytes) : Bool := !inst.isEmpty && inst ≠ ascii "null"

def setObj (o : Bytes) (obj : RgwObj) : RgwObj :=
  let obj := { obj with origObj := o }
  if obj.ns.isEmpty && !encodesInstance obj.inst then
    if o.isEmpty then obj
    else if o.head? ≠ some 95 then { obj with object := o }
    else { obj with object := ascii "_" ++ o }
  else
    { obj with object := ascii "_" ++ obj.ns ++
        (if encodesInstance obj.inst then ascii ":" ++ obj.inst else []) ++ ascii "_" ++ o }

def setNs (n : Bytes) (obj : RgwObj) : Option RgwObj :=
  if n.head? = some 95 then none else some (setObj obj.origObj { obj with ns := n })

def setInstance (i : Bytes) (obj : RgwObj) : Option RgwObj :=
  if i.head? = some 95 then none else some (setObj obj.origObj { obj with inst := i })

/-- `find` of a character, from a position on. -/
def find (c : UInt8) (s : Bytes) (start : Nat) : Option Nat :=
  if c ∈ s.drop start then some (start + (s.drop start).idxOf c) else none

/-- `parse_ns_field`: the namespace and the instance. -/
def parseNsField (ns : Bytes) : Bytes × Bytes :=
  match find 58 ns 0 with
  | some pos => (ns.take pos, ns.drop (pos + 1))
  | none => (ns, [])

structure ParsedName where
  name : Bytes
  inst : Bytes := []
  ns : Bytes := []
  deriving DecidableEq

def parseRawOid (oid : Bytes) : Option ParsedName :=
  if oid.head? ≠ some 95 then some { name := oid }
  else if oid[1]? = some 95 then some { name := oid.drop 1 }
  else if oid.length < 3 then none
  else match find 95 oid 1 with
    | none => none
    | some pos =>
      if pos ≤ 1 then none
      else
        let field := parseNsField ((oid.drop 1).take (pos - 1))
        some { name := oid.drop (pos + 1), inst := field.2, ns := field.1 }

/-- A fresh object that is given a namespace, an instance and a name. -/
def named (ns inst name : Bytes) : Option RgwObj := do
  let obj ← setNs ns {}
  let obj ← setInstance inst obj
  some (setObj name obj)

end RgwObj

end RadosGateway
