import RadosGateway.ObjectName

/-!
# Locators of objects

`rgw_obj` keeps two strings that are made from its parts: the object string and the locator.
`set_obj` does not always make them again: for a plain name it returns before the locator is set,
and for an empty one before anything is. -/

namespace RadosGateway

open Text

structure LocatedObj where
  obj : RgwObj := {}
  loc : Bytes := []
  deriving DecidableEq

namespace LocatedObj

def resetLoc (s : LocatedObj) : LocatedObj :=
  { s with loc := if s.obj.origObj.head? = some 95 ∧ s.obj.ns.isEmpty then s.obj.origObj else [] }

def setObj (o : Bytes) (s : LocatedObj) : LocatedObj :=
  let s' := { s with obj := s.obj.setObj o }
  if s.obj.ns.isEmpty ∧ ¬ RgwObj.encodesInstance s.obj.inst ∧ o.head? ≠ some 95 then s'
    else s'.resetLoc

def setNs (n : Bytes) (s : LocatedObj) : LocatedObj :=
  if n.head? = some 95 then s else setObj s.obj.origObj { s with obj := { s.obj with ns := n } }

def setInstance (i : Bytes) (s : LocatedObj) : LocatedObj :=
  if i.head? = some 95 then s else setObj s.obj.origObj { s with obj := { s.obj with inst := i } }

inductive Call
  | setObj (o : Bytes)
  | setNs (n : Bytes)
  | setInstance (i : Bytes)
  | resetLoc
  deriving DecidableEq

def call (s : LocatedObj) : Call → LocatedObj
  | .setObj o => s.setObj o
  | .setNs n => s.setNs n
  | .setInstance i => s.setInstance i
  | .resetLoc => s.resetLoc

def run (calls : List Call) : LocatedObj := calls.foldl call {}

end LocatedObj

end RadosGateway
