import RadosGateway.GetObj

/-!
# Preparing a read

`RGWRados::Object::Read::prepare`: whether the conditions of a request let the object be read, and
which of its bytes are meant. The size of an object is a `uint64_t`, offsets are `off_t`s. -/

namespace RadosGateway

open Text

namespace Err

def enoent : Int := 2
def enodata : Int := 61
def preconditionFailed : Int := 2015
def notModified : Int := 2016

end Err

def rgwStringUnquote (s : Bytes) : Bytes :=
  if s.head? ≠ some 34 ∨ s.length < 2 then s
  else
    let blanks := (s.drop 2).reverse.takeWhile (· = 32)
    let quoted := s.take (s.length - blanks.length)
    if quoted.getLast? ≠ some 34 then s else quoted.tail.dropLast

structure ObjState where
  present : Bool
  size : Nat
  mtime : Int
  etag : Option Bytes

structure ReadConds where
  mod : Option Int := none
  unmod : Option Int := none
  ifMatch : Option Bytes := none
  ifNoMatch : Option Bytes := none

def ReadConds.check (conds : ReadConds) (astate : ObjState) : Except Int Unit :=
  if conds.mod.any (astate.mtime < ·) then .error (-Err.notModified)
  else if conds.unmod.any (· < astate.mtime) then .error (-Err.preconditionFailed)
  else if conds.ifMatch.isNone && conds.ifNoMatch.isNone then .ok ()
  else
    match astate.etag with
    | none => .error (-Err.enodata)
    | some etag =>
      if conds.ifMatch.any (rgwStringUnquote · ≠ cstr etag) then .error (-Err.preconditionFailed)
      else if conds.ifNoMatch.any (rgwStringUnquote · = cstr etag) then .error (-Err.notModified)
      else .ok ()

/-- The last steps of `prepare`. Sums with the size are taken modulo `2 ^ 64`. -/
def resolveRange (size : Nat) (ofs stop : Int) : Except Int (Int × Int) :=
  let last := toI64 (size - 1)
  let (ofs, stop) := if ofs < 0 then (max 0 (toI64 (ofs + size)), last)
    else (ofs, if stop < 0 then last else stop)
  if 0 < size then
    if toI64 size ≤ ofs then .error (-Err.erange)
    else .ok (ofs, if toI64 size ≤ stop then last else stop)
  else .ok (ofs, stop)

def Read.prepare (conds : ReadConds) (astate : ObjState) (ofs stop : Int) :
    Except Int (Int × Int) :=
  if !astate.present then .error (-Err.enoent)
  else
    match conds.check astate with
    | .error r => .error r
    | .ok () => resolveRange astate.size ofs stop

end RadosGateway
