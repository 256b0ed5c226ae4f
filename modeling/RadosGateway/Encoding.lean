import RadosGateway.Base.Codec

/-!
# The encoding of structures

A structure is written between `ENCODE_START` and `ENCODE_FINISH`: its version, the oldest version
that can read it, and the length of its body, which is filled in at the end through a saved
iterator. A reader skips what it does not know of the body. -/

namespace RadosGateway.Encoding

open Text Codec

def encodeU8 (v : UInt8) : Bytes := [v]

def decodeU8 : Decoder UInt8 := (fun n => n.toUInt8) <$> decodeLe 1

def encodeU16 (v : UInt16) : Bytes := le 2 v.toNat

def decodeU16 : Decoder UInt16 := (fun n => n.toUInt16) <$> decodeLe 2

def encodeU32 (v : UInt32) : Bytes := le 4 v.toNat

def decodeU32 : Decoder UInt32 := (fun n => n.toUInt32) <$> decodeLe 4

def encodeU64 (v : UInt64) : Bytes := le 8 v.toNat

def decodeU64 : Decoder UInt64 := (fun n => n.toUInt64) <$> decodeLe 8

def encodeBool (v : Bool) : Bytes := [if v then 1 else 0]

def decodeBool : Decoder Bool := (fun v => v ≠ 0) <$> decodeU8

/-- The length of a string is cut to a `__u32`, and so is the string. -/
def encodeString (s : Bytes) : Bytes := le 4 s.length ++ s.take (s.length % 2 ^ 32)

def decodeString : Decoder Bytes := do
  let len ← decodeU32
  copy len.toNat

def copyIn (bl : Bytes) (off : Nat) (src : Bytes) : Bytes :=
  bl.take off ++ src ++ bl.drop (off + src.length)

/-- `ENCODE_START`, the body, `ENCODE_FINISH_NEW_COMPAT`, on the end of a buffer. `ENCODE_FINISH`
has no new version to put in, which is written as zero. -/
def encodeStruct (structV structCompat : UInt8) (body : Bytes → Bytes) (newStructCompat : UInt8)
    (bl : Bytes) : Bytes :=
  let bl := bl ++ encodeU8 structV ++ encodeU8 structCompat
  let structCompatIt := bl.length - 1
  let bl := bl ++ le 4 0
  let structLenIt := bl.length - 4
  let bl := body bl
  let bl := copyIn bl structLenIt (le 4 (bl.length - structLenIt - 4))
  if newStructCompat ≠ 0 then copyIn bl structCompatIt (encodeU8 newStructCompat) else bl

/-- `advance`: forward up to the end, or back to the beginning. -/
def advance (o : Int) : Decoder Unit := fun it =>
  if 0 ≤ o then (copy o.toNat it).map fun r => ((), r.2)
  else if o.natAbs ≤ it.off then
    let n := it.off - o.natAbs
    some ((), ⟨it.before.take n, it.before.drop n ++ it.rest⟩)
  else none

/-- An `unsigned` where an `int` is wanted. -/
def toInt32 (n : Nat) : Int := (BitVec.ofNat 32 n).toInt

def getOff : Decoder Nat := fun it => some (it.off, it)

def getRemaining : Decoder Nat := fun it => some (it.remaining, it)

def decodeFinish (structEnd : Nat) : Decoder Unit := do
  let off ← getOff
  if structEnd = 0 then pure ()
  else if structEnd < off then fail
  else if off < structEnd then advance (toInt32 (structEnd - off))
  else pure ()

def decodeLength : Decoder Nat := do
  let structLen ← decodeU32
  let remaining ← getRemaining
  if remaining < structLen.toNat then fail
  else do
    let off ← getOff
    pure ((off + structLen.toNat) % 2 ^ 32)

/-- `DECODE_START`, the fields, given the version they were written with, `DECODE_FINISH`. -/
def decodeStruct {α : Type} (v : Nat) (fields : UInt8 → Decoder α) : Decoder α := do
  let structV ← decodeU8
  let structCompat ← decodeU8
  if v < structCompat.toNat then fail
  else do
    let structEnd ← decodeLength
    let a ← fields structV
    decodeFinish structEnd
    pure a

/-- `__DECODE_START_LEGACY_COMPAT_LEN`: the oldest encodings have no compatible version or no
length. -/
def decodeStructLegacy {α : Type} (v compatv lenv skipV : Nat) (fields : UInt8 → Decoder α) :
    Decoder α := do
  let structV ← decodeU8
  let _ ← if compatv ≤ structV.toNat then do
      let structCompat ← decodeU8
      if v < structCompat.toNat then fail else pure ()
    else if skipV ≠ 0 then do
      let remaining ← getRemaining
      if toInt32 remaining < skipV then fail else advance skipV
    else pure ()
  let structEnd ← if lenv ≤ structV.toNat then decodeLength else pure 0
  let a ← fields structV
  decodeFinish structEnd
  pure a

end RadosGateway.Encoding
