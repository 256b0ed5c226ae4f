import RadosGateway.Quota

/-!
# Accepted names

The checks `RGWHandler_ObjStore_S3::init` makes on the bucket and the object of a request. A bucket
name has a small alphabet, at least up to its first zero byte; an object name only has to be UTF-8
and at most 1024 bytes long.
-/

namespace RadosGateway

open Text

namespace Err

def invalidBucketName : Int := 2000
def invalidObjectName : Int := 2001

end Err

/-- `high_bits_set`: the number of leading ones of a byte. -/
def highBitsSet (c : UInt8) : Nat :=
  ((List.range 8).takeWhile fun i => c.toNat.testBit (7 - i)).length

def maxVal : List Nat := [0x7f, 0x7ff, 0xffff, 0x1fffff, 0x3ffffff, 0x7fffffff]

/-- The last `n` bytes of the encoding of `u`. -/
def continuationBytes : Nat → Nat → Bytes
  | 0, _ => []
  | n + 1, u => continuationBytes n (u / 64) ++ [UInt8.ofNat (0x80 ||| u % 64)]

def encodeUtf8 (u : Nat) : Option Bytes :=
  match maxVal.findIdx? (u ≤ ·) with
  | none => none
  | some 0 => some [UInt8.ofNat u]
  | some i => some (UInt8.ofNat (255 - 0xff >>> (i + 1) ||| u / 64 ^ i) :: continuationBytes i u)

/-- `decode_utf8`; none for `INVALID_UTF8_CHAR`. -/
def decodeUtf8 : Bytes → Option Nat
  | [] => none
  | [c] => if 0x80 ≤ c then none else some c.toNat
  | c :: cs =>
    if highBitsSet c ≠ cs.length + 1 then none
    else if cs.any (fun d => d &&& 0xc0 ≠ 0x80) then none
    else
      let code := cs.foldl (fun code d => code * 64 + d.toNat % 64)
        (c.toNat &&& 0xff >>> highBitsSet c)
      if code = 0xfffe ∨ code = 0xffff ∨ (0xd800 ≤ code ∧ code ≤ 0xdfff) then none else some code

/-- A collected sequence decodes and encodes back to itself. -/
def validSequence (enc : Bytes) : Bool := enc = [] || (decodeUtf8 enc).bind encodeUtf8 = some enc

/-- The loop of `check_utf8` at index `i`, with the bytes of the current character in `enc`. -/
def checkUtf8Loop (i : Nat) (enc : Bytes) : Bytes → Nat
  | [] => if validSequence enc then 0 else i + 1
  | c :: cs =>
    if c < 0x80 ∨ c &&& 0xc0 ≠ 0x80 then
      if !validSequence enc then i + 1
      else checkUtf8Loop (i + 1) (if 0x80 ≤ c then [c] else []) cs
    else if enc.length = 6 then i + 1
    else checkUtf8Loop (i + 1) (enc ++ [c]) cs

def checkUtf8 (s : Bytes) : Nat := checkUtf8Loop 0 [] s

def validateObjectName (object : Bytes) : Int :=
  if 1024 < object.length then -Err.invalidObjectName
  else if checkUtf8 object ≠ 0 then -Err.invalidObjectName
  else 0

def ipLoop (periods : Nat) (expectPeriod : Bool) : Bytes → Bool
  | [] => periods = 3
  | c :: cs =>
    if c = 46 then
      if !expectPeriod || 3 ≤ periods then false else ipLoop (periods + 1) false cs
    else if isDigit c then ipLoop periods true cs
    else false

def looksLikeIpAddress (bucket : Bytes) : Bool := ipLoop 0 false (cstr bucket)

def isBucketChar (c : UInt8) : Bool := isDigit c || c = 46 || isAlpha c || c = 45 || c = 95

def validateBucketLength (bucket : Bytes) : Int :=
  if bucket.length < 3 then if bucket.length = 0 then 0 else -Err.invalidBucketName
  else if 255 < bucket.length then -Err.invalidBucketName
  else 0

def validateBucketName (bucket : Bytes) (relaxedNames : Bool) : Int :=
  if validateBucketLength bucket < 0 then validateBucketLength bucket
  else match bucket with
    | [] => 0
    | c :: _ =>
      if !(isAlpha c || isDigit c) && !(relaxedNames && (c = 95 || c = 46 || c = 45)) then
        -Err.invalidBucketName
      else if !(cstr bucket).all isBucketChar then -Err.invalidBucketName
      else if looksLikeIpAddress bucket then -Err.invalidBucketName
      else 0

end RadosGateway
