import RadosGateway.Names
import RadosGateway.StringToSign

/-!
# URL coding

`url_encode` writes every byte that is not plain as `%` and two hex digits. `url_decode` looks the
digits up in a table, with the character as index; a `char` is signed, so that bytes from 0x80 on
are negative indices. `parse_copy_location` takes apart the encoded source of a copy. -/

namespace RadosGateway

open Text

def signedChar (c : UInt8) : Int := if c < 128 then c.toNat else (c.toNat : Int) - 256

/-- The entries of `HexTable`; `none` for those that stay -1. -/
def hexTable (i : Fin 256) : Option UInt8 := hexToNum (UInt8.ofNat i)

/-- `to_num`, if the index is one of the table. -/
def toNum (c : UInt8) : Option (Option UInt8) :=
  if h : 0 ≤ signedChar c ∧ signedChar c < 256 then
    some (hexTable ⟨(signedChar c).toNat, by omega⟩)
  else none

/-- How `url_decode` ends: with true and what was decoded, with false, or with a read outside of the
table. -/
inductive Decoding
  | decoded (dest : Bytes)
  | refused
  | outside
  deriving DecidableEq

namespace Decoding

def map (f : Bytes → Bytes) : Decoding → Decoding
  | decoded dest => decoded (f dest)
  | refused => refused
  | outside => outside

end Decoding

def decodeLoop (inQuery : Bool) : Bytes → Decoding
  | [] => .decoded []
  | c :: src =>
    if c = 37 then
      match src with
      | [] => .decoded []
      | [a] => if (toNum a).isNone then .outside else .decoded []
      | a :: b :: src =>
        match toNum a with
        | none => .outside
        | some none => .refused
        | some (some high) =>
          match toNum b with
          | none => .outside
          | some none => .refused
          | some (some low) => (decodeLoop inQuery src).map ((high <<< 4 ||| low) :: ·)
    else if !inQuery || c ≠ 43 then (decodeLoop (inQuery || c = 63) src).map (c :: ·)
    else (decodeLoop inQuery src).map (32 :: ·)

/-- `url_decode`, with the accesses to the table. -/
def urlDecodeChecked (src : Bytes) (inQuery : Bool) : Decoding :=
  (decodeLoop inQuery (cstr src)).map cstr

/-- The characters that are listed in `char_needs_url_encoding`. -/
def reservedChars : List UInt8 :=
  [0x22, 0x23, 0x25, 0x26, 0x2B, 0x2C, 0x2F, 0x3A, 0x3B, 0x3C, 0x3E, 0x3D, 0x3F, 0x40, 0x5B, 0x5D,
    0x5C, 0x5E, 0x60,
    0x7B, 0x7D]

def charNeedsUrlEncoding (c : UInt8) : Bool :=
  signedChar c ≤ 0x20 || 0x7f ≤ signedChar c || reservedChars.contains c

def upperHexDigit (d : UInt8) : UInt8 := if d < 10 then 48 + d else 55 + d

/-- `escape_char` prints with `%%%.2X`. -/
def escapeChar (c : UInt8) : Bytes := [37, upperHexDigit (c >>> 4), upperHexDigit (c &&& 15)]

def urlEncode (src : Bytes) : Bytes := src.flatMap fun c => if charNeedsUrlEncoding c then
  escapeChar c else [c]

structure CopySource where
  bucketName : Bytes
  name : Bytes
  inst : Bytes
  deriving DecidableEq

/-- `RGWCopyObj::parse_copy_location`, for a key without an instance. -/
def parseCopyLocation (urlSrc : Bytes) : Option CopySource :=
  let nameStr := urlSrc.takeWhile (· ≠ 63)
  let paramsStr := (urlSrc.dropWhile (· ≠ 63)).drop 1
  let decSrc := (urlDecode nameStr false).getD []
  let str := if decSrc.head? = some 47 then decSrc.tail else decSrc
  let bucketName := str.takeWhile (· ≠ 47)
  let name := (str.dropWhile (· ≠ 47)).drop 1
  if bucketName.isEmpty || !str.contains 47 || name.isEmpty then none
  else
    some
      { bucketName := bucketName,
        name := name,
        inst := if paramsStr.isEmpty then []
          else HttpArgs.get (ascii "versionId") (HttpArgs.parse paramsStr) }

end RadosGateway
