import RadosGateway.UrlCoding

/-!
# Bytes as text

Three ways to write bytes in printable characters: hexadecimal digits, base64 with optional line
breaks (`ceph_armor`), and quoted-printable for attributes that are no valid UTF-8. A destination is
what was written to it, or its bytes where `snprintf` prints into it. -/

namespace RadosGateway.Armor

open Text

def lowerHexDigit (d : UInt8) : UInt8 := if d < 10 then 48 + d else 87 + d

/-- The loop of `buf_to_hex`: `none` when the index `i*2` leaves an `int`. -/
def bufToHexFrom (i : Nat) : Bytes → Option Bytes
  | [] => some []
  | c :: buf =>
    if 2 ^ 31 ≤ i * 2 then none
    else (bufToHexFrom (i + 1) buf).map ([lowerHexDigit (c >>> 4), lowerHexDigit (c &&& 15)] ++ ·)

def bufToHex (buf : Bytes) : Option Bytes := bufToHexFrom 0 buf

def toUpper (c : UInt8) : UInt8 := if 97 ≤ c ∧ c ≤ 122 then c - 32 else c

def hexdigit (c : UInt8) : Option UInt8 :=
  if 48 ≤ c ∧ c ≤ 57 then some (c - 48)
  else if 65 ≤ toUpper c ∧ toUpper c ≤ 70 then some (toUpper c - 65 + 10)
  else none

/-- The loop of `hex_to_buf`, with what it has written to `buf`. -/
def hexToBufFrom (len : Int) : Bytes → Bytes → Int × Bytes
  | [], buf => (buf.length, buf)
  | [c], buf =>
    if len ≤ buf.length then (-22, buf)
    else match hexdigit c with
      | none => (-22, buf ++ [0])
      | some d => (-22, buf ++ [d <<< 4])
  | c :: c' :: p, buf =>
    if len ≤ buf.length then (-22, buf)
    else match hexdigit c with
      | none => (-22, buf ++ [0])
      | some d =>
        match hexdigit c' with
        -- the error of the second digit is returned with its sign turned
        | none => (22, buf ++ [d <<< 4])
        | some d' => hexToBufFrom len p (buf ++ [d <<< 4 + d'])

def hexToBuf (hex : Bytes) (len : Int) : Int × Bytes := hexToBufFrom len (cstr hex) []

def pemKey : Bytes := ascii "ABCDEFGHIJKLMNOPQRSTUVWXYZabcdefghijklmnopqrstuvwxyz0123456789+/"

def encodeBits (c : UInt8) : UInt8 := pemKey.getD c.toNat 0

def decodeBits (c : UInt8) : Option UInt8 :=
  if 65 ≤ c ∧ c ≤ 90 then some (c - 65)
  else if 97 ≤ c ∧ c ≤ 122 then some (c - 97 + 26)
  else if 48 ≤ c ∧ c ≤ 57 then some (c - 48 + 52)
  else if c = 43 ∨ c = 45 then some 62
  else if c = 47 ∨ c = 95 then some 63
  else if c = 61 then some 0
  else none

/-- `SET_DST` of some characters in turn: the function returns -ERANGE at the end of the
destination. -/
def setDst {β : Type} (answer : Int × Bytes → β) (room : Nat) : Bytes → Bytes → (Bytes → β) → β
  | [], dst, next => next dst
  | c :: cs, dst, next => if dst.length < room then setDst answer room cs (dst ++ [c]) next
    else answer (-34, dst)

/-- The end of a turn of `ceph_armor_line_break`. -/
def breakLine (room lineWidth olen line : Nat) (dst : Bytes)
    (next : Nat → Nat → Bytes → Int × Bytes) : Int × Bytes :=
  if lineWidth ≠ 0 ∧ line + 4 = lineWidth then setDst id room [10] dst (next (olen + 5) 0)
  else next (olen + 4) (line + 4) dst

def armorFrom (room lineWidth : Nat) : Bytes → Nat → Nat → Bytes → Int × Bytes
  | [], olen, _, dst => (olen, dst)
  | [a], olen, line, dst =>
    setDst id room [encodeBits (a >>> 2), encodeBits ((a &&& 3) <<< 4), 61, 61] dst fun dst =>
      breakLine room lineWidth olen line dst fun olen _ dst => (olen, dst)
  | [a, b], olen, line, dst =>
    setDst id room [encodeBits (a >>> 2), encodeBits ((a &&& 3) <<< 4 ||| b >>> 4),
      encodeBits ((b &&& 15) <<< 2), 61]
      dst fun dst => breakLine room lineWidth olen line dst fun olen _ dst => (olen, dst)
  | a :: b :: c :: src, olen, line, dst =>
    setDst id room [encodeBits (a >>> 2), encodeBits ((a &&& 3) <<< 4 ||| b >>> 4),
      encodeBits ((b &&& 15) <<< 2 ||| c >>> 6), encodeBits (c &&& 63)] dst fun dst =>
      breakLine room lineWidth olen line dst fun olen line dst =>
        armorFrom room lineWidth src olen line dst

def cephArmorLineBreak (room : Nat) (src : Bytes) (lineWidth : Nat) : Int × Bytes :=
  armorFrom room lineWidth src 0 0 []

def cephArmor (room : Nat) (src : Bytes) : Int × Bytes := cephArmorLineBreak room src 0

/-- The loop of `ceph_unarmor`: `none` if a byte behind the end is read. -/
def unarmorFrom (room : Nat) (src : Bytes) (olen : Nat) (dst : Bytes) : Option (Int × Bytes) :=
  match src with
  | [] => some (olen, dst)
  | s :: rest =>
    if s = 10 then unarmorFrom room rest olen dst
    else if rest.length < 3 then some (-22, dst)
    else match rest[0]?, rest[1]?, rest[2]? with
      | some s₁, some s₂, some s₃ =>
        match decodeBits s, decodeBits s₁, decodeBits s₂, decodeBits s₃ with
        | some a, some b, some c, some d =>
          setDst some room [a <<< 2 ||| b >>> 4] dst fun dst =>
            if s₂ = 61 then some (olen + 1, dst)
            else setDst some room [(b &&& 15) <<< 4 ||| c >>> 2] dst fun dst =>
              if s₃ = 61 then some (olen + 2, dst)
              else setDst some room [(c &&& 3) <<< 6 ||| d] dst fun dst =>
                unarmorFrom room (rest.drop 3) (olen + 3) dst
        | _, _, _, _ => some (-22, dst)
      | _, _, _ => none
termination_by src.length
decreasing_by all_goals simp

def cephUnarmor (room : Nat) (src : Bytes) : Option (Int × Bytes) := unarmorFrom room src 0 []

/-- `encode_base64`, with the destination it allocates; `unsigned` products wrap. -/
def encodeBase64 (bl : Bytes) : Bytes := (cephArmor (bl.length * 4 % 2 ^ 32 / 3 + 3) bl).2

/-- `decode_base64`; `none` if it throws. -/
def decodeBase64 (e : Bytes) : Option Bytes :=
  (cephUnarmor (4 + e.length * 3 % 2 ^ 32 / 4) e).bind fun r => if r.1 < 0 then none else some r.2

/-- `snprintf(o, n, ..)`, on the bytes from `o` on. -/
def snprintf (n : Nat) (text rest : Bytes) : Bytes :=
  if n = 0 then rest else text.take (n - 1) ++ 0 :: rest.drop ((text.take (n - 1)).length + 1)

/-- Prints at `o` if there is room, and moves on; otherwise `outlen` is 0 from now on. -/
def printAt (text : Bytes) (ret : Int) (outlen : Nat) (rest : Bytes)
    (next : Int → Nat → Bytes → Int × Bytes) :
    Int × Bytes :=
  if text.length ≤ outlen then
    let out := snprintf outlen text rest
    let r := next (toI32 (ret + text.length)) (outlen - text.length) (out.drop text.length)
    (r.1, out.take text.length ++ r.2)
  else next (toI32 (ret + text.length)) 0 rest

def isControlCharacter (c : UInt8) : Bool := (c ≠ 0 && c < 0x20) || c = 0x7f

def qpText (c : UInt8) : Bytes :=
  if c &&& 0x80 ≠ 0 ∨ c = 61 ∨ isControlCharacter c then
    [61, upperHexDigit (c >>> 4), upperHexDigit (c &&& 15)]
  else [c]

/-- The loop of `mime_encode_as_qp`: the result, and the bytes from `o` on. -/
def qpEncodeFrom : Bytes → Int → Nat → Bytes → Int × Bytes
  | [], ret, _, rest => (ret, rest)
  | c :: i, ret, outlen, rest => printAt (qpText c) ret outlen rest (qpEncodeFrom i)

def mimeEncodeAsQp (input output : Bytes) (outlen : Nat) : Int × Bytes :=
  qpEncodeFrom (cstr input) 1 outlen output

/-- `hexchar_to_int` lists the same characters as the table of `url_decode`. -/
def hexcharToInt (c : UInt8) : Option UInt8 := hexToNum c

def qpDecodeFrom : Bytes → Int → Nat → Bytes → Int × Bytes
  | [], ret, _, rest => (ret, rest)
  | c :: i, ret, outlen, rest =>
    if c &&& 0x80 ≠ 0 then (-33, rest)
    else if c = 61 then
      match i with
      | h :: l :: i =>
        match hexcharToInt h, hexcharToInt l with
        | some high, some low => printAt [high <<< 4 + low] ret outlen rest (qpDecodeFrom i)
        | _, _ => (-22, rest)
      | _ => (-22, rest)
    else printAt [c] ret outlen rest (qpDecodeFrom i)

def mimeDecodeFromQp (input output : Bytes) (outlen : Nat) : Int × Bytes :=
  qpDecodeFrom (cstr input) 1 outlen output

end RadosGateway.Armor
