import RadosGateway.Quota

/-!
# Downloading an object

`RGWGetObj::execute` with `send_response_data` of the S3 store. The response is the status,
`Content-Range` and `Content-Length`, and the bytes behind the headers. The entity tag is left out;
the shell line that computes it is not.
-/

namespace RadosGateway

open Text

structure GetRequest where
  bucket : Bytes
  object : Bytes
  range : Option Bytes := none
  timesParse : Bool := true
  getData : Bool := true

inductive Response where
  | error (ret : Int)
  | ok (status : Int) (contentRange : Option Bytes) (contentLength : Nat) (body : Bytes)
  deriving DecidableEq

structure ByteRange where
  ofs : Int := 0
  stop : Int := -1
  partialContent : Bool := false
  deriving DecidableEq

/-- The part of `s` behind the first occurrence of `pat`. -/
def afterFirst (pat : Bytes) : Bytes → Option Bytes
  | [] => if pat = [] then some [] else none
  | c :: s => if pat.isPrefixOf (c :: s) then some ((c :: s).drop pat.length) else afterFirst pat s

def toLower (c : UInt8) : UInt8 := if 65 ≤ c ∧ c ≤ 90 then c + 32 else c

def strncasecmpEq (a b : Bytes) (n : Nat) : Bool :=
  ((cstr a ++ [0]).take n).map toLower = ((cstr b ++ [0]).take n).map toLower

/-- The range set behind the unit `bytes`; none if the header has another unit. -/
def rangeSet (s : Bytes) : Option Bytes :=
  match afterFirst (ascii "bytes=") s with
  | some rest => some rest
  | none =>
    let unit := (s.dropWhile isSpace).takeWhile isAlpha
    let rest := (s.dropWhile isSpace).dropWhile isAlpha
    if !strncasecmpEq s (ascii "bytes") unit.length then none
    else match rest.dropWhile isSpace with
      | 61 :: set => some set
      | _ => none

/-- `parse_range`, started with the whole object. -/
def parseRange (range : Bytes) : Except Int ByteRange :=
  match rangeSet (cstr range) with
  | none => .ok {}
  | some set =>
    match set.dropWhile (· ≠ 45) with
    | [] => .error (-Err.erange)
    | _ :: endStr =>
      let ofsStr := set.takeWhile (· ≠ 45)
      let stop := if endStr = [] then -1 else atoll endStr
      if endStr ≠ [] ∧ stop < 0 then .error (-Err.erange)
      else
        let r : ByteRange :=
          if ofsStr = [] then { ofs := -stop, stop := -1, partialContent := true }
          else { ofs := atoll ofsStr, stop := stop, partialContent := true }
        if 0 ≤ r.stop ∧ r.stop < r.ofs then .error (-Err.erange) else .ok r

/-- The room `pread_fd` and `read_fd` make for `len` bytes: rounded up to pages, in 32 bits. -/
def bufferSize (len : Nat) : Nat :=
  (if len % 4096 = 0 then len else len + 4096 - len % 4096) % 2 ^ 32

/-- `pread_fd` of `len` bytes; none if the read fails. -/
def preadBuffer (fd : Fd) (len : Nat) (offset : Int) : Prog (Option Bytes) :=
  if len = 0 then pure (some [])
  else if offset < 0 then pure none
  else do
    match ← preadFd fd offset.toNat len with
    | none => pure none
    | some data => if bufferSize len < data.length then .undef else pure (some data)

/-- The loop that sends the object: the bytes sent until it stops. A read that comes back short ends
it and is not sent. Without progress the loop would not end. -/
def sendLoop (G : Global) (fd : Fd) (ofs : Int) : Nat → Int → Nat → Bytes → Prog Bytes
  | 0, _, _, _ => .undef
  | fuel + 1, left, pos, sent =>
    if left ≤ 0 then pure sent
    else do
      let len := min G.rgwMaxChunkSize left.toNat
      match ← preadBuffer fd len (ofs + pos) with
      | none => pure sent
      | some data =>
        if data.length ≠ len then pure sent
        else sendLoop G fd ofs fuel (left - G.rgwMaxChunkSize) (pos + len) (sent ++ data)

def md5Line (path : Bytes) : Bytes := ascii "md5sum " ++ path

/-- The size of `md5_buf`, and of the buffer `shell_execute` reads the output into. -/
def md5BufSize : Nat := 512

/-- `shell_execute`: the output is taken for a string, so it has to leave room for its end. -/
def shellExecute (line : Bytes) : Prog Bytes := do
  let out ← popen line
  if md5BufSize ≤ out.length ∧ 0 ∉ out.take md5BufSize then .undef else pure (cstr out)

/-- `dump_range`, without the name of the header. -/
def contentRange (start stop : Int) (total : Nat) : Bytes :=
  ascii "bytes " ++ decimalInt start ++ 45 :: decimalInt stop ++ 47 :: decimalInt total

def statusPartialContent : Int := 1903

def GetRequest.path (G : Global) (req : GetRequest) : Bytes :=
  cstr (G.objectPath req.bucket req.object)

/-- `init_common`: the range of the request. -/
def GetRequest.initCommon (req : GetRequest) : Except Int ByteRange :=
  match req.range.elim (.ok {}) parseRange with
  | .error r => .error r
  | .ok range => if req.timesParse then .ok range else .error (-Err.einval)

/-- The headers and the body. The header names the offset `start`, which is never set. -/
def GetRequest.sendResponse (req : GetRequest) (range : ByteRange) (size : Nat) (body : Bytes) :
    Response :=
  .ok (if range.partialContent then statusPartialContent else 0)
    (req.range.map fun _ => contentRange 0 range.stop size) size (if req.getData then body else [])

def GetRequest.execute (G : Global) (req : GetRequest) : Prog Response :=
  match req.initCommon with
  | .error r => pure (.error r)
  | .ok range => do
      let st ← statFile (req.path G)
      let size := st.getD 0
      match ← openFile (req.path G) .rdonly with
      | none => pure (.error (-Err.notFound))
      | some fd =>
        if range.ofs ≠ 0 ∨ range.stop ≠ -1 then do
          let left := range.stop - range.ofs
          -- the digest of the range; its length is a `size_t`
          let _ ← preadBuffer fd (toU64 left) range.ofs
          let body ← sendLoop G fd range.ofs (left.toNat + 1) left 0 []
          pure (req.sendResponse range size body)
        else if md5BufSize ≤ (md5Line (req.path G)).length then .undef
        else do
          let _ ← shellExecute (md5Line (req.path G))
          let body ← sendLoop G fd 0 (size + 1) size 0 []
          pure (req.sendResponse range size body)

end RadosGateway
