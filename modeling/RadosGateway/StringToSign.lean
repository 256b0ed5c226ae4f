import RadosGateway.Base.Bytes

/-!
# The string to sign

`RGWHTTPArgs::parse` takes a query string apart: it is cut at `&` first, each piece is decoded then,
and the name ends at the first `=` of the decoded piece. Some names are sub-resources of the
request. -/

namespace RadosGateway

open Text

/-- `hex_to_num`; the table holds -1 for anything else. -/
def hexToNum (c : UInt8) : Option UInt8 :=
  if 48 ≤ c ∧ c ≤ 57 then some (c - 48)
  else if 65 ≤ c ∧ c ≤ 70 then some (c - 65 + 10)
  else if 97 ≤ c ∧ c ≤ 102 then some (c - 97 + 10)
  else none

/-- The loop of `url_decode`: `none` if it meets a bad escape. -/
def decodeFrom (inQuery : Bool) : Bytes → Option Bytes
  | [] => some []
  -- an escape that the end of the string cuts off ends the loop
  | [37] => some []
  | [37, _] => some []
  | 37 :: a :: b :: rest => do
      let high ← hexToNum a
      let low ← hexToNum b
      let dest ← decodeFrom inQuery rest
      some ((high <<< 4 ||| low) :: dest)
  | c :: rest =>
    if !inQuery || c ≠ 43 then (decodeFrom (inQuery || c = 63) rest).map (c :: ·)
    else (decodeFrom inQuery rest).map (32 :: ·)

/-- `url_decode` reads a C string and makes one. -/
def urlDecode (src : Bytes) (inQuery : Bool) : Option Bytes :=
  (decodeFrom inQuery (cstr src)).map cstr

/-- `NameVal::parse`: the name and the value. -/
def parseNameVal (str : Bytes) : Bytes × Bytes :=
  (str.takeWhile (· ≠ 61), (str.dropWhile (· ≠ 61)).drop 1)

structure HttpArgs where
  valMap : Bytes → Option Bytes := fun _ => none
  sysValMap : Bytes → Option Bytes := fun _ => none
  subResources : Bytes → Option Bytes := fun _ => none
  hasRespModifier : Bool := false
  /-- The local flag of `parse`. -/
  adminSubresourceAdded : Bool := false

namespace HttpArgs

def valuedSubresources : List Bytes :=
  [ascii "acl", ascii "cors", ascii "location", ascii "logging", ascii "delete", ascii "uploads",
    ascii "partNumber", ascii "uploadId", ascii "versionId", ascii "versions", ascii "versioning",
    ascii "requestPayment", ascii "torrent"]

def responseModifiers : List Bytes :=
  [ascii "response-content-type", ascii "response-content-language", ascii "response-expires",
    ascii "response-cache-control", ascii "response-content-disposition",
      ascii "response-content-encoding"]

/-- The sub-resources of which the first is kept, without its value. -/
def adminSubresources : List Bytes :=
  [ascii "subuser", ascii "key", ascii "caps", ascii "index", ascii "policy", ascii "quota",
    ascii "object"]

def addValue (name val : Bytes) (args : HttpArgs) : HttpArgs :=
  if name.take 5 = ascii "rgwx-" then
    { args with sysValMap := Function.update args.sysValMap name (some val) }
  else { args with valMap := Function.update args.valMap name (some val) }

def setSubresource (name val : Bytes) (args : HttpArgs) : HttpArgs :=
  { args with subResources := Function.update args.subResources name (some val) }

def addSubresource (name val : Bytes) (args : HttpArgs) : HttpArgs :=
  if name ∈ valuedSubresources then setSubresource name val args
  else if name.head? = some 114 then
    if name ∈ responseModifiers then
      { setSubresource name val args with hasRespModifier := true }
    else args
  else if name ∈ adminSubresources then
    if args.adminSubresourceAdded then args
    else { setSubresource name [] args with adminSubresourceAdded := true }
  else args

/-- One turn of the loop of `parse`. A piece that cannot be decoded counts as an empty one. -/
def addPiece (args : HttpArgs) (piece : Bytes) : HttpArgs :=
  let nv := parseNameVal ((urlDecode piece true).getD [])
  addSubresource nv.1 nv.2 (addValue nv.1 nv.2 args)

def parse (str : Bytes) : HttpArgs :=
  ((if str.head? = some 63 then str.tail else str).splitOn 38).foldl addPiece {}

/-- `get`: an argument that is not there is empty. -/
def get (name : Bytes) (args : HttpArgs) : Bytes := (args.valMap name).getD []

end HttpArgs

/-- The headers that start with `x-amz`, a `map` in the order of its keys. -/
structure MetaMap where
  entries : List (Bytes × Bytes)
  sorted : entries.Pairwise (fun e e' => e.1 < e'.1) := by decide

/-- The parts of `req_info`, with the four variables that are read from its environment. -/
structure ReqInfo where
  method : Bytes
  contentMd5 : Option Bytes := none
  contentType : Option Bytes := none
  httpDate : Option Bytes := none
  amzDate : Option Bytes := none
  metaMap : MetaMap := { entries := [] }
  requestUri : Bytes
  effectiveUri : Bytes := []
  args : HttpArgs := {}

namespace StringToSign

def signedSubresources : List Bytes :=
  [ascii "acl", ascii "cors", ascii "delete", ascii "lifecycle", ascii "location", ascii "logging",
    ascii "notification", ascii "partNumber", ascii "policy", ascii "requestPayment",
    ascii "response-cache-control", ascii "response-content-disposition",
    ascii "response-content-encoding", ascii "response-content-language",
    ascii "response-content-type", ascii "response-expires", ascii "torrent", ascii "uploadId",
    ascii "uploads", ascii "versionId", ascii "versioning", ascii "versions", ascii "website"]

def getCanonAmzHdr (metaMap : MetaMap) : Bytes :=
  metaMap.entries.foldl (fun dest e => dest ++ e.1 ++ ascii ":" ++ e.2 ++ ascii "\n") []

def appendSubresource (subResources : Bytes → Option Bytes) (appendStr p : Bytes) : Bytes :=
  match subResources p with
  | none => appendStr
  | some val =>
    appendStr ++ (if appendStr.isEmpty then ascii "?" else ascii "&") ++ p ++
      (if val.isEmpty then [] else ascii "=" ++ val)

def getCanonResource (requestUri : Bytes) (subResources : Bytes → Option Bytes) : Bytes :=
  requestUri ++ signedSubresources.foldl (appendSubresource subResources) []

/-- The first `rgw_create_s3_canonical_header`: a null pointer adds nothing. -/
def canonicalHeader (method : Bytes) (contentMd5 contentType : Option Bytes) (date : Bytes)
    (metaMap : MetaMap) (requestUri : Bytes) (subResources : Bytes → Option Bytes) : Bytes :=
  method ++ ascii "\n" ++ contentMd5.getD [] ++ ascii "\n" ++ contentType.getD [] ++ ascii "\n" ++
    date ++ ascii "\n" ++ getCanonAmzHdr metaMap ++ getCanonResource requestUri subResources

def isBase64ForContentMd5 (c : UInt8) : Bool :=
  isAlpha c || isDigit c || isSpace c || c = 43 || c = 47 || c = 61

/-- `effective_uri`, or `request_uri` if that is empty. -/
def signedUri (info : ReqInfo) : Bytes :=
  cstr (if info.effectiveUri.isEmpty then info.requestUri else info.effectiveUri)

/-- The date that is signed: the time a query string expires, or the header `Date`, or nothing if
the date is in `x-amz-date`. -/
def signedDate (info : ReqInfo) (qsr : Bool) : Bytes :=
  if qsr then cstr (info.args.get (ascii "Expires")) else info.httpDate.getD []

/-- Whether the date of the request is there and, for a caller that wants the time, later than 1970.
`year` is the field `tm_year` that `parse_rfc2616` finds. -/
def dateAccepted (year : Bytes → Option Int) (headerTime : Bool) (info : ReqInfo) (qsr : Bool) :
    Bool :=
  qsr || match info.httpDate <|> info.amzDate with
    | none => false
    | some reqDate => !headerTime || (year reqDate).any (70 ≤ ·)

/-- The second `rgw_create_s3_canonical_header`. -/
def createCanonicalHeader (year : Bytes → Option Int) (headerTime : Bool) (info : ReqInfo)
    (qsr : Bool) : Option Bytes :=
  if (info.contentMd5.getD []).all isBase64ForContentMd5 && dateAccepted year headerTime info
    qsr then
    some (canonicalHeader info.method info.contentMd5 info.contentType (signedDate info qsr)
      info.metaMap (signedUri info) info.args.subResources)
  else none

end StringToSign

end RadosGateway
