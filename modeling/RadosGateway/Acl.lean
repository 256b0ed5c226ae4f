import RadosGateway.Base.Bytes

/-!
# Access control lists

An `RGWAccessControlList` keeps its grants in a multimap and, next to it, two maps with the
permissions of each user and of each group, which are what a request is checked against. Five
functions change a list, and each clears what it means to replace. -/

namespace RadosGateway

open Text

abbrev Perm := BitVec 32

namespace Perm

def read : Perm := 0x01#32
def write : Perm := 0x02#32
def readAcp : Perm := 0x04#32
def writeAcp : Perm := 0x08#32
def readObjs : Perm := 0x10#32
def writeObjs : Perm := 0x20#32
def fullControl : Perm := read ||| write ||| readAcp ||| writeAcp

end Perm

/-- `ACLGranteeTypeEnum`; a number that has no name is treated as `unknown` everywhere. -/
inductive GranteeType
  | canonUser
  | emailUser
  | group
  | unknown
  deriving DecidableEq

/-- `ACLGroupTypeEnum`, with the numbers that have no name, which can be read from an encoded list.
-/
inductive AclGroup
  | none
  | allUsers
  | authenticatedUsers
  | other (number : UInt32)
  deriving DecidableEq

structure AclGrant where
  type : GranteeType := .unknown
  id : Bytes := []
  email : Bytes := []
  permission : Perm := 0
  name : Bytes := []
  group : AclGroup := .none
  deriving DecidableEq

namespace AclGrant

def getId (grant : AclGrant) : Option Bytes :=
  match grant.type with
  | .emailUser => some grant.email
  | .group => none
  | _ => some grant.id

def setCanon (id name : Bytes) (perm : Perm) (grant : AclGrant) : AclGrant :=
  { grant with type := .canonUser, id := id, name := name, permission := perm }

def setGroup (group : AclGroup) (perm : Perm) (grant : AclGrant) : AclGrant :=
  { grant with type := .group, group := group, permission := perm }

end AclGrant

structure AclOwner where
  id : Bytes := []
  displayName : Bytes := []
  deriving DecidableEq

structure AccessControlList where
  userMap : Bytes → Option Perm := fun _ => none
  groupMap : AclGroup → Option Perm := fun _ => none
  /-- A `multimap`: in the order of the keys, equal keys in the order of insertion. -/
  grantMap : List (Bytes × AclGrant) := []

/-- What a stored list decodes to, in the order in which it was encoded. -/
structure EncodedAcl where
  structV : Nat
  mapsInitialized : Bool
  userMap : Bytes → Option Perm
  grantMap : List (Bytes × AclGrant)
  groupMap : AclGroup → Option Perm

namespace AccessControlList

def orInto {κ : Type} [DecidableEq κ] (m : κ → Option Perm) (key : κ) (perm : Perm) :
    κ → Option Perm :=
  Function.update m key (some ((m key).getD 0 ||| perm))

def insertGrant (e : Bytes × AclGrant) (grantMap : List (Bytes × AclGrant)) :
    List (Bytes × AclGrant) :=
  grantMap.orderedInsert (fun e e' => e.1 < e'.1) e

def indexGrant (acl : AccessControlList) (grant : AclGrant) : AccessControlList :=
  match grant.type with
  | .group => { acl with groupMap := orInto acl.groupMap grant.group grant.permission }
  | _ => { acl with userMap := orInto acl.userMap (grant.getId.getD []) grant.permission }

def addGrant (acl : AccessControlList) (grant : AclGrant) : AccessControlList :=
  indexGrant { acl with grantMap := insertGrant (grant.getId.getD [], grant) acl.grantMap } grant

/-- `create_default` leaves the grants in the multimap. -/
def createDefault (id name : Bytes) (acl : AccessControlList) : AccessControlList :=
  addGrant { acl with userMap := fun _ => none, groupMap := fun _ => none }
    (AclGrant.setCanon id name Perm.fullControl {})

/-- The grants that `create_canned` adds after the one of the owner, and what it returns. -/
def cannedGrants (owner bucketOwner : AclOwner) (cannedAcl : Bytes) : Int × List AclGrant :=
  let ofBucketOwner := fun perm : Perm =>
    if bucketOwner.id ≠ owner.id then
      [AclGrant.setCanon bucketOwner.id bucketOwner.displayName perm {}]
    else []
  if cannedAcl.length = 0 ∨ cannedAcl = ascii "private" then (0, [])
  else if cannedAcl = ascii "public-read" then (0, [AclGrant.setGroup .allUsers Perm.read {}])
  else if cannedAcl = ascii "public-read-write" then
    (0, [AclGrant.setGroup .allUsers Perm.read {}, AclGrant.setGroup .allUsers Perm.write {}])
  else if cannedAcl = ascii "authenticated-read" then
    (0, [AclGrant.setGroup .authenticatedUsers Perm.read {}])
  else if cannedAcl = ascii "bucket-owner-read" then (0, ofBucketOwner Perm.read)
  else if cannedAcl = ascii "bucket-owner-full-control" then (0, ofBucketOwner Perm.fullControl)
  else (-22, [])

/-- Clearing the users and the grants, as `create_canned` and `create_from_grants` do: the groups
stay. -/
def clearUsers (acl : AccessControlList) : AccessControlList :=
  { acl with userMap := fun _ => none, grantMap := [] }

def createCanned (owner bucketOwner : AclOwner) (cannedAcl : Bytes) (acl : AccessControlList) :
    Int × AccessControlList :=
  let acl :=
    addGrant (clearUsers acl) (AclGrant.setCanon owner.id owner.displayName Perm.fullControl {})
  let canned := cannedGrants owner bucketOwner cannedAcl
  (canned.1, canned.2.foldl addGrant acl)

def createFromGrants (grants : List AclGrant) (acl : AccessControlList) : Int × AccessControlList :=
  if grants.isEmpty then (-22, acl)
  else (0, grants.foldl addGrant (clearUsers acl))

def encode (acl : AccessControlList) : EncodedAcl :=
  { structV := 3, mapsInitialized := true, userMap := acl.userMap, grantMap := acl.grantMap,
    groupMap := acl.groupMap }

/-- `decode`: the first version has no groups. -/
def decode (e : EncodedAcl) (acl : AccessControlList) : AccessControlList :=
  let acl := { acl with
    userMap := e.userMap
    grantMap := e.grantMap.foldl (fun grants entry => insertGrant entry grants) [] }
  if 2 ≤ e.structV then { acl with groupMap := e.groupMap }
  else if e.mapsInitialized then acl
  else (acl.grantMap.map Prod.snd).foldl indexGrant acl

def getPerm (id : Bytes) (permMask : Perm) (acl : AccessControlList) : Perm :=
  (acl.userMap id).getD 0 &&& permMask

def getGroupPerm (group : AclGroup) (permMask : Perm) (acl : AccessControlList) : Perm :=
  (acl.groupMap group).getD 0 &&& permMask

inductive Call
  | addGrant (grant : AclGrant)
  | createDefault (id name : Bytes)
  | createCanned (owner bucketOwner : AclOwner) (cannedAcl : Bytes)
  | createFromGrants (grants : List AclGrant)
  | decode (e : EncodedAcl)

def call (acl : AccessControlList) : Call → AccessControlList
  | .addGrant grant => acl.addGrant grant
  | .createDefault id name => acl.createDefault id name
  | .createCanned owner bucketOwner cannedAcl => (acl.createCanned owner bucketOwner cannedAcl).2
  | .createFromGrants grants => (acl.createFromGrants grants).2
  | .decode e => acl.decode e

end AccessControlList

end RadosGateway
