import RadosGateway.AclXml

/-!
# Deciding on a request

`RGWAccessControlPolicy::get_perm` collects what a user is granted in person, as the owner and
through the two groups, and `verify_permission` compares that with what a request asks for. Which
user is anonymous is a virtual function: the base class knows of none. -/

namespace RadosGateway

open Text

/-- The classes of policies that requests are checked against. -/
inductive PolicyClass
  | base
  | s3
  deriving DecidableEq

namespace AccessControlPolicy

def userAnonId : Bytes := ascii "anonymous"

def compareGroupName (cls : PolicyClass) (id : Bytes) (group : AclGroup) : Bool :=
  match cls with
  | .base => false
  | .s3 =>
    match group with
    | .allUsers => id = userAnonId
    | .authenticatedUsers => id = AclXml.uriAuthUsers
    | _ => id.isEmpty

def getPerm (cls : PolicyClass) (policy : AccessControlPolicy) (id : Bytes) (permMask : Perm) :
    Perm :=
  let perm := policy.acl.getPerm id permMask
  let perm := if id = policy.owner.id then perm ||| permMask &&& (Perm.readAcp ||| Perm.writeAcp)
    else perm
  if perm = permMask then perm
  else if perm &&& permMask ≠ permMask then
    let perm := perm ||| policy.acl.getGroupPerm .allUsers permMask
    if !compareGroupName cls id .allUsers then
      perm ||| policy.acl.getGroupPerm .authenticatedUsers permMask
    else perm
  else perm

/-- The bits for objects in a container are turned into those of the other vocabulary. -/
def convertObjs (perm : Perm) : Perm :=
  let perm := if perm &&& Perm.writeObjs ≠ 0 then perm ||| (Perm.write ||| Perm.writeAcp) else perm
  if perm &&& Perm.readObjs ≠ 0 then perm ||| (Perm.read ||| Perm.readAcp) else perm

def verifyPermission (cls : PolicyClass) (policy : AccessControlPolicy) (uid : Bytes)
    (userPermMask perm : Perm) : Bool :=
  let testPerm := perm ||| Perm.readObjs ||| Perm.writeObjs
  let policyPerm := convertObjs (policy.getPerm cls uid testPerm)
  let aclPerm := policyPerm &&& perm &&& userPermMask
  perm = aclPerm

end AccessControlPolicy

end RadosGateway
