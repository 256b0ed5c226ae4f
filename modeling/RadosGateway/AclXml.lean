import RadosGateway.Base.Xml
import RadosGateway.Acl

/-!
# Access control documents

`to_xml` writes a policy as a document, names as they are. `RGWXMLParser` makes an object of each
element that expat reports, which takes what it needs from the objects inside at its end tag.
`rebuild` looks up the users of the parsed policy. Expat itself is a parameter. -/

namespace RadosGateway

open Text Xml

namespace RgwXmlParser

/-- `cur_obj` and its parents, and the objects that have none. -/
structure State where
  stack : List Element := []
  roots : List Element := []

/-- The handlers. A failed `xml_end` is a failure of the whole parse. -/
def step (xmlEnd : Element → Bool) (s : State) : Event → Option State
  | .start name attrs => some { s with stack := { name, attrs } :: s.stack }
  | .text bytes =>
    match s.stack with
    | [] => none
    | obj :: rest => some { s with stack := { obj with data := obj.data ++ bytes } :: rest }
  | .stop _ =>
    match s.stack with
    | [] => none
    | obj :: rest =>
      if xmlEnd obj then
        match rest with
        | [] => some { stack := [], roots := s.roots ++ [obj] }
        | parent :: rest =>
          some { s with stack := { parent with children := parent.children ++ [obj] } :: rest }
      else none

def parse (expat : Reader) (xmlEnd : Element → Bool) (doc : Bytes) : Option (List Element) :=
  (expat doc).bind fun events => (events.foldlM (step xmlEnd) {}).map State.roots

end RgwXmlParser

structure AccessControlPolicy where
  acl : AccessControlList := {}
  owner : AclOwner := {}

namespace AclXml

def uriAllUsers : Bytes := ascii "http://acs.amazonaws.com/groups/global/AllUsers"

def uriAuthUsers : Bytes := ascii "http://acs.amazonaws.com/groups/global/AuthenticatedUsers"

def groupToUri : AclGroup → Option Bytes
  | .allUsers => some uriAllUsers
  | .authenticatedUsers => some uriAuthUsers
  | _ => none

def permissionToXml (flags : Perm) : Bytes :=
  if flags &&& Perm.fullControl = Perm.fullControl then
    ascii "<Permission>FULL_CONTROL</Permission>"
  else
    (if flags &&& Perm.read ≠ 0 then ascii "<Permission>READ</Permission>" else []) ++
    (if flags &&& Perm.write ≠ 0 then ascii "<Permission>WRITE</Permission>" else []) ++
    (if flags &&& Perm.readAcp ≠ 0 then ascii "<Permission>READ_ACP</Permission>" else []) ++
    (if flags &&& Perm.writeAcp ≠ 0 then ascii "<Permission>WRITE_ACP</Permission>" else [])

def typeToString : GranteeType → Bytes
  | .canonUser => ascii "CanonicalUser"
  | .emailUser => ascii "AmazonCustomerByEmail"
  | .group => ascii "Group"
  | .unknown => ascii "unknown"

def ownerToXml (owner : AclOwner) : Bytes :=
  if owner.id.isEmpty then []
  else
    ascii "<Owner>" ++ ascii "<ID>" ++ owner.id ++ ascii "</ID>" ++
      (if owner.displayName.isEmpty then []
        else ascii "<DisplayName>" ++ owner.displayName ++ ascii "</DisplayName>") ++
      ascii "</Owner>"

def granteeToXml (grant : AclGrant) : Bytes :=
  match grant.type with
  | .canonUser => ascii "<ID>" ++ grant.id ++ ascii "</ID>" ++
      (if grant.name.isEmpty then []
        else ascii "<DisplayName>" ++ grant.name ++ ascii "</DisplayName>")
  | .emailUser => ascii "<EmailAddress>" ++ grant.email ++ ascii "</EmailAddress>"
  | .group =>
    match groupToUri grant.group with
    | none => []
    | some uri => ascii "<URI>" ++ uri ++ ascii "</URI>"
  | .unknown => []

def grantToXml (grant : AclGrant) : Bytes :=
  -- only show s3 compatible permissions
  if grant.permission &&& Perm.fullControl = 0 then []
  else
    ascii "<Grant>" ++
      ascii "<Grantee xmlns:xsi=\"http://www.w3.org/2001/XMLSchema-instance\" xsi:type=\"" ++
      typeToString grant.type ++ ascii "\">" ++ granteeToXml grant ++ ascii "</Grantee>" ++
      permissionToXml grant.permission ++ ascii "</Grant>"

def aclToXml (grants : List AclGrant) : Bytes :=
  ascii "<AccessControlList>" ++ grants.flatMap grantToXml ++ ascii "</AccessControlList>"

def toXml (policy : AccessControlPolicy) : Bytes :=
  ascii "<AccessControlPolicy xmlns=\"http://s3.amazonaws.com/doc/2006-03-01/\">" ++
    ownerToXml policy.owner ++ aclToXml (policy.acl.grantMap.map Prod.snd) ++
    ascii "</AccessControlPolicy>"

def toLower (b : UInt8) : UInt8 := if 65 ≤ b ∧ b ≤ 90 then b + 32 else b

def sameNoCase (s t : Bytes) : Bool := (cstr s).map toLower = (cstr t).map toLower

/-- `find`: the children of a name. -/
def find (name : String) (obj : Element) : List Element := obj.children.filter (·.name = ascii name)

def findFirst (name : String) (obj : Element) : Option Element := (find name obj).head?

/-- Of two attributes of a name the later one stays in the map. -/
def getAttr (name : String) (obj : Element) : Option Bytes := obj.attrs.reverse.lookup (ascii name)

def permissionOf (obj : Element) : Option Perm :=
  if sameNoCase obj.data (ascii "READ") then some Perm.read
  else if sameNoCase obj.data (ascii "WRITE") then some Perm.write
  else if sameNoCase obj.data (ascii "READ_ACP") then some Perm.readAcp
  else if sameNoCase obj.data (ascii "WRITE_ACP") then some Perm.writeAcp
  else if sameNoCase obj.data (ascii "FULL_CONTROL") then some Perm.fullControl
  else none

/-- `ACLOwner_S3::xml_end`: the id is mandatory. -/
def ownerOf (obj : Element) : Option AclOwner :=
  (findFirst "ID" obj).map fun aclId =>
    { id := aclId.data, displayName := ((findFirst "DisplayName" obj).map Element.data).getD [] }

def typeOfString (s : Bytes) : GranteeType :=
  if s = ascii "CanonicalUser" then .canonUser
  else if s = ascii "AmazonCustomerByEmail" then .emailUser
  else if s = ascii "Group" then .group
  else .unknown

/-- `ACLGrant_S3::xml_end`. The group is left as it was: the line that sets it is commented out. -/
def grantOf (obj : Element) : Option AclGrant := do
  let grantee ← findFirst "Grantee" obj
  let typeStr ← getAttr "xsi:type" grantee
  let aclPermission ← findFirst "Permission" obj
  let permission := (permissionOf aclPermission).getD 0
  match typeOfString (cstr typeStr) with
  | .canonUser =>
    let aclId ← findFirst "ID" grantee
    some { type := .canonUser, permission, id := aclId.data,
           name := ((findFirst "DisplayName" grantee).map Element.data).getD [] }
  | .group =>
    let _aclUri ← findFirst "URI" grantee
    some { type := .group, permission }
  | .emailUser =>
    let aclEmail ← findFirst "EmailAddress" grantee
    some { type := .emailUser, permission, email := aclEmail.data }
  | .unknown => none

def aclOf (obj : Element) : AccessControlList :=
  ((find "Grant" obj).filterMap grantOf).foldl AccessControlList.addGrant {}

def policyOf (obj : Element) : Option AccessControlPolicy := do
  let s3acl ← findFirst "AccessControlList" obj
  let owner ← findFirst "Owner" obj
  some { acl := aclOf s3acl, owner := (ownerOf owner).getD {} }

/-- The `xml_end` of the object that `alloc_obj` makes for an element. -/
def xmlEnd (obj : Element) : Bool :=
  if obj.name = ascii "AccessControlPolicy" then (policyOf obj).isSome
  else if obj.name = ascii "Owner" then (ownerOf obj).isSome
  else if obj.name = ascii "Grant" then (grantOf obj).isSome
  else if obj.name = ascii "Permission" then (permissionOf obj).isSome
  else true

def parsePolicy (expat : Reader) (doc : Bytes) : Option AccessControlPolicy :=
  (RgwXmlParser.parse expat xmlEnd doc).bind fun roots =>
    (roots.find? (·.name = ascii "AccessControlPolicy")).bind policyOf

/-- The grant that `rebuild` makes of a parsed one: `none` if it gives up, no grant for an unknown
type. The lookup of an e-mail address is commented out, so its user has no name. -/
def rebuildGrant (users : Bytes → Option Bytes) (src : AclGrant) : Option (Option AclGrant) :=
  let canon := fun uid => (users uid).map fun displayName =>
    some (AclGrant.setCanon uid displayName src.permission {})
  match src.type with
  | .emailUser => canon []
  | .canonUser => canon src.id
  | .group => if (groupToUri src.group).isSome then some (some src) else none
  | .unknown => some none

/-- `rebuild`, with the users that are known and their display names. -/
def rebuild (users : Bytes → Option Bytes) (owner : AclOwner) (parsed : AccessControlPolicy) :
    Except Int AccessControlPolicy :=
  if !parsed.owner.id.isEmpty && parsed.owner.id ≠ owner.id then .error (-1)
  else match users owner.id with
    | none => .error (-22)
    | some displayName =>
      match (parsed.acl.grantMap.map Prod.snd).mapM (rebuildGrant users) with
      | none => .error (-22)
      | some grants => .ok
          { acl := (grants.filterMap id).foldl AccessControlList.addGrant {}
            owner := { id := owner.id, displayName } }

end AclXml

end RadosGateway
