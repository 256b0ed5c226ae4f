import RadosGateway.Base.Xml
import RadosGateway.AclXml
import RadosGateway.Proof.AclIndex

/-!
# Documents read back

`to_xml` writes an element tree, and `RGWXMLParser` builds that tree again from what a lawful expat
reports of a document with plain names, unless an `xml_end` fails. What the objects take from it is
the owner, and of each grant with an S3 permission the grantee and its first permission, but never
the group. -/

namespace RadosGateway

open Text Xml List Option

namespace RgwXmlParser

mutual

/-- Every `xml_end` in the element succeeds. -/
def passes (xmlEnd : Element → Bool) : Element → Bool
  | ⟨name, attrs, data, children⟩ =>
    passesAll xmlEnd children && xmlEnd ⟨name, attrs, data, children⟩

def passesAll (xmlEnd : Element → Bool) : List Element → Bool
  | [] => true
  | e :: es => passes xmlEnd e && passesAll xmlEnd es

end

def State.add (s : State) (e : Element) : State :=
  match s.stack with
  | [] => { s with roots := s.roots ++ [e] }
  | parent :: rest => { s with stack := { parent with children := parent.children ++ [e] } :: rest }

variable {xmlEnd : Element → Bool}

theorem run_texts (texts : List Bytes) (obj : Element) (rest roots : List Element) :
    (texts.map Event.text).foldlM (step xmlEnd) ⟨obj :: rest, roots⟩ =
      some ⟨{ obj with data := obj.data ++ texts.flatten } :: rest, roots⟩ := by
  induction texts generalizing obj with
  | nil =>
    cases obj
    simp
  | cons text texts ih =>
    rw [map_cons, foldlM_cons]
    simp only [step, bind_eq_bind, bind_some, ih, flatten_cons, append_assoc]

mutual

/-- The handlers rebuild what is delivered, object by object. -/
theorem run_delivers {e : Element} {events : List Event} (s : State) :
    Delivers e events → events.foldlM (step xmlEnd) s = if passes xmlEnd e then some (s.add e)
      else none
  | .element hdata hinside => by
    obtain ⟨name, attrs, data, children⟩ := e
    rw [foldlM_cons]
    simp only [step, bind_eq_bind, bind_some]
    rw [foldlM_append, run_texts, bind_eq_bind, bind_some, foldlM_append,
      run_deliversAll _ _ _ hinside]
    simp only [nil_append] at hdata ⊢
    rw [passes]
    cases passesAll xmlEnd children with
    | false => rfl
    | true =>
      simp only [if_true, bind_eq_bind, bind_some, foldlM_cons, foldlM_nil, step, hdata,
        Bool.true_and]
      cases xmlEnd ⟨name, attrs, data, children⟩ with
      | false => rfl
      | true => cases hstack : s.stack <;> simp [State.add, hstack]

theorem run_deliversAll {es : List Element} {events : List Event} (obj : Element)
    (rest roots : List Element) :
    DeliversAll es events → events.foldlM (step xmlEnd) ⟨obj :: rest, roots⟩ =
      if passesAll xmlEnd es then some ⟨{ obj with children := obj.children ++ es } :: rest, roots⟩
        else none
  | .nil => by
    cases obj
    simp [passesAll]
  | @DeliversAll.cons e es _ _ he hes => by
    rw [foldlM_append, run_delivers _ he, passesAll]
    cases passes xmlEnd e with
    | false => rfl
    | true =>
      simp only [if_true, bind_eq_bind, bind_some, State.add, Bool.true_and]
      rw [run_deliversAll _ _ _ hes]
      simp

end

theorem parse_render {expat : Reader} (hexpat : expat.Lawful) {e : Element} (he : Plain e) :
    parse expat xmlEnd e.render = if passes xmlEnd e then some [e] else none := by
  obtain ⟨events, hread, hdelivers⟩ := hexpat e he
  rw [parse, hread, bind_some, run_delivers _ hdelivers]
  cases passes xmlEnd e <;> rfl

end RgwXmlParser

namespace AclXml

open RgwXmlParser

variable {grant : AclGrant} {policy : AccessControlPolicy} {n : String} {obj : Element}
  {gs : List AclGrant}

def leaf (n : String) (t : Bytes) : Element := { name := ascii n, data := t }

def ownerElement (owner : AclOwner) : Element :=
  { name := ascii "Owner"
    children := leaf "ID" owner.id ::
      if owner.displayName.isEmpty then [] else [leaf "DisplayName" owner.displayName] }

def granteeChildren (grant : AclGrant) : List Element :=
  match grant.type with
  | .canonUser =>
    leaf "ID" grant.id :: if grant.name.isEmpty then [] else [leaf "DisplayName" grant.name]
  | .emailUser => [leaf "EmailAddress" grant.email]
  | .group => ((groupToUri grant.group).map (leaf "URI")).toList
  | .unknown => []

def granteeAttrs (type : GranteeType) : List (Bytes × Bytes) :=
  [(ascii "xmlns:xsi", ascii "http://www.w3.org/2001/XMLSchema-instance"),
    (ascii "xsi:type", typeToString type)]

def permissionLeaves (flags : Perm) : List Element :=
  if flags &&& Perm.fullControl = Perm.fullControl then [leaf "Permission" (ascii "FULL_CONTROL")]
  else
    (if flags &&& Perm.read ≠ 0 then [leaf "Permission" (ascii "READ")] else []) ++
    (if flags &&& Perm.write ≠ 0 then [leaf "Permission" (ascii "WRITE")] else []) ++
    (if flags &&& Perm.readAcp ≠ 0 then [leaf "Permission" (ascii "READ_ACP")] else []) ++
    (if flags &&& Perm.writeAcp ≠ 0 then [leaf "Permission" (ascii "WRITE_ACP")] else [])

def grantElement (grant : AclGrant) : Element :=
  { name := ascii "Grant"
    children :=
      { name := ascii "Grantee", attrs := granteeAttrs grant.type,
        children := granteeChildren grant } ::
        permissionLeaves grant.permission }

theorem xmlEnd_of_notMem
    (h : obj.name ∉ [ascii "AccessControlPolicy", ascii "Owner", ascii "Grant",
      ascii "Permission"]) :
    xmlEnd obj = true := by
  simp only [mem_cons, not_mem_nil, or_false, not_or] at h
  obtain ⟨hpolicy, howner, hgrant, hpermission⟩ := h
  rw [xmlEnd, if_neg hpolicy, if_neg howner, if_neg hgrant, if_neg hpermission]

theorem xmlEnd_grant (h : obj.name = ascii "Grant") : xmlEnd obj = (grantOf obj).isSome := by
  rw [xmlEnd, h, if_neg (by decide), if_neg (by decide), if_pos rfl]

variable {cs : List Element} {uri : Bytes} {owner : AclOwner} {group : AclGroup}

theorem findFirst_cons_of_eq {obj c : Element}
    (hobj : obj.children = c :: cs) (hc : c.name = ascii n) : findFirst n obj = some c := by
  rw [findFirst, find, hobj, filter_cons_of_pos (by simpa using hc)]
  rfl

theorem findFirst_cons_of_ne {obj c : Element}
    (hobj : obj.children = c :: cs) (hc : c.name ≠ ascii n) :
    findFirst n obj = (cs.filter (·.name = ascii n)).head? := by
  rw [findFirst, find, hobj, filter_cons_of_neg (by simpa using hc)]

theorem data_displayName_if (t : Bytes) :
    ((((if t.isEmpty then [] else [leaf "DisplayName" t]).filter
      (·.name = ascii "DisplayName")).head?).map Element.data).getD [] = t := by
  split
  · rename_i hempty
    rw [List.isEmpty_iff.mp hempty]
    rfl
  · rfl

theorem ownerOf_ownerElement (owner : AclOwner) : ownerOf (ownerElement owner) = some owner := by
  have hname : findFirst "DisplayName" (ownerElement owner) =
      ((if owner.displayName.isEmpty then [] else [leaf "DisplayName" owner.displayName]).filter
        (·.name = ascii "DisplayName")).head? :=
    findFirst_cons_of_ne rfl (show ascii "ID" ≠ ascii "DisplayName" by decide)
  have hid : findFirst "ID" (ownerElement owner) = some (leaf "ID" owner.id) :=
    findFirst_cons_of_eq rfl rfl
  rw [ownerOf, hid, map_some, hname, data_displayName_if]
  rfl

def firstPerm (flags : Perm) : Perm :=
  if flags &&& Perm.fullControl = Perm.fullControl then Perm.fullControl
  else if flags &&& Perm.read ≠ 0 then Perm.read
  else if flags &&& Perm.write ≠ 0 then Perm.write
  else if flags &&& Perm.readAcp ≠ 0 then Perm.readAcp
  else Perm.writeAcp

def readGrant (grant : AclGrant) : Option AclGrant :=
  match grant.type with
  | .canonUser =>
    some { type := .canonUser, permission := firstPerm grant.permission, id := grant.id,
                         name := grant.name }
  | .emailUser => some { type := .emailUser, permission := firstPerm grant.permission,
                         email := grant.email }
  | .group => if (groupToUri grant.group).isSome then
      some { type := .group, permission := firstPerm grant.permission } else none
  | .unknown => none

/-- A grant is written with one element for each permission, and read by the first of them. -/
theorem exists_head_permissionLeaves {flags : Perm} (h : flags &&& Perm.fullControl ≠ 0) :
    ∃ l ls, permissionLeaves flags = l :: ls ∧ l.name = ascii "Permission" ∧
      permissionOf l = some (firstPerm flags) := by
  rw [permissionLeaves, firstPerm]
  by_cases hfull : flags &&& Perm.fullControl = Perm.fullControl
  · rw [if_pos hfull, if_pos hfull]
    exact ⟨_, _, rfl, rfl, by decide⟩
  rw [if_neg hfull, if_neg hfull]
  by_cases hread : flags &&& Perm.read ≠ 0
  · rw [if_pos hread, if_pos hread]
    exact ⟨_, _, rfl, rfl, by decide⟩
  by_cases hwrite : flags &&& Perm.write ≠ 0
  · rw [if_neg hread, if_neg hread, if_pos hwrite, if_pos hwrite]
    exact ⟨_, _, rfl, rfl, by decide⟩
  by_cases hreadAcp : flags &&& Perm.readAcp ≠ 0
  · rw [if_neg hread, if_neg hread, if_neg hwrite, if_neg hwrite, if_pos hreadAcp, if_pos hreadAcp]
    exact ⟨_, _, rfl, rfl, by decide⟩
  have hwriteAcp : flags &&& Perm.writeAcp ≠ 0 := by
    intro hzero
    apply h
    simp only [not_not] at hread hwrite hreadAcp
    rw [Perm.fullControl, BitVec.and_or_distrib_left, BitVec.and_or_distrib_left,
      BitVec.and_or_distrib_left, hread, hwrite, hreadAcp, hzero]
    rfl
  rw [if_neg hread, if_neg hread, if_neg hwrite, if_neg hwrite, if_neg hreadAcp, if_neg hreadAcp,
    if_pos hwriteAcp]
  exact ⟨_, _, rfl, rfl, by decide⟩

theorem typeOfString_typeToString (type : GranteeType) :
    typeOfString (cstr (typeToString type)) = type := by
  cases type <;> decide

theorem getAttr_granteeAttrs {type : GranteeType} (h : obj.attrs = granteeAttrs type) :
    getAttr "xsi:type" obj = some (typeToString type) := by
  rw [getAttr, h, granteeAttrs, reverse_cons, reverse_singleton, singleton_append, lookup_cons_self]

/-- One grant, written and read. -/
theorem grantOf_grantElement (h : grant.permission &&& Perm.fullControl ≠ 0) :
    grantOf (grantElement grant) = readGrant grant := by
  obtain ⟨l, ls, hleaves, hl, hperm⟩ := exists_head_permissionLeaves h
  obtain ⟨grantee, hgrantee⟩ : ∃ grantee : Element, grantee =
      ⟨ascii "Grantee", granteeAttrs grant.type, [], granteeChildren grant⟩ := ⟨_, rfl⟩
  have hchildren : (grantElement grant).children = grantee :: l :: ls := by
    rw [grantElement, hleaves, hgrantee]
  have hfirst : findFirst "Grantee" (grantElement grant) = some grantee :=
    findFirst_cons_of_eq hchildren (by rw [hgrantee])
  have hpermission : findFirst "Permission" (grantElement grant) = some l := by
    have hne : grantee.name ≠ ascii "Permission" := by
      rw [hgrantee]
      exact show ascii "Grantee" ≠ ascii "Permission" by decide
    rw [findFirst_cons_of_ne hchildren hne, filter_cons_of_pos (by simpa using hl)]
    rfl
  have hattr : getAttr "xsi:type" grantee = some (typeToString grant.type) :=
    getAttr_granteeAttrs (by rw [hgrantee])
  have hinside : grantee.children = granteeChildren grant := by rw [hgrantee]
  simp only [grantOf, hfirst, hattr, hpermission, bind_eq_bind, bind_some, hperm,
    getD_some, typeOfString_typeToString]
  rw [readGrant]
  rw [granteeChildren] at hinside
  cases htype : grant.type with
  | canonUser =>
    rw [htype] at hinside
    have hid : findFirst "ID" grantee = some (leaf "ID" grant.id) :=
      findFirst_cons_of_eq hinside rfl
    have hname := findFirst_cons_of_ne hinside (show ascii "ID" ≠ ascii "DisplayName" by decide)
    simp only [hid, bind_some, hname, data_displayName_if]
    rfl
  | emailUser =>
    rw [htype] at hinside
    have hemail : findFirst "EmailAddress" grantee = some (leaf "EmailAddress" grant.email) :=
      findFirst_cons_of_eq hinside rfl
    simp only [hemail, bind_some]
    rfl
  | group =>
    rw [htype] at hinside
    cases huri : groupToUri grant.group with
    | none =>
      rw [huri] at hinside
      have hnone : findFirst "URI" grantee = none := by
        rw [findFirst, find, hinside]
        rfl
      simp only [hnone, bind_none, isSome_none]
      rfl
    | some uri =>
      rw [huri] at hinside
      have hsome : findFirst "URI" grantee = some (leaf "URI" uri) :=
        findFirst_cons_of_eq hinside rfl
      simp only [hsome, bind_some, isSome_some, if_true]
  | unknown => rfl

def written (gs : List AclGrant) : List AclGrant :=
  gs.filter fun grant => grant.permission &&& Perm.fullControl ≠ 0

theorem written_cons (grant : AclGrant) (gs : List AclGrant) : written (grant :: gs) =
      if grant.permission &&& Perm.fullControl = 0 then written gs else grant :: written gs := by
  rw [written, filter_cons]
  split <;> split <;> simp_all [written]

def policyAttrs : List (Bytes × Bytes) :=
  [(ascii "xmlns", ascii "http://s3.amazonaws.com/doc/2006-03-01/")]

def aclElement (gs : List AclGrant) : Element :=
  { name := ascii "AccessControlList", children := (written gs).map grantElement }

def policyElement (owner : AclOwner) (gs : List AclGrant) : Element :=
  { name := ascii "AccessControlPolicy", attrs := policyAttrs
    children := [ownerElement owner, aclElement gs] }

theorem aclOf_aclElement (gs : List AclGrant) :
    aclOf (aclElement gs) =
      ((written gs).filterMap readGrant).foldl AccessControlList.addGrant {} := by
  have hfind : find "Grant" (aclElement gs) = (written gs).map grantElement := by
    rw [find, aclElement, filter_eq_self]
    intro el hel
    obtain ⟨grant, -, rfl⟩ := List.mem_map.mp hel
    simp [grantElement]
  have hread : ((written gs).map grantElement).filterMap grantOf =
      (written gs).filterMap readGrant := by
    rw [filterMap_map]
    refine filterMap_congr fun grant hgrant => ?_
    exact grantOf_grantElement (by simpa using (mem_filter.mp hgrant).2)
  rw [aclOf, hfind, hread]

theorem policyOf_policyElement (owner : AclOwner) (gs : List AclGrant) :
    policyOf (policyElement owner gs) = some
      { acl := ((written gs).filterMap readGrant).foldl AccessControlList.addGrant {},
        owner := owner } := by
  have howner : findFirst "Owner" (policyElement owner gs) = some (ownerElement owner) :=
    findFirst_cons_of_eq rfl rfl
  have hacl : findFirst "AccessControlList" (policyElement owner gs) = some (aclElement gs) := by
    have hne : (ownerElement owner).name ≠ ascii "AccessControlList" :=
      show ascii "Owner" ≠ ascii "AccessControlList" by decide
    rfl
  simp only [policyOf, hacl, howner, bind_eq_bind, bind_some, ownerOf_ownerElement, getD_some,
    aclOf_aclElement]

/-! ### What is written is the tree -/

theorem render_leaf (n : String) (t : Bytes) :
    (leaf n t).render = startTag (ascii n) [] ++ t ++ endTag (ascii n) := by
  simp [leaf, Element.render, Element.renderAll]

theorem renderAll_append (es fs : List Element) :
    Element.renderAll (es ++ fs) = Element.renderAll es ++ Element.renderAll fs := by
  induction es with
  | nil => rfl
  | cons e es ih => simp [Element.renderAll, ih]

theorem renderAll_singleton (e : Element) : Element.renderAll [e] = e.render := by
  simp [Element.renderAll]

theorem renderAll_ite (c : Prop) [Decidable c] (es : List Element) :
    Element.renderAll (if c then es else []) = if c then Element.renderAll es else [] := by
  split <;> rfl

theorem render_id (t : Bytes) : (leaf "ID" t).render = ascii "<ID>" ++ t ++ ascii "</ID>" :=
  render_leaf "ID" t

theorem renderAll_displayName (t : Bytes) :
    Element.renderAll (if t.isEmpty then [] else [leaf "DisplayName" t]) =
      if t.isEmpty then [] else ascii "<DisplayName>" ++ t ++ ascii "</DisplayName>" := by
  split
  · rfl
  · exact (renderAll_singleton _).trans (render_leaf "DisplayName" t)

theorem render_ownerElement (hne : owner.id ≠ []) :
    (ownerElement owner).render = ownerToXml owner := by
  rw [ownerToXml, if_neg (by simpa using hne), ownerElement, Element.render, Element.renderAll,
    render_id,
    renderAll_displayName]
  simp [startTag, endTag, ascii]

theorem renderAll_granteeChildren (grant : AclGrant) :
    Element.renderAll (granteeChildren grant) = granteeToXml grant := by
  rw [granteeChildren, granteeToXml]
  cases grant.type with
  | canonUser => rw [Element.renderAll, render_id, renderAll_displayName]
  | emailUser => exact (renderAll_singleton _).trans (render_leaf "EmailAddress" grant.email)
  | group =>
    cases groupToUri grant.group with
    | none => rfl
    | some uri => exact (renderAll_singleton _).trans (render_leaf "URI" uri)
  | unknown => rfl

theorem renderAll_permissionLeaves (flags : Perm) :
    Element.renderAll (permissionLeaves flags) = permissionToXml flags := by
  have hpermission (n : String) : Element.renderAll [leaf "Permission" (ascii n)] =
      ascii "<Permission>" ++ ascii n ++ ascii "</Permission>" :=
    (renderAll_singleton _).trans (render_leaf "Permission" (ascii n))
  rw [permissionLeaves, permissionToXml]
  split
  · exact hpermission "FULL_CONTROL"
  · simp only [renderAll_append, renderAll_ite, hpermission]
    rfl

theorem render_grantElement (h : grant.permission &&& Perm.fullControl ≠ 0) :
    (grantElement grant).render = grantToXml grant := by
  rw [grantToXml, if_neg h, grantElement, Element.render, Element.renderAll, Element.render,
    renderAll_granteeChildren, renderAll_permissionLeaves]
  simp [startTag, endTag, attrText, granteeAttrs, ascii]

theorem renderAll_grants (gs : List AclGrant) :
    Element.renderAll ((written gs).map grantElement) = gs.flatMap grantToXml := by
  induction gs with
  | nil => rfl
  | cons grant gs ih =>
    rw [written_cons, flatMap_cons]
    by_cases hperm : grant.permission &&& Perm.fullControl = 0
    · rw [if_pos hperm, ih, grantToXml, if_pos hperm, nil_append]
    · rw [if_neg hperm, map_cons, Element.renderAll, render_grantElement hperm, ih]

theorem render_policyElement (hne : policy.owner.id ≠ []) :
    (policyElement policy.owner policy.acl.grants).render = toXml policy := by
  rw [policyElement, Element.render, Element.renderAll, render_ownerElement hne,
    renderAll_singleton, aclElement,
    Element.render, renderAll_grants]
  simp [toXml, aclToXml, AccessControlList.grants, startTag, endTag, attrText, policyAttrs, ascii]

/-! ### Plain names make it plain -/

structure PlainGrant (grant : AclGrant) : Prop where
  id : PlainText grant.id
  email : PlainText grant.email
  name : PlainText grant.name

theorem plain_leaf (hn : isName (ascii n) = true) {t : Bytes} (ht : PlainText t) :
    Plain (leaf n t) :=
  .element hn ⟨nodup_nil, by simp [leaf]⟩ ht (by simp [leaf])

theorem plain_node {name : Bytes} {attrs : List (Bytes × Bytes)} (hn : isName name = true)
    (hattrs : PlainAttrs attrs) {children : List Element} (h : ∀ c ∈ children, Plain c) :
    Plain { name := name, attrs := attrs, children := children } :=
  .element hn hattrs .nil h

theorem plain_displayName {t : Bytes} (ht : PlainText t) :
    ∀ c ∈ (if t.isEmpty then [] else [leaf "DisplayName" t]), Plain c := by
  split
  · simp
  · simpa using plain_leaf (show isName (ascii "DisplayName") = true by decide) ht

theorem plain_ownerElement (hid : PlainText owner.id) (hname : PlainText owner.displayName) :
    Plain (ownerElement owner) :=
  plain_node (by decide) (by decide)
    (forall_mem_cons.mpr ⟨plain_leaf (by decide) hid, plain_displayName hname⟩)

theorem plain_uri (h : groupToUri group = some uri) : PlainText uri := by
  cases group with
  | allUsers =>
    cases h
    exact plainText_ascii (by decide +kernel)
  | authenticatedUsers =>
    cases h
    exact plainText_ascii (by decide +kernel)
  | none => cases h
  | other number => cases h

theorem plain_granteeChildren (h : PlainGrant grant) : ∀ c ∈ granteeChildren grant, Plain c := by
  rw [granteeChildren]
  cases grant.type with
  | canonUser => exact forall_mem_cons.mpr ⟨plain_leaf (by decide) h.id, plain_displayName h.name⟩
  | emailUser => simpa using plain_leaf (show isName (ascii "EmailAddress") =
    true by decide) h.email
  | group =>
    cases huri : groupToUri grant.group with
    | none => simp
    | some uri => simpa using plain_leaf (show isName (ascii "URI") =
      true by decide) (plain_uri huri)
  | unknown => simp

theorem mem_permissionLeaves {flags : Perm} (h : obj ∈ permissionLeaves flags) :
    ∃ n ∈ ["FULL_CONTROL", "READ", "WRITE", "READ_ACP", "WRITE_ACP"],
      obj = leaf "Permission" (ascii n) := by
  rw [permissionLeaves] at h
  split at h
  · exact ⟨_, by simp, mem_singleton.mp h⟩
  · simp only [mem_append, mem_ite_nil_right, mem_singleton] at h
    rcases h with ((⟨-, rfl⟩ | ⟨-, rfl⟩) | ⟨-, rfl⟩) | ⟨-, rfl⟩ <;> exact ⟨_, by simp, rfl⟩

theorem plain_permissionLeaves (flags : Perm) : ∀ c ∈ permissionLeaves flags, Plain c := by
  intro c hc
  obtain ⟨n, hn, rfl⟩ := mem_permissionLeaves hc
  refine plain_leaf (by decide) (plainText_ascii ?_)
  clear hc
  revert n
  decide

theorem plainAttrs_grantee (type : GranteeType) : PlainAttrs (granteeAttrs type) := by
  cases type <;> decide +kernel

theorem plain_grantElement (h : PlainGrant grant) : Plain (grantElement grant) :=
  plain_node (by decide) (by decide) (forall_mem_cons.mpr
    ⟨plain_node (by decide) (plainAttrs_grantee _) (plain_granteeChildren h),
      plain_permissionLeaves _⟩)

theorem plain_policyElement (hid : PlainText owner.id) (hname : PlainText owner.displayName)
    (hgs : ∀ grant ∈ gs, PlainGrant grant) : Plain (policyElement owner gs) := by
  have hgrants : ∀ c ∈ (written gs).map grantElement, Plain c := by
    intro c hc
    obtain ⟨grant, hgrant, rfl⟩ := mem_map.mp hc
    exact plain_grantElement (hgs grant (mem_filter.mp hgrant).1)
  refine plain_node (by decide) (by decide +kernel)
    (forall_mem_cons.mpr ⟨plain_ownerElement hid hname, ?_⟩)
  simpa [aclElement] using plain_node (show isName (ascii "AccessControlList") = true by decide)
    (show PlainAttrs [] by decide) hgrants

/-! ### The end tags succeed if every grant can be read -/

theorem passesAll_eq_all (es : List Element) : passesAll xmlEnd es = es.all (passes xmlEnd) := by
  induction es with
  | nil => rfl
  | cons e es ih => rw [passesAll, ih, all_cons]

theorem passes_leaf {t : Bytes} (h : xmlEnd (leaf n t) = true) :
    passes xmlEnd (leaf n t) = true := by
  rw [leaf] at h ⊢
  simp [passes, passesAll, h]

theorem passes_displayName (t : Bytes) :
    passesAll xmlEnd (if t.isEmpty then [] else [leaf "DisplayName" t]) = true := by
  split
  · rfl
  · rw [passesAll_eq_all, all_cons, all_nil, Bool.and_true]
    exact passes_leaf (xmlEnd_of_notMem (show ascii "DisplayName" ∉ _ by decide))

theorem passes_id (t : Bytes) : passes xmlEnd (leaf "ID" t) = true :=
  passes_leaf (xmlEnd_of_notMem (show ascii "ID" ∉ _ by decide))

theorem passes_ownerElement (owner : AclOwner) : passes xmlEnd (ownerElement owner) = true := by
  have hend : xmlEnd (ownerElement owner) = true := rfl
  rw [ownerElement] at hend ⊢
  rw [passes, hend, passesAll, passes_id, passes_displayName]
  rfl

theorem passes_granteeChildren (grant : AclGrant) :
    passesAll xmlEnd (granteeChildren grant) = true := by
  rw [granteeChildren]
  cases grant.type with
  | canonUser =>
    rw [passesAll, passes_id, passes_displayName]
    rfl
  | emailUser =>
    have hemail : passes xmlEnd (leaf "EmailAddress" grant.email) = true :=
      passes_leaf (xmlEnd_of_notMem (show ascii "EmailAddress" ∉ _ by decide))
    simp [passesAll, hemail]
  | group =>
    cases groupToUri grant.group with
    | none => rfl
    | some uri =>
      have huri : passes xmlEnd (leaf "URI" uri) = true :=
        passes_leaf (xmlEnd_of_notMem (show ascii "URI" ∉ _ by decide))
      simp [passesAll, huri]
  | unknown => rfl

theorem passes_permissionLeaves (flags : Perm) :
    passesAll xmlEnd (permissionLeaves flags) = true := by
  rw [passesAll_eq_all, List.all_eq_true]
  intro c hc
  obtain ⟨n, hn, rfl⟩ := mem_permissionLeaves hc
  refine passes_leaf ?_
  clear hc
  revert n
  decide

theorem passes_grantElement (h : grant.permission &&& Perm.fullControl ≠ 0) :
    passes xmlEnd (grantElement grant) = (readGrant grant).isSome := by
  have hgrantee : passes xmlEnd ⟨ascii "Grantee", granteeAttrs grant.type, [],
      granteeChildren grant⟩ = true := by
    rw [passes, passes_granteeChildren, xmlEnd_of_notMem (show ascii "Grantee" ∉ _ by decide)]
    rfl
  rw [← grantOf_grantElement h, ← xmlEnd_grant rfl, grantElement, passes, passesAll, hgrantee,
    passes_permissionLeaves, Bool.and_true, Bool.true_and]

/-- The parser takes the document of a policy exactly if it can read every grant that was written.
-/
theorem passes_policyElement (owner : AclOwner) (gs : List AclGrant) :
    passes xmlEnd (policyElement owner gs) = true ↔
    ∀ grant ∈ written gs, (readGrant grant).isSome := by
  have hpolicy : xmlEnd (policyElement owner gs) = true := rfl
  have hacl : xmlEnd (aclElement gs) = true :=
    xmlEnd_of_notMem (show ascii "AccessControlList" ∉ _ by decide)
  have hlist : passes xmlEnd (aclElement gs) = true ↔
      ∀ grant ∈ written gs, (readGrant grant).isSome := by
    rw [aclElement] at hacl ⊢
    rw [passes, hacl, Bool.and_true, passesAll_eq_all, List.all_map, List.all_eq_true]
    refine forall₂_congr fun grant hgrant => ?_
    rw [Function.comp_apply, passes_grantElement (by simpa using (mem_filter.mp hgrant).2)]
  rw [← hlist]
  rw [policyElement] at hpolicy ⊢
  rw [passes, hpolicy, passesAll, passesAll, passesAll, passes_ownerElement]
  simp

/-- A policy of plain text is parsed to what its written grants are read as. -/
theorem parsePolicy_toXml {expat : Reader} (hexpat : expat.Lawful) (hne : policy.owner.id ≠ [])
    (hid : PlainText policy.owner.id) (hname : PlainText policy.owner.displayName)
    (hgs : ∀ grant ∈ policy.acl.grants, PlainGrant grant) :
    parsePolicy expat (toXml policy) = if ∀ grant ∈ written policy.acl.grants,
      (readGrant grant).isSome then
        some { acl := ((written policy.acl.grants).filterMap readGrant).foldl
                 AccessControlList.addGrant {}
               owner := policy.owner } else none := by
  rw [parsePolicy, ← render_policyElement hne,
    parse_render hexpat (plain_policyElement hid hname hgs),
    ← policyOf_policyElement]
  simp only [passes_policyElement]
  split
  · have hroot : (policyElement policy.owner policy.acl.grants).name =
        ascii "AccessControlPolicy" := rfl
    simp [hroot]
  · rfl

end AclXml

end RadosGateway
