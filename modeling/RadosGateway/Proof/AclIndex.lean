import RadosGateway.Base.Index
import RadosGateway.Acl

/-!
# The index of an access control list

The two maps of a list are its index: for each grantee the permissions of all its grants.
`add_grant` extends the list and the index alike. -/

namespace RadosGateway

open Text List Option

inductive Grantee
  | user (id : Bytes)
  | group (group : AclGroup)
  deriving DecidableEq

def AclGrant.grantee (grant : AclGrant) : Grantee :=
  match grant.type with
  | .group => .group grant.group
  | _ => .user (grant.getId.getD [])

def AclGrant.entry (grant : AclGrant) : Grantee × Perm := (grant.grantee, grant.permission)

def permsOf (grants : List AclGrant) : Grantee → Option Perm :=
  Index.ofList (· ||| ·) (grants.map AclGrant.entry)

namespace AccessControlList

def grants (acl : AccessControlList) : List AclGrant := acl.grantMap.map Prod.snd

def lookup (acl : AccessControlList) : Grantee → Option Perm
  | .user id => acl.userMap id
  | .group group => acl.groupMap group

def Indexed (acl : AccessControlList) : Prop := acl.lookup = permsOf acl.grants

theorem orInto_eq {κ : Type} [DecidableEq κ] (m : κ → Option Perm) (key : κ) (perm : Perm) (k : κ) :
    orInto m key perm k = Option.merge (· ||| ·) (m k) (Index.single (key, perm) k) := by
  rw [orInto, Index.single]
  by_cases heq : key = k
  · rw [heq, Function.update_self, if_pos rfl]
    cases m k with
    | none => simp [Option.merge]
    | some p => rfl
  · rw [Function.update_of_ne (Ne.symm heq), if_neg heq, merge_none_right]

/-- Indexing a grant adds its permission to that of its grantee, and to no other. -/
theorem lookup_indexGrant (acl : AccessControlList) (grant : AclGrant) (who : Grantee) :
    (acl.indexGrant grant).lookup who = Option.merge (· ||| ·) (acl.lookup who)
    (Index.single grant.entry who) := by
  have huser : grant.type ≠ .group → (acl.indexGrant grant).lookup who =
      Option.merge (· ||| ·) (acl.lookup who) (Index.single grant.entry who) := by
    intro htype
    have hgrant : acl.indexGrant grant =
        { acl with userMap := orInto acl.userMap (grant.getId.getD []) grant.permission } := by
      rw [indexGrant]
      split
      · contradiction
      · rfl
    have hentry : grant.entry = (.user (grant.getId.getD []), grant.permission) := by
      rw [AclGrant.entry, AclGrant.grantee]
      split
      · contradiction
      · rfl
    rw [hgrant, hentry]
    cases who with
    | user id =>
      refine (orInto_eq _ _ _ _).trans ?_
      simp [lookup, Index.single]
    | group group => simp [lookup, Index.single, merge_none_right]
  by_cases htype : grant.type = .group
  · have hentry : grant.entry = (.group grant.group, grant.permission) := by
      rw [AclGrant.entry, AclGrant.grantee, htype]
    rw [indexGrant, htype, hentry]
    cases who with
    | user id => simp [lookup, Index.single, merge_none_right]
    | group group =>
      refine (orInto_eq _ _ _ _).trans ?_
      simp [lookup, Index.single]
  · exact huser htype

theorem grantMap_indexGrant (acl : AccessControlList) (grant : AclGrant) :
    (acl.indexGrant grant).grantMap = acl.grantMap := by
  rw [indexGrant]
  split <;> rfl

theorem perm_insertGrant (e : Bytes × AclGrant) (grantMap : List (Bytes × AclGrant)) :
    (insertGrant e grantMap).Perm (e :: grantMap) :=
  perm_orderedInsert _ _ _

theorem perm_grants_addGrant (acl : AccessControlList) (grant : AclGrant) :
    (acl.addGrant grant).grants.Perm (grant :: acl.grants) := by
  rw [addGrant, grants, grantMap_indexGrant]
  exact (perm_insertGrant _ _).map Prod.snd

theorem lookup_addGrant (acl : AccessControlList) (grant : AclGrant) (who : Grantee) :
    (acl.addGrant grant).lookup who = Option.merge (· ||| ·) (acl.lookup who)
    (Index.single grant.entry who) := by
  rw [addGrant, lookup_indexGrant]
  cases who <;> rfl

variable (gs : List AclGrant)

theorem perm_grants_foldl (acl : AccessControlList) :
    (gs.foldl addGrant acl).grants.Perm (gs ++ acl.grants) := by
  induction gs generalizing acl with
  | nil => exact List.Perm.refl _
  | cons grant gs ih =>
    refine (ih (acl.addGrant grant)).trans ?_
    refine ((perm_grants_addGrant acl grant).append_left gs).trans ?_
    exact perm_middle

theorem lookup_foldl (acl : AccessControlList) (who : Grantee) :
    (gs.foldl addGrant acl).lookup who = Option.merge (· ||| ·) (acl.lookup who) (permsOf gs who) :=
  Index.foldl_eq_merge _ lookup_addGrant gs acl who

theorem permsOf_perm {gs gs' : List AclGrant} (h : gs.Perm gs') : permsOf gs = permsOf gs' :=
  Index.ofList_perm _ (h.map _)

theorem permsOf_cons (grant : AclGrant) (gs : List AclGrant) (who : Grantee) :
    permsOf (grant :: gs) who =
      Option.merge (· ||| ·) (Index.single grant.entry who) (permsOf gs who) :=
  Index.ofList_cons _ _ _ _

def Granted (held : Grantee → Option Perm) (gs : List AclGrant) : Prop :=
  ∀ who p, held who = some p → ∃ q, permsOf gs who = some q ∧ p ||| q = q

variable {acl : AccessControlList}

theorem indexed_foldl_iff (hempty : acl.grants = []) (gs : List AclGrant) :
    (gs.foldl addGrant acl).Indexed ↔ Granted acl.lookup gs := by
  have hgrants : permsOf (gs.foldl addGrant acl).grants = permsOf gs := by
    rw [permsOf_perm (perm_grants_foldl gs acl), hempty, append_nil]
  rw [Indexed, hgrants, funext_iff]
  refine forall_congr' fun who => ?_
  rw [lookup_foldl]
  exact Index.merge_eq_right_iff _

theorem indexed_addGrant (h : acl.Indexed) (grant : AclGrant) : (acl.addGrant grant).Indexed := by
  funext who
  rw [lookup_addGrant, h, permsOf_perm (perm_grants_addGrant acl grant), permsOf_cons]
  exact (commutative_merge _).comm _ _

def GroupsGranted (acl : AccessControlList) (gs : List AclGrant) : Prop :=
  ∀ group p, acl.groupMap group = some p → ∃ q, permsOf gs (.group group) = some q ∧ p ||| q = q

theorem granted_clearUsers_iff (acl : AccessControlList) (gs : List AclGrant) :
    Granted acl.clearUsers.lookup gs ↔ acl.GroupsGranted gs := by
  constructor
  · intro h group
    exact h (.group group)
  · intro h who
    cases who with
    | user id => rintro p ⟨⟩
    | group group => exact h group

theorem permsOf_cons_of_ne {grant : AclGrant} {who : Grantee} (h : grant.grantee ≠ who)
    (gs : List AclGrant) : permsOf (grant :: gs) who = permsOf gs who := by
  have hsingle : Index.single grant.entry who = none := if_neg h
  rw [permsOf_cons, hsingle, merge_none_left]

theorem indexed_createCanned_iff (owner bucketOwner : AclOwner) (cannedAcl : Bytes)
    (acl : AccessControlList) :
    (acl.createCanned owner bucketOwner cannedAcl).2.Indexed ↔
      acl.GroupsGranted (cannedGrants owner bucketOwner cannedAcl).2 := by
  have hcall : (acl.createCanned owner bucketOwner cannedAcl).2 =
      (AclGrant.setCanon owner.id owner.displayName Perm.fullControl {} ::
        (cannedGrants owner bucketOwner cannedAcl).2).foldl addGrant acl.clearUsers := rfl
  rw [hcall, indexed_foldl_iff rfl, granted_clearUsers_iff]
  refine forall_congr' fun group => ?_
  rw [permsOf_cons_of_ne (by intro heq; cases heq)]

theorem indexed_createFromGrants_iff (h : acl.Indexed) (gs : List AclGrant) :
    (acl.createFromGrants gs).2.Indexed ↔ gs = [] ∨ acl.GroupsGranted gs := by
  cases gs with
  | nil => exact iff_of_true h (Or.inl rfl)
  | cons grant gs =>
    refine (indexed_foldl_iff rfl (grant :: gs)).trans ?_
    rw [granted_clearUsers_iff]
    simp

/-- `create_default` clears the maps, not the grants: the index is right only over grants that the
default covers. -/
theorem indexed_createDefault_iff (id name : Bytes) (acl : AccessControlList) :
    (acl.createDefault id name).Indexed ↔
      ∀ grant ∈ acl.grants, grant.grantee = .user id ∧
      grant.permission ||| Perm.fullControl = Perm.fullControl := by
  obtain ⟨new, hnew⟩ : ∃ new, new = AclGrant.setCanon id name Perm.fullControl {} := ⟨_, rfl⟩
  have hentry : new.entry = (.user id, Perm.fullControl) := by
    rw [hnew]
    rfl
  have hgrants : permsOf (acl.createDefault id name).grants = permsOf (new :: acl.grants) := by
    rw [createDefault, permsOf_perm (perm_grants_addGrant _ _), hnew]
    rfl
  have hlookup : ∀ who, (acl.createDefault id name).lookup who = Index.single new.entry who := by
    intro who
    rw [createDefault, lookup_addGrant, ← hnew]
    cases who <;> exact merge_none_left
  have hindexed : (acl.createDefault id name).Indexed ↔ ∀ who,
      Option.merge (· ||| ·) (permsOf acl.grants who) (Index.single new.entry who) =
        Index.single new.entry who := by
    rw [Indexed, hgrants, funext_iff]
    refine forall_congr' fun who => ?_
    rw [hlookup, permsOf_cons, (commutative_merge _).comm]
    exact eq_comm
  rw [hindexed, hentry]
  constructor
  · intro h grant hgrant
    have hmem : grant.entry ∈ acl.grants.map AclGrant.entry := List.mem_map_of_mem hgrant
    have hwho : grant.grantee = .user id := by
      by_contra hne
      have hnone : permsOf acl.grants grant.grantee = none := by
        have hsame := h grant.grantee
        rwa [Index.single, if_neg (Ne.symm hne), merge_none_right] at hsame
      exact (Index.ofList_eq_none_iff _).mp hnone grant.entry hmem rfl
    refine ⟨hwho, ?_⟩
    have hsame := h (.user id)
    rw [Index.single, if_pos rfl] at hsame
    exact (Index.merge_ofList_eq_iff _).mp hsame grant.entry hmem hwho
  · intro h who
    have hall : ∀ e ∈ acl.grants.map AclGrant.entry,
        e.1 = .user id ∧ e.2 ||| Perm.fullControl = Perm.fullControl := by
      intro e he
      obtain ⟨grant, hgrant, rfl⟩ := List.mem_map.mp he
      exact h grant hgrant
    by_cases hwho : who = .user id
    · rw [hwho, Index.single, if_pos rfl]
      exact (Index.merge_ofList_eq_iff _).mpr fun e he _ => (hall e he).2
    · have hnone : permsOf acl.grants who = none := by
        refine (Index.ofList_eq_none_iff _).mpr fun e he heq => ?_
        exact hwho (heq.symm.trans (hall e he).1)
      rw [hnone, merge_none_left]

def decodedLookup (e : EncodedAcl) (acl : AccessControlList) : Grantee → Option Perm
  | .user id => e.userMap id
  | .group group => if 2 ≤ e.structV then e.groupMap group else acl.groupMap group

theorem perm_foldl_insertGrant (l grantMap : List (Bytes × AclGrant)) :
    (l.foldl (fun grants entry => insertGrant entry grants) grantMap).Perm (l ++ grantMap) := by
  induction l generalizing grantMap with
  | nil => exact List.Perm.refl _
  | cons entry l ih =>
    refine (ih _).trans ?_
    exact ((perm_insertGrant entry grantMap).append_left l).trans perm_middle

theorem grantMap_foldl_indexGrant (acl : AccessControlList) :
    (gs.foldl indexGrant acl).grantMap = acl.grantMap := by
  induction gs generalizing acl with
  | nil => rfl
  | cons grant gs ih => exact (ih _).trans (grantMap_indexGrant acl grant)

/-- The maps of a decoded list are those it was encoded with, whatever its grants; version 1 has no
map of groups, and indexes the grants anew unless its maps were there. -/
theorem indexed_decode_iff (e : EncodedAcl) (acl : AccessControlList) : (acl.decode e).Indexed ↔
      if 2 ≤ e.structV ∨ e.mapsInitialized then
        decodedLookup e acl = permsOf (e.grantMap.map Prod.snd)
      else Granted (decodedLookup e acl) (e.grantMap.map Prod.snd) := by
  obtain ⟨grantMap, hgrantMap⟩ : ∃ grantMap, grantMap =
      e.grantMap.foldl (fun grants entry => insertGrant entry grants) [] := ⟨_, rfl⟩
  have hperms : permsOf (grantMap.map Prod.snd) = permsOf (e.grantMap.map Prod.snd) := by
    have hperm := perm_foldl_insertGrant e.grantMap []
    rw [← hgrantMap, append_nil] at hperm
    exact permsOf_perm (hperm.map _)
  by_cases hversion : 2 ≤ e.structV
  · have hdecode : acl.decode e =
        { userMap := e.userMap, groupMap := e.groupMap, grantMap := grantMap } := by
      rw [decode, if_pos hversion, hgrantMap]
    have hlookup : (acl.decode e).lookup = decodedLookup e acl := by
      funext who
      cases who with
      | user id => rw [hdecode, lookup, decodedLookup]
      | group group => rw [hdecode, lookup, decodedLookup, if_pos hversion]
    rw [if_pos (Or.inl hversion), Indexed, hlookup, hdecode]
    exact Eq.congr_right hperms
  · obtain ⟨read, hread⟩ : ∃ read : AccessControlList, read =
        { userMap := e.userMap, groupMap := acl.groupMap, grantMap := grantMap } := ⟨_, rfl⟩
    have hlookup : read.lookup = decodedLookup e acl := by
      funext who
      cases who with
      | user id => rw [hread, lookup, decodedLookup]
      | group group => rw [hread, lookup, decodedLookup, if_neg hversion]
    have hgrants : permsOf read.grants = permsOf (e.grantMap.map Prod.snd) := by
      rw [grants, hread]
      exact hperms
    by_cases hinit : e.mapsInitialized = true
    · have hdecode : acl.decode e = read := by
        rw [decode, if_neg hversion, if_pos hinit, hread, hgrantMap]
      rw [if_pos (Or.inr hinit), Indexed, hdecode, hlookup, hgrants]
    · have hdecode : acl.decode e = read.grants.foldl indexGrant read := by
        rw [decode, if_neg hversion, if_neg hinit, grants, hread, hgrantMap]
      have hkept : (read.grants.foldl indexGrant read).grants = read.grants :=
        congrArg (List.map Prod.snd) (grantMap_foldl_indexGrant _ _)
      rw [if_neg (by simp [hversion, hinit]), Indexed, hdecode, hkept, funext_iff]
      refine forall_congr' fun who => ?_
      have hfold : (read.grants.foldl indexGrant read).lookup who =
          Option.merge (· ||| ·) (read.lookup who) (permsOf read.grants who) :=
        Index.foldl_eq_merge _ lookup_indexGrant _ _ _
      rw [hfold, hlookup, hgrants]
      exact Index.merge_eq_right_iff _

def Keeps (acl : AccessControlList) : Call → Prop
  | .addGrant _ => True
  | .createDefault id _ => ∀ grant ∈ acl.grants, grant.grantee = .user id ∧
      grant.permission ||| Perm.fullControl = Perm.fullControl
  | .createCanned owner bucketOwner cannedAcl =>
    acl.GroupsGranted (cannedGrants owner bucketOwner cannedAcl).2
  | .createFromGrants gs => gs = [] ∨ acl.GroupsGranted gs
  | .decode e =>
    if 2 ≤ e.structV ∨ e.mapsInitialized then
      decodedLookup e acl = permsOf (e.grantMap.map Prod.snd)
    else Granted (decodedLookup e acl) (e.grantMap.map Prod.snd)

theorem indexed_call_iff (h : acl.Indexed) (c : Call) : (acl.call c).Indexed ↔ acl.Keeps c := by
  cases c with
  | addGrant grant => exact iff_of_true (indexed_addGrant h grant) trivial
  | createDefault id name => exact indexed_createDefault_iff id name acl
  | createCanned owner bucketOwner cannedAcl =>
    exact indexed_createCanned_iff owner bucketOwner cannedAcl acl
  | createFromGrants gs => exact indexed_createFromGrants_iff h gs
  | decode e => exact indexed_decode_iff e acl

/-- Along a run the index is right after every call exactly if every call keeps it. -/
theorem indexed_run_iff (calls : List Call) :
    (∀ made, made <+: calls → (made.foldl call {}).Indexed) ↔
      ∀ made c, made ++ [c] <+: calls → (made.foldl call {}).Keeps c := by
  have hcall : ∀ (made : List Call) (c : Call),
      (made ++ [c]).foldl call {} = (made.foldl call {}).call c := by
    intro made c
    rw [foldl_append, foldl_cons, foldl_nil]
  constructor
  · intro h made c hmade
    rw [← indexed_call_iff (h made ((prefix_append made [c]).trans hmade)), ← hcall]
    exact h _ hmade
  · intro h made hmade
    induction made using List.reverseRecOn with
    | nil =>
      funext who
      cases who <;> rfl
    | append_singleton made c ih =>
      rw [hcall, indexed_call_iff (ih ((prefix_append made [c]).trans hmade))]
      exact h made c hmade

def publicThenPrivate : AccessControlList :=
  ([.createCanned { id := ascii "o" } { id := ascii "o" } (ascii "public-read"),
    .createCanned { id := ascii "o" } { id := ascii "o" } (ascii "private")] : List Call).foldl
      call {}

/-- A list that was public and is made private still lets every user read. -/
theorem stale_group_after_private : publicThenPrivate.groupMap .allUsers = some Perm.read ∧
      publicThenPrivate.grants.map AclGrant.grantee = [.user (ascii "o")] ∧
      ¬ publicThenPrivate.Indexed := by
  refine ⟨by decide, by decide, fun hindexed => ?_⟩
  have hread : publicThenPrivate.lookup (.group .allUsers) = some Perm.read := by decide
  have hnone : permsOf publicThenPrivate.grants (.group .allUsers) = none := by decide
  rw [hindexed, hnone] at hread
  cases hread

end AccessControlList

end RadosGateway
