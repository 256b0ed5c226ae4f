import RadosGateway.Proof.AclXml

/-!
# Round trips of access control documents

A policy whose names are plain text comes back from its document exactly if its S3 grants are to
users known by their id, and what is read of them, the first permission of each, adds up to what was
granted. -/

namespace RadosGateway.AclXml

open Text Xml List Option

variable {expat : Reader} {users : Bytes → Option Bytes} {grant : AclGrant} {gs : List AclGrant}

def total (f : AclGrant → Perm) (who : Grantee) (gs : List AclGrant) : Perm :=
  gs.foldr (fun grant perms => if grant.grantee = who then f grant ||| perms else perms) 0

theorem total_cons (f : AclGrant → Perm) (who : Grantee) (grant : AclGrant) (gs : List AclGrant) :
    total f who (grant :: gs) = (if grant.grantee = who then f grant
      else 0) ||| total f who gs := by
  rw [total, foldr_cons, ← total]
  split
  · rfl
  · exact BitVec.zero_or.symm

theorem total_append (f : AclGrant → Perm) (who : Grantee) (gs gs' : List AclGrant) :
    total f who (gs ++ gs') = total f who gs ||| total f who gs' := by
  induction gs with
  | nil => exact BitVec.zero_or.symm
  | cons grant gs ih => rw [cons_append, total_cons, total_cons, ih, BitVec.or_assoc]

variable {f : AclGrant → Perm} {who : Grantee} {owner parsedOwner : AclOwner}

theorem total_eq_zero
    (h : ∀ grant ∈ gs, grant.grantee = who → f grant = 0) : total f who gs = 0 := by
  induction gs with
  | nil => rfl
  | cons grant gs ih =>
    obtain ⟨hgrant, hgs⟩ := forall_mem_cons.mp h
    rw [total_cons, ih hgs]
    split
    · rename_i hwho
      rw [hgrant hwho]
      rfl
    · rfl

theorem total_map {g : AclGrant → AclGrant}
    (h : ∀ grant ∈ gs, (g grant).grantee = grant.grantee) :
    total f who (gs.map g) = total (f ∘ g) who gs := by
  induction gs with
  | nil => rfl
  | cons grant gs ih =>
    obtain ⟨hgrant, hgs⟩ := forall_mem_cons.mp h
    rw [map_cons, total_cons, total_cons, hgrant, ih hgs]
    rfl

theorem getD_permsOf (gs : List AclGrant) (who : Grantee) :
    (permsOf gs who).getD 0 = total AclGrant.permission who gs := by
  induction gs with
  | nil => rfl
  | cons grant gs ih =>
    rw [AccessControlList.permsOf_cons, total_cons, ← ih, Index.single]
    by_cases hwho : grant.entry.1 = who
    · rw [if_pos hwho, if_pos (show grant.grantee = who from hwho)]
      cases permsOf gs who with
      | none => exact (BitVec.or_zero).symm
      | some p => rfl
    · rw [if_neg hwho, if_neg (show ¬ grant.grantee = who from hwho), merge_none_left]
      exact BitVec.zero_or.symm

theorem getD_lookup_foldl (gs : List AclGrant) (who : Grantee) :
    ((gs.foldl AccessControlList.addGrant {}).lookup who).getD 0 =
      total AclGrant.permission who gs := by
  have hempty : ({} : AccessControlList).lookup who = none := by
    cases who <;> rfl
  rw [AccessControlList.lookup_foldl, hempty, merge_none_left, getD_permsOf]

theorem total_perm {gs gs' : List AclGrant} (h : gs.Perm gs') (f : AclGrant → Perm)
    (who : Grantee) :
    total f who gs = total f who gs' := by
  have hcomm : LeftCommutative fun (grant : AclGrant) (perms : Perm) =>
      if grant.grantee = who then f grant ||| perms else perms := by
    constructor
    intro grant grant' perms
    split <;> split <;> try rfl
    rw [← BitVec.or_assoc, ← BitVec.or_assoc, BitVec.or_comm (f grant)]
  exact h.foldr_eq 0

theorem mapM_eq_some_map {α β : Type} {f : α → Option β} {g : α → β} {l : List α}
    (h : ∀ a ∈ l, f a = some (g a)) : l.mapM f = some (l.map g) := by
  induction l with
  | nil => rfl
  | cons a l ih =>
    obtain ⟨ha, hl⟩ := forall_mem_cons.mp h
    rw [mapM_cons, ha, ih hl]
    rfl

theorem mapM_eq_none {α β : Type} {f : α → Option β} {l : List α} {a : α} (ha : a ∈ l)
    (h : f a = none) : l.mapM f = none := by
  induction l with
  | nil => cases ha
  | cons b l ih =>
    rw [mapM_cons]
    rcases mem_cons.mp ha with rfl | ha
    · rw [h]
      rfl
    · rw [ih ha]
      cases f b <;> rfl

/-- The document is accepted, and the policy rebuilt from it has the same owner and grants the same
permissions to the same grantees. -/
def RoundTrips (expat : Reader) (users : Bytes → Option Bytes) (policy : AccessControlPolicy) :
    Prop :=
  ∃ parsed rebuilt, parsePolicy expat (toXml policy) = some parsed ∧
    rebuild users policy.owner parsed = .ok rebuilt ∧ rebuilt.owner.id = policy.owner.id ∧
    ∀ who, (rebuilt.acl.lookup who).getD 0 = (policy.acl.lookup who).getD 0

structure Known (users : Bytes → Option Bytes) (owner : AclOwner) (gs : List AclGrant) : Prop where
  owner : (users owner.id).isSome
  grantees : ∀ grant ∈ gs, grant.type = .canonUser → (users grant.id).isSome
  empty : users [] = none

theorem rebuild_grants {displayName : Bytes}
    (hid : parsedOwner.id = owner.id) (howner : users owner.id = some displayName)
    (rs : List AclGrant) :
    rebuild users owner ⟨rs.foldl AccessControlList.addGrant {}, parsedOwner⟩ =
      match ((rs.foldl AccessControlList.addGrant {}).grants.mapM (rebuildGrant users)) with
      | none => .error (-22)
      | some grants => .ok ⟨(grants.filterMap id).foldl AccessControlList.addGrant {},
          { id := owner.id, displayName := displayName }⟩ := by
  rw [rebuild, if_neg (by simp [hid])]
  simp only [howner]
  rfl

theorem perm_grants (rs : List AclGrant) :
    (rs.foldl AccessControlList.addGrant {}).grants.Perm rs := by
  have hperm := AccessControlList.perm_grants_foldl rs {}
  rwa [show ({} : AccessControlList).grants = [] from rfl, append_nil] at hperm

def readCanon (grant : AclGrant) : AclGrant :=
  { type := .canonUser, permission := firstPerm grant.permission, id := grant.id,
    name := grant.name }

/-- A grant that survives the rebuilding is one to a user. -/
theorem canonUser_of_rebuilt (hempty : users [] = none) {read : AclGrant}
    (hread : readGrant grant = some read)
    {rebuilt : Option AclGrant} (hrebuilt : rebuildGrant users read = some rebuilt) :
    grant.type = .canonUser := by
  rw [readGrant] at hread
  cases htype : grant.type with
  | canonUser => rfl
  | emailUser =>
    rw [htype] at hread
    cases hread
    simp [rebuildGrant, hempty] at hrebuilt
  | group =>
    rw [htype] at hread
    dsimp only at hread
    split at hread
    · cases hread
      simp [rebuildGrant, groupToUri] at hrebuilt
    · cases hread
  | unknown =>
    rw [htype] at hread
    cases hread

theorem readGrant_canon (h : grant.type = .canonUser) :
    readGrant grant = some (readCanon grant) := by
  rw [readGrant, h]
  rfl

theorem grantee_canon (h : grant.type = .canonUser) : grant.grantee = .user grant.id := by
  rw [AclGrant.grantee, AclGrant.getId, h]
  rfl

theorem rebuildGrant_readCanon (h : (users grant.id).isSome) :
    rebuildGrant users (readCanon grant) = some (some (AclGrant.setCanon grant.id
      ((users grant.id).getD []) (firstPerm grant.permission) {})) := by
  obtain ⟨displayName, hd⟩ := isSome_iff_exists.mp h
  change (users grant.id).map _ = _
  rw [hd]
  rfl

/-- A rebuilding that succeeds has only read grants to users. -/
theorem canonUser_of_rebuild {ws : List AclGrant} {rebuilt : AccessControlPolicy} {read : AclGrant}
    (hempty : users [] = none) (hid : parsedOwner.id = owner.id) (howner : (users owner.id).isSome)
    (hrebuilt : rebuild users owner
      ⟨(ws.filterMap readGrant).foldl AccessControlList.addGrant {}, parsedOwner⟩ = .ok rebuilt)
    (hgrant : grant ∈ ws) (hread : readGrant grant = some read) : grant.type = .canonUser := by
  obtain ⟨displayName, hd⟩ := isSome_iff_exists.mp howner
  have hmem : read ∈ ((ws.filterMap readGrant).foldl AccessControlList.addGrant {}).grants :=
    (perm_grants _).mem_iff.mpr (mem_filterMap.mpr ⟨grant, hgrant, hread⟩)
  cases hsome : rebuildGrant users read with
  | none =>
    rw [rebuild_grants hid hd, mapM_eq_none hmem hsome] at hrebuilt
    cases hrebuilt
  | some rebuiltGrant => exact canonUser_of_rebuilt hempty hread hsome

/-- Grants to known users are rebuilt with the names of the users. -/
theorem rebuild_canon {ws : List AclGrant}
    (hid : parsedOwner.id = owner.id) (howner : (users owner.id).isSome)
    (hws : ∀ grant ∈ ws, grant.type = .canonUser ∧ (users grant.id).isSome) :
    ∃ rebuilt, rebuild users owner
        ⟨(ws.filterMap readGrant).foldl AccessControlList.addGrant {}, parsedOwner⟩ = .ok rebuilt ∧
      rebuilt.owner.id = owner.id ∧ ∀ who, (rebuilt.acl.lookup who).getD 0 =
        total (fun grant => firstPerm grant.permission) who ws := by
  obtain ⟨displayName, hd⟩ := isSome_iff_exists.mp howner
  obtain ⟨rebuildOf, hrebuildOf⟩ : ∃ f : AclGrant → AclGrant, f = fun read =>
      AclGrant.setCanon read.id ((users read.id).getD []) read.permission {} := ⟨_, rfl⟩
  have hrs : ws.filterMap readGrant = ws.map readCanon := by
    rw [← filterMap_eq_map]
    exact filterMap_congr fun grant hgrant => readGrant_canon (hws grant hgrant).1
  have hperm := perm_grants (ws.map readCanon)
  obtain ⟨rs, hall⟩ : ∃ rs, rs = ((ws.map readCanon).foldl AccessControlList.addGrant {}).grants :=
    ⟨_, rfl⟩
  rw [← hall] at hperm
  have hread : ∀ read ∈ rs, ∃ grant ∈ ws, readCanon grant = read := by
    intro read hmem
    exact List.mem_map.mp (hperm.mem_iff.mp hmem)
  have hmap : rs.mapM (rebuildGrant users) = some (rs.map fun read => some (rebuildOf read)) := by
    refine mapM_eq_some_map fun read hmem => ?_
    obtain ⟨grant, hgrant, rfl⟩ := hread read hmem
    rw [hrebuildOf]
    exact rebuildGrant_readCanon (hws grant hgrant).2
  have hsome : (rs.map fun read => some (rebuildOf read)).filterMap id = rs.map rebuildOf := by
    rw [filterMap_map, ← filterMap_eq_map]
    rfl
  refine ⟨⟨(rs.map rebuildOf).foldl AccessControlList.addGrant {}, ⟨owner.id, displayName⟩⟩, ?_,
    rfl, ?_⟩
  · rw [rebuild_grants hid hd, hrs, ← hall, hmap]
    simp only [hsome]
  · intro who
    have hgrantees : ∀ read ∈ rs, (rebuildOf read).grantee = read.grantee := by
      intro read hmem
      obtain ⟨grant, -, rfl⟩ := hread read hmem
      rw [hrebuildOf]
      rfl
    have hcanon : ∀ grant ∈ ws, (readCanon grant).grantee = grant.grantee := by
      intro grant hgrant
      rw [grantee_canon (hws grant hgrant).1]
      rfl
    have hkept : AclGrant.permission ∘ rebuildOf = AclGrant.permission := by
      rw [hrebuildOf]
      rfl
    rw [getD_lookup_foldl, total_map hgrantees, hkept, total_perm hperm, total_map hcanon]
    rfl

section Filled

variable (hexpat : expat.Lawful) (hne : owner.id ≠ []) (hid : PlainText owner.id)
  (hname : PlainText owner.displayName) (hgs : ∀ grant ∈ gs, PlainGrant grant)
include hexpat hne hid hname hgs

theorem parsePolicy_filled :
    parsePolicy expat (toXml ⟨gs.foldl AccessControlList.addGrant {}, owner⟩) =
    if ∀ grant ∈ written (gs.foldl AccessControlList.addGrant {}).grants,
      (readGrant grant).isSome then
      some ⟨((written (gs.foldl AccessControlList.addGrant {}).grants).filterMap readGrant).foldl
        AccessControlList.addGrant {}, owner⟩ else none :=
  parsePolicy_toXml hexpat hne hid hname fun grant h => hgs grant ((perm_grants gs).mem_iff.mp h)

theorem roundTrips_of_total (hknown : Known users owner gs)
    (hcanon : ∀ grant ∈ written gs, grant.type = .canonUser)
    (htotal : ∀ who, total (fun grant => firstPerm grant.permission) who (written gs) =
      total AclGrant.permission who gs) :
    RoundTrips expat users ⟨gs.foldl AccessControlList.addGrant {}, owner⟩ := by
  have hwritten : (written (gs.foldl AccessControlList.addGrant {}).grants).Perm (written gs) :=
    (perm_grants gs).filter _
  have hws : ∀ grant ∈ written (gs.foldl AccessControlList.addGrant {}).grants,
      grant.type = .canonUser ∧ (users grant.id).isSome := by
    intro grant h
    have hmem := hwritten.mem_iff.mp h
    exact ⟨hcanon grant hmem, hknown.grantees grant (mem_filter.mp hmem).1 (hcanon grant hmem)⟩
  have hreadable : ∀ grant ∈ written (gs.foldl AccessControlList.addGrant {}).grants,
      (readGrant grant).isSome := by
    intro grant h
    rw [readGrant_canon (hws grant h).1]
    rfl
  have hparse := parsePolicy_filled hexpat hne hid hname hgs
  rw [if_pos hreadable] at hparse
  obtain ⟨rebuilt, hrebuilt, howner, hlookup⟩ := rebuild_canon rfl hknown.owner hws
  refine ⟨_, rebuilt, hparse, hrebuilt, howner, fun who => ?_⟩
  rw [hlookup, total_perm hwritten, htotal, getD_lookup_foldl]

end Filled

def everyone (id : Bytes) : Option Bytes := if id.isEmpty then none else some []

namespace Sample

def bucketOwner : AclOwner := { id := ascii "o", displayName := ascii "O" }

/-- One user has two grants, of which the first is not read whole, and a name with brackets. -/
def grants : List AclGrant :=
  [AclGrant.setCanon (ascii "o") (ascii "O") Perm.fullControl {},
    AclGrant.setCanon (ascii "u") (ascii "a]b>c") (Perm.read ||| Perm.write) {},
    AclGrant.setCanon (ascii "u") (ascii "a]b>c") Perm.write {}]

theorem plain_o : PlainText (ascii "o") := plainText_ascii (by decide)

theorem plain_O : PlainText (ascii "O") := plainText_ascii (by decide)

theorem plain_brackets : PlainText (ascii "a]b>c") :=
  ⟨⟨['a', ']', 'b', '>', 'c'], by decide +kernel⟩, by decide +kernel, by decide +kernel,
    by decide +kernel⟩

theorem plainGrant_grants : ∀ grant ∈ grants, PlainGrant grant := by
  have howner : PlainGrant (AclGrant.setCanon (ascii "o") (ascii "O") Perm.fullControl {}) :=
    ⟨plain_o, .nil, plain_O⟩
  have huser (perm : Perm) : PlainGrant (AclGrant.setCanon (ascii "u") (ascii "a]b>c") perm {}) :=
    ⟨plainText_ascii (by decide), .nil, plain_brackets⟩
  intro grant hgrant
  simp only [grants, mem_cons, not_mem_nil, or_false] at hgrant
  rcases hgrant with rfl | rfl | rfl
  · exact howner
  · exact huser _
  · exact huser _

theorem known_grants : Known everyone bucketOwner grants := ⟨by decide, by decide, rfl⟩

theorem canonUser_written : ∀ grant ∈ written grants, grant.type = .canonUser := by decide

theorem total_grants (who : Grantee) :
    total (fun grant => firstPerm grant.permission) who (written grants) =
    total AclGrant.permission who grants := by
  by_cases howner : who = .user (ascii "o")
  · subst howner
    decide
  by_cases huser : who = .user (ascii "u")
  · subst huser
    decide
  · have hothers : ∀ grant ∈ grants, grant.grantee = .user (ascii "o") ∨
        grant.grantee = .user (ascii "u") := by
      decide
    have hnot : ∀ grant ∈ grants, grant.grantee ≠ who := by
      rintro grant hgrant rfl
      exact (hothers grant hgrant).elim howner huser
    have hwritten : ∀ grant ∈ written grants, grant.grantee ≠ who :=
      fun grant hgrant => hnot grant (mem_filter.mp hgrant).1
    rw [total_eq_zero fun grant hgrant h => absurd h (hwritten grant hgrant),
      total_eq_zero fun grant hgrant h => absurd h (hnot grant hgrant)]

end Sample

def publicRead : AccessControlPolicy :=
  ⟨[AclGrant.setCanon (ascii "o") (ascii "O") Perm.fullControl {},
    AclGrant.setGroup .allUsers Perm.read {}].foldl AccessControlList.addGrant {},
    { id := ascii "o", displayName := ascii "O" }⟩

theorem plainGrant_publicRead : ∀ grant ∈ publicRead.acl.grants, PlainGrant grant := by
  have hgrants : publicRead.acl.grants = [AclGrant.setGroup .allUsers Perm.read {},
      AclGrant.setCanon (ascii "o") (ascii "O") Perm.fullControl {}] := by decide
  rw [hgrants]
  refine forall_mem_cons.mpr ⟨⟨.nil, .nil, .nil⟩, forall_mem_cons.mpr ⟨?_, by simp⟩⟩
  exact ⟨Sample.plain_o, .nil, Sample.plain_O⟩

end RadosGateway.AclXml
