import RadosGateway.Permission
import RadosGateway.Proof.AclIndex

/-!
# Who is let in

A request is allowed what its user is granted and the user's mask leaves. Two things are granted
that should not be: a policy of the base class takes the anonymous user for an authenticated one,
and a grant on the objects of a container gives the bit for its access control policy too. -/

namespace RadosGateway.AccessControlPolicy

open Text AccessControlList

def ofGrants (owner : AclOwner) (grants : List AclGrant) : AccessControlPolicy :=
  ⟨grants.foldl addGrant {}, owner⟩

section Grants

variable (owner : AclOwner) (grants : List AclGrant) (uid : Bytes)

def GrantedTo (who : Grantee) (i : Nat) : Prop :=
  ∃ grant ∈ grants, grant.grantee = who ∧ grant.permission.getLsbD i = true

def Held (authenticated : Prop) (i : Nat) : Prop :=
  GrantedTo grants (.user uid) i ∨ GrantedTo grants (.group .allUsers) i ∨
    (authenticated ∧ GrantedTo grants (.group .authenticatedUsers) i)

/-- The bits of `porting_acl.h`: read, write, read and write of the policy, and read and write of
the objects in a container, which stand for the first two. -/
def Granted (i : Nat) : Prop :=
  Held grants uid (uid ≠ userAnonId) i ∨ ((i = 2 ∨ i = 3) ∧ uid = owner.id) ∨
    (i = 0 ∧ Held grants uid (uid ≠ userAnonId) 4) ∨ (i = 1 ∧ Held grants uid (uid ≠ userAnonId) 5)

def Mistaken (cls : PolicyClass) (i : Nat) : Prop :=
  cls = .base ∧ uid = userAnonId ∧ GrantedTo grants (.group .authenticatedUsers) i

def Slips (cls : PolicyClass) (i : Nat) : Prop :=
  Mistaken grants uid cls i ∨
    ((i = 0 ∨ i = 2) ∧ Mistaken grants uid cls 4) ∨ ((i = 1 ∨ i = 3) ∧ Mistaken grants uid cls 5) ∨
    (i = 2 ∧ Held grants uid (uid ≠ userAnonId) 4) ∨ (i = 3 ∧ Held grants uid (uid ≠ userAnonId) 5)

end Grants

def collected (cls : PolicyClass) (policy : AccessControlPolicy) (id : Bytes) : Perm :=
  (policy.acl.userMap id).getD 0 ||| (if id = policy.owner.id then Perm.readAcp ||| Perm.writeAcp
    else 0#32) |||
    (policy.acl.groupMap .allUsers).getD 0 |||
    (if compareGroupName cls id .allUsers then 0#32
      else (policy.acl.groupMap .authenticatedUsers).getD 0)

theorem or_and_eq_of_and_eq {p mask : Perm} (q : Perm) (h : p &&& mask = mask) :
    (p ||| q) &&& mask = mask := by
  have hsub : (p ||| q) &&& (p &&& mask) = p &&& mask := by
    rw [← BitVec.and_assoc]
    congr 1
    ext i
    rw [BitVec.getElem_and, BitVec.getElem_or]
    cases p[i] <;> simp
  rwa [h] at hsub

/-- `get_perm` in closed form. -/
theorem getPerm_eq (cls : PolicyClass) (policy : AccessControlPolicy) (id : Bytes) (mask : Perm) :
    policy.getPerm cls id mask = collected cls policy id &&& mask := by
  rw [getPerm, collected]
  generalize howner : (if id = policy.owner.id then Perm.readAcp ||| Perm.writeAcp else 0#32) = own
  have hown : (if id = policy.owner.id then
      policy.acl.getPerm id mask ||| mask &&& (Perm.readAcp ||| Perm.writeAcp)
        else policy.acl.getPerm id mask) =
        ((policy.acl.userMap id).getD 0 ||| own) &&& mask := by
    rw [AccessControlList.getPerm, ← howner]
    split_ifs
    · rw [BitVec.and_or_distrib_right, BitVec.and_comm mask]
    · rw [BitVec.or_zero]
  rw [hown]
  generalize (policy.acl.userMap id).getD 0 ||| own = held
  by_cases hall : held &&& mask = mask
  · rw [if_pos hall, BitVec.or_assoc, or_and_eq_of_and_eq _ hall, hall]
  · have hmore : held &&& mask &&& mask ≠ mask := by rwa [BitVec.and_assoc, BitVec.and_self]
    rw [if_neg hall, if_pos hmore, AccessControlList.getGroupPerm, AccessControlList.getGroupPerm]
    cases compareGroupName cls id .allUsers with
    | false => simp only [Bool.not_false, if_true, Bool.false_eq_true, if_false,
      BitVec.and_or_distrib_right]
    | true => simp only [Bool.not_true, Bool.false_eq_true, if_false, if_true, BitVec.or_zero,
        BitVec.and_or_distrib_right]

variable (i : Nat) (p : Perm) (who : Grantee)

theorem and_twoPow_ne_zero {i : Nat} (hi : i < 32) : p &&& BitVec.twoPow 32 i ≠ 0 ↔
    p.getLsbD i = true := by
  rw [BitVec.and_twoPow]
  split_ifs with h
  · simp only [h, iff_true]
    intro hzero
    have := congrArg (fun b : Perm => b.getLsbD i) hzero
    simp [hi] at this
  · simp [h]

theorem getLsbD_iff_of_lt {c : Perm} (hc : c.toNat < 16) {P : Nat → Prop} (hP : ∀ i, P i → i < 4)
    (hlow : ∀ i < 4, c.getLsbD i = true ↔ P i) (i : Nat) : c.getLsbD i = true ↔ P i := by
  by_cases hi : i < 4
  · exact hlow i hi
  · have hpow : 16 ≤ 2 ^ i := Nat.pow_le_pow_right Nat.two_pos (not_lt.mp hi)
    have hhigh : c.getLsbD i = false := Nat.testBit_lt_two_pow (hc.trans_le hpow)
    rw [hhigh]
    exact iff_of_false Bool.false_ne_true fun h => hi (hP i h)

theorem getLsbD_acp : (Perm.readAcp ||| Perm.writeAcp).getLsbD i = true ↔ i = 2 ∨ i = 3 :=
  getLsbD_iff_of_lt (c := Perm.readAcp ||| Perm.writeAcp) (P := fun i =>
    i = 2 ∨ i = 3) (by decide) (by omega)
    (by decide) i

theorem getLsbD_write : (Perm.write ||| Perm.writeAcp).getLsbD i = true ↔ i = 1 ∨ i = 3 :=
  getLsbD_iff_of_lt (c := Perm.write ||| Perm.writeAcp) (P := fun i =>
    i = 1 ∨ i = 3) (by decide) (by omega)
    (by decide) i

theorem getLsbD_read : (Perm.read ||| Perm.readAcp).getLsbD i = true ↔ i = 0 ∨ i = 2 :=
  getLsbD_iff_of_lt (c := Perm.read ||| Perm.readAcp) (P := fun i =>
    i = 0 ∨ i = 2) (by decide) (by omega)
    (by decide) i

theorem getLsbD_ite_or (p extra : Perm) {flag : Perm} {k : Nat} (hk : k < 32)
    (hflag : flag = BitVec.twoPow 32 k)
    (i : Nat) : (if p &&& flag ≠ 0 then p ||| extra else p).getLsbD i = true ↔
      p.getLsbD i = true ∨ (extra.getLsbD i = true ∧ p.getLsbD k = true) := by
  subst hflag
  by_cases h : p.getLsbD k = true
  · rw [if_pos ((and_twoPow_ne_zero p hk).mpr h)]
    simp [h]
  · rw [if_neg fun hne => h ((and_twoPow_ne_zero p hk).mp hne)]
    simp [h]

theorem getLsbD_convertObjs (i : Nat) :
    (convertObjs p).getLsbD i = true ↔ p.getLsbD i = true ∨ ((i = 0 ∨ i = 2) ∧ p.getLsbD 4 = true) ∨
      ((i = 1 ∨ i = 3) ∧ p.getLsbD 5 = true) := by
  have hflag : Perm.writeObjs = BitVec.twoPow 32 5 := by decide
  have hflag' : Perm.readObjs = BitVec.twoPow 32 4 := by decide
  have hother : (Perm.write ||| Perm.writeAcp).getLsbD 4 = false := by decide
  rw [convertObjs, getLsbD_ite_or _ _ (by decide) hflag', getLsbD_ite_or _ _ (by decide) hflag,
    getLsbD_ite_or _ _ (by decide) hflag, getLsbD_read, getLsbD_write, hother]
  simp only [Bool.false_eq_true, false_and, or_false]
  rw [or_assoc, or_comm (a := (i = 1 ∨ i = 3) ∧ _)]

theorem eq_and_and_iff (p perm mask : Perm) :
    perm = p &&& perm &&& mask ↔ ∀ i, perm.getLsbD i = true → mask.getLsbD i = true ∧
    p.getLsbD i = true := by
  constructor
  · intro h i hi
    rw [h] at hi
    simp only [BitVec.getLsbD_and, Bool.and_eq_true] at hi
    exact ⟨hi.2, hi.1.1⟩
  · intro h
    apply BitVec.eq_of_getLsbD_eq
    intro i _
    cases hi : perm.getLsbD i with
    | false => simp [hi]
    | true =>
      obtain ⟨hmask, hp⟩ := h i hi
      simp [hi, hmask, hp]

/-- All permissions that are asked for are in the mask and are held. -/
theorem verifyPermission_iff (cls : PolicyClass) (policy : AccessControlPolicy) (uid : Bytes)
    (mask perm : Perm) :
    policy.verifyPermission cls uid mask perm = true ↔ ∀ i, perm.getLsbD i = true →
    mask.getLsbD i = true ∧
      ((collected cls policy uid).getLsbD i = true ∨
        ((i = 0 ∨ i = 2) ∧ (collected cls policy uid).getLsbD 4 = true) ∨
        ((i = 1 ∨ i = 3) ∧ (collected cls policy uid).getLsbD 5 = true)) := by
  rw [verifyPermission, decide_eq_true_iff, eq_and_and_iff]
  refine forall_congr' fun i => imp_congr_right fun hi => and_congr_right fun _ => ?_
  -- What is asked for is looked up, and so are the two bits that are converted.
  have h4 : (perm ||| Perm.readObjs ||| Perm.writeObjs).getLsbD 4 = true := by
    simp [Perm.readObjs]
  have h5 : (perm ||| Perm.readObjs ||| Perm.writeObjs).getLsbD 5 = true := by
    simp [Perm.writeObjs]
  have htest : (perm ||| Perm.readObjs ||| Perm.writeObjs).getLsbD i = true := by
    simp [hi]
  rw [getLsbD_convertObjs, getPerm_eq]
  simp only [BitVec.getLsbD_and, h4, h5, htest, Bool.and_true]

section OfGrants

variable (cls : PolicyClass) (owner : AclOwner) (grants : List AclGrant) (uid : Bytes)

theorem getLsbD_permsOf (i : Nat) : ((permsOf grants who).getD 0).getLsbD i = true ↔
    GrantedTo grants who i := by
  induction grants with
  | nil => simp [permsOf, GrantedTo, Index.ofList]
  | cons grant grants ih =>
    rw [permsOf_cons, GrantedTo, List.exists_mem_cons_iff, ← GrantedTo, ← ih, Index.single,
      AclGrant.entry]
    by_cases hwho : grant.grantee = who
    · cases permsOf grants who with
      | none => simp [hwho, Option.merge]
      | some p => simp [hwho, Option.merge]
    · simp [hwho]

theorem lookup_ofGrants : (ofGrants owner grants).acl.lookup who = permsOf grants who := by
  rw [ofGrants, lookup_foldl]
  cases who with
  | user id => exact Option.merge_none_left
  | group group => exact Option.merge_none_left

/-- A user has a permission by a grant, by mistake for a group, or, for the policy itself, as the
owner. -/
theorem getLsbD_collected : (collected cls (ofGrants owner grants) uid).getLsbD i = true ↔
      Held grants uid (uid ≠ userAnonId) i ∨ Mistaken grants uid cls i ∨
      ((i = 2 ∨ i = 3) ∧ uid = owner.id) := by
  have hbits : ∀ who, (((ofGrants owner grants).acl.lookup who).getD 0).getLsbD i = true ↔
      GrantedTo grants who i := by
    intro who
    rw [lookup_ofGrants, getLsbD_permsOf]
  have hown : (if uid = owner.id then Perm.readAcp ||| Perm.writeAcp else 0#32).getLsbD i = true ↔
      (i = 2 ∨ i = 3) ∧ uid = owner.id := by
    rw [← getLsbD_acp]
    split_ifs with h <;> simp [h]
  have hgroup : (if compareGroupName cls uid .allUsers then 0#32
      else ((ofGrants owner grants).acl.groupMap .authenticatedUsers).getD 0).getLsbD i = true ↔
        (uid ≠ userAnonId ∧ GrantedTo grants (.group .authenticatedUsers) i) ∨
          Mistaken grants uid cls i := by
    rw [Mistaken, ← hbits]
    cases cls with
    | base => by_cases h : uid = userAnonId <;> simp [compareGroupName, AccessControlList.lookup, h]
    | s3 => by_cases h : uid = userAnonId <;> simp [compareGroupName, AccessControlList.lookup, h]
  have huser : (((ofGrants owner grants).acl.userMap uid).getD 0).getLsbD i = true ↔ _ :=
    hbits (.user uid)
  have hall : (((ofGrants owner grants).acl.groupMap .allUsers).getD 0).getLsbD i = true ↔ _ :=
    hbits (.group .allUsers)
  rw [collected, Held, BitVec.getLsbD_or, BitVec.getLsbD_or, BitVec.getLsbD_or, Bool.or_eq_true,
    Bool.or_eq_true, Bool.or_eq_true, huser, hall, hgroup]
  change ((_ ∨ BitVec.getLsbD (if uid = owner.id then _ else _) i = true) ∨ _) ∨ _ ↔ _
  rw [hown]
  constructor
  · rintro (((h | h) | h) | h | h)
    · exact .inl (.inl h)
    · exact .inr (.inr h)
    · exact .inl (.inr (.inl h))
    · exact .inl (.inr (.inr h))
    · exact .inr (.inl h)
  · rintro ((h | h | h) | h | h)
    · exact .inl (.inl (.inl h))
    · exact .inl (.inr h)
    · exact .inr (.inl h)
    · exact .inr (.inr h)
    · exact .inl (.inl (.inr h))

theorem verifyPermission_ofGrants_iff (mask perm : Perm) :
    (ofGrants owner grants).verifyPermission cls uid mask perm = true ↔ ∀ i, perm.getLsbD i = true →
        mask.getLsbD i = true ∧ (Granted owner grants uid i ∨ Slips grants uid cls i) := by
  rw [verifyPermission_iff]
  refine forall_congr' fun i => imp_congr_right fun _ => and_congr_right fun _ => ?_
  rw [getLsbD_collected, getLsbD_collected, getLsbD_collected, Granted, Slips]
  grind

variable {grants} in
theorem GrantedTo.append {who : Grantee} {i : Nat} (h : GrantedTo grants who i)
    (more : List AclGrant) :
    GrantedTo (grants ++ more) who i := by
  obtain ⟨grant, hmem, hgrant⟩ := h
  exact ⟨grant, List.mem_append_left _ hmem, hgrant⟩

variable {grants uid} in
theorem Held.append {authenticated : Prop} {i : Nat} (h : Held grants uid authenticated i)
    (more : List AclGrant) :
    Held (grants ++ more) uid authenticated i :=
  h.imp (·.append more) (Or.imp (·.append more) (And.imp_right (·.append more)))

variable {grants uid cls} in
theorem Mistaken.append {i : Nat} (h : Mistaken grants uid cls i) (more : List AclGrant) :
    Mistaken (grants ++ more) uid cls i :=
  ⟨h.1, h.2.1, h.2.2.append more⟩

theorem verifyPermission_append (more : List AclGrant) (mask perm : Perm)
    (h : (ofGrants owner grants).verifyPermission cls uid mask perm = true) :
    (ofGrants owner (grants ++ more)).verifyPermission cls uid mask perm = true := by
  have hcollected : ∀ i, (collected cls (ofGrants owner grants) uid).getLsbD i = true →
      (collected cls (ofGrants owner (grants ++ more)) uid).getLsbD i = true := by
    intro i
    rw [getLsbD_collected, getLsbD_collected]
    exact Or.imp (·.append more) (Or.imp_left (·.append more))
  rw [verifyPermission_iff] at h ⊢
  intro i hi
  exact (h i hi).imp_right (Or.imp (hcollected i)
    (Or.imp (And.imp_right (hcollected 4)) (And.imp_right (hcollected 5))))

end OfGrants

/-- A decision is the one the grants call for exactly if the request does not get through on bits
that slip in, and no grant that is added takes anything away. -/
theorem verifyPermission_right_iff (cls : PolicyClass) (owner : AclOwner) (grants : List AclGrant)
    (uid : Bytes) (mask perm : Perm) :
    (((ofGrants owner grants).verifyPermission cls uid mask perm = true ↔
        ∀ i, perm.getLsbD i = true → mask.getLsbD i = true ∧ Granted owner grants uid i) ↔
      ((∀ i, perm.getLsbD i = true → mask.getLsbD i = true ∧
        (Granted owner grants uid i ∨ Slips grants uid cls i)) →
        ∀ i, perm.getLsbD i = true → Granted owner grants uid i)) ∧
    ∀ more, (ofGrants owner grants).verifyPermission cls uid mask perm = true →
      (ofGrants owner (grants ++ more)).verifyPermission cls uid mask perm = true := by
  refine ⟨?_, fun more => verifyPermission_append cls owner grants uid more mask perm⟩
  rw [verifyPermission_ofGrants_iff]
  constructor
  · intro h hpass i hi
    exact (h.mp hpass i hi).2
  · intro h
    constructor
    · intro hpass i hi
      exact ⟨(hpass i hi).1, h hpass i hi⟩
    · intro hgranted i hi
      exact ⟨(hgranted i hi).1, .inl (hgranted i hi).2⟩

/-- A grant to the authenticated users lets the anonymous user read an object, whose policy is one
of the base class. -/
theorem anonymous_reads_authenticated :
    (ofGrants ⟨ascii "owner",
      []⟩ [AclGrant.setGroup .authenticatedUsers Perm.read {}]).verifyPermission .base
        userAnonId Perm.fullControl Perm.read = true ∧
      ¬ ∀ i, Perm.read.getLsbD i = true → Perm.fullControl.getLsbD i = true ∧
        Granted ⟨ascii "owner",
          []⟩ [AclGrant.setGroup .authenticatedUsers Perm.read {}] userAnonId i := by
  refine ⟨by decide, fun h => ?_⟩
  obtain ⟨-, hgranted⟩ := h 0 (by decide)
  have hnone : ∀ i, ¬ Held [AclGrant.setGroup .authenticatedUsers Perm.read {}] userAnonId
      (userAnonId ≠ userAnonId) i := by
    intro i hheld
    simp [Held, GrantedTo, AclGrant.setGroup, AclGrant.grantee] at hheld
  rcases hgranted with hheld | ⟨hbit, -⟩ | ⟨-, hheld⟩ | ⟨hbit, -⟩
  · exact hnone 0 hheld
  · exact absurd hbit (by decide)
  · exact hnone 4 hheld
  · exact absurd hbit (by decide)

end RadosGateway.AccessControlPolicy
