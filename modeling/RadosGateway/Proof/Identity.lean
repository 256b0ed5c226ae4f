import RadosGateway.Identity
import RadosGateway.Store

/-!
# Whose files an operation touches, proofs

Between a `setfsuid` to the user's uid and one back, an operation makes only quiet calls, which
leave the uid of the thread alone. Removing and copying are of this shape. A download never sets the
uid. -/

namespace RadosGateway

open Proc

abbrev GuardedAs {α : Type} (user : Nat) (p : Prog α) (fsuid : Nat) (post : α → Nat → Prop) :
    Prop :=
  p.Guarded Sys.answers Sys.fsuidAfter (fun c fsuid => c.accesses → fsuid = user) fsuid post

def Sys.Quiet (c : Sys) : Prop := ∀ fsuid, c.fsuidAfter fsuid = fsuid

variable {α β : Type} {user fsuid : Nat} {p : Prog α} {f : α → Prog β} {post : β → Nat → Prop}

theorem ObjectOp.keepsIdentity_iff_guardedAs (G : Global) (op : ObjectOp) (fsuid : Nat) :
    op.KeepsIdentity G fsuid ↔
      GuardedAs op.uid (op.execute G) fsuid fun _ fsuid' => fsuid' = fsuid := by
  rw [GuardedAs, guarded_iff_forall_reach]
  exact forall₂_congr fun p fsuid' => imp_congr_right fun _ => and_congr_right fun _ =>
    ⟨fun h _ => h, fun h => h ()⟩

theorem guardedAs_setfsuid_bind {uid : Nat} {f : Nat → Prog β} :
    GuardedAs user (setfsuid uid >>= f) fsuid post ↔ GuardedAs user (f fsuid) uid post := by
  constructor
  · exact fun h => h.2 fsuid rfl
  · intro h
    refine ⟨nofun, ?_⟩
    rintro old rfl
    exact h

theorem guardedAs_of_quiet (hp : p.Only Sys.Quiet) : GuardedAs user p user fun _ fsuid' =>
    fsuid' = user :=
  hp.guarded fun _ hc => ⟨fun _ => rfl, hc user⟩

theorem guardedAs_quiet_bind (hp : p.Only Sys.Quiet) (hf : ∀ a, GuardedAs user (f a) user post) :
    GuardedAs user (p >>= f) user post := by
  refine guarded_bind.mpr ((guardedAs_of_quiet hp).mono ?_)
  rintro a _ rfl
  exact hf a

theorem only_quiet_perform {c : Sys} (hc : c.Quiet) : (perform c : Prog c.Answer).Only Sys.Quiet :=
  ⟨hc, fun _ => trivial⟩

section Quiet

variable (G : Global)

theorem parseConf_quiet (path : Text.Bytes) (info : SysInfo) :
    (parseConf path info).Only Sys.Quiet := by
  refine (only_quiet_perform fun _ => rfl).bind fun fd => ?_
  cases fd with
  | none => trivial
  | some fd =>
    refine (only_quiet_perform fun _ => rfl).bind fun text => ?_
    cases text with
    | none => trivial
    | some text =>
      dsimp only
      split <;> trivial

theorem syncStat_quiet (file : Text.Bytes) (info : SysInfo) :
    (syncStat file info).Only Sys.Quiet := by
  refine (only_quiet_perform fun _ => rfl).bind fun fd => ?_
  cases fd with
  | none => trivial
  | some fd => exact (only_quiet_perform fun _ => rfl).bind fun _ => trivial

theorem updateStat_quiet (bucket : Text.Bytes) (g : SysInfo → SysInfo) :
    (updateStat G bucket g).Only Sys.Quiet :=
  (parseConf_quiet _ _).bind fun _ => (syncStat_quiet _ _).bind fun _ => trivial

theorem checkQuota_quiet (q : Quotas) (bucket : Text.Bytes) (objSize : UInt64) :
    (checkQuota G q bucket objSize).Only Sys.Quiet := by
  unfold checkQuota
  split
  · exact (parseConf_quiet _ _).bind fun _ => trivial
  · trivial

theorem putLoop_quiet (req : PutRequest) (fd : Fd) (fuel ofs pos : Nat) (input : List Segment) :
    (putLoop G req fd fuel ofs pos input).Only Sys.Quiet := by
  induction fuel generalizing ofs pos input with
  | zero => trivial
  | succ fuel ih =>
    unfold putLoop
    split
    · trivial
    · split
      · trivial
      · refine (only_quiet_perform fun _ => rfl).bind fun n => ?_
        cases n with
        | none => trivial
        | some n => exact ih _ _ _

theorem monCommandRm_quiet (path : Text.Bytes) : (monCommandRm path).Only Sys.Quiet := by
  unfold monCommandRm
  split
  · trivial
  · exact (only_quiet_perform fun _ => rfl).bind fun _ => trivial

theorem preadBuffer_quiet (fd : Fd) (len : Nat) (offset : Int) :
    (preadBuffer fd len offset).Only Sys.Quiet := by
  unfold preadBuffer
  split
  · trivial
  · split
    · trivial
    · refine (only_quiet_perform fun _ => rfl).bind fun data => ?_
      cases data with
      | none => trivial
      | some data =>
        dsimp only
        split <;> trivial

theorem sendLoop_quiet (fd : Fd) (ofs : Int) (fuel : Nat) (left : Int) (pos : Nat)
    (sent : Text.Bytes) : (sendLoop G fd ofs fuel left pos sent).Only Sys.Quiet := by
  induction fuel generalizing left pos sent with
  | zero => trivial
  | succ fuel ih =>
    unfold sendLoop
    split
    · trivial
    · refine (preadBuffer_quiet _ _ _).bind fun data => ?_
      cases data with
      | none => trivial
      | some data =>
        dsimp only
        split
        · trivial
        · exact ih _ _ _

theorem shellExecute_quiet (line : Text.Bytes) : (shellExecute line).Only Sys.Quiet := by
  refine (only_quiet_perform fun _ => rfl).bind fun out => ?_
  split <;> trivial

/-- A download never changes the identity. -/
theorem GetRequest.execute_quiet (req : GetRequest) : (req.execute G).Only Sys.Quiet := by
  unfold GetRequest.execute
  split
  · trivial
  · refine (only_quiet_perform fun _ => rfl).bind fun st => ?_
    refine (only_quiet_perform fun _ => rfl).bind fun fd => ?_
    cases fd with
    | none => trivial
    | some fd =>
      dsimp only
      split
      · exact (preadBuffer_quiet _ _ _).bind fun _ => (sendLoop_quiet G _ _ _ _ _ _).bind fun _ =>
          trivial
      · split
        · trivial
        · exact (shellExecute_quiet _).bind fun _ => (sendLoop_quiet G _ _ _ _ _ _).bind fun _ =>
            trivial

/-- An upload writes its file as the user, and remembers who it was before. -/
theorem PutRequest.upload_guarded (req : PutRequest) (hearly : req.early = none) :
    GuardedAs (uidT req.auid) (req.upload G) fsuid fun exit fsuid' =>
      fsuid' = uidT req.auid ∧ exit.oldUid = fsuid := by
  unfold PutRequest.upload
  rw [hearly]
  refine guardedAs_setfsuid_bind.mpr ?_
  refine guardedAs_quiet_bind (only_quiet_perform fun _ => rfl) fun fd => ?_
  cases fd with
  | none => exact ⟨rfl, rfl⟩
  | some fd =>
    refine guardedAs_quiet_bind (only_quiet_perform fun _ => rfl) fun _ => ?_
    refine guardedAs_quiet_bind (putLoop_quiet G req fd _ _ _ _) fun r => ?_
    obtain ⟨r, ofs⟩ := r
    cases ofs with
    | none => exact ⟨rfl, rfl⟩
    | some ofs => exact guardedAs_quiet_bind (checkQuota_quiet G _ _ _) fun _ => ⟨rfl, rfl⟩

end Quiet

section Operations

variable {G : Global}

theorem get_keepsIdentity_iff (auid : Nat) (req : GetRequest) :
    (ObjectOp.get auid req).KeepsIdentity G fsuid ↔
      (∃ r, req.initCommon = .error r) ∨ fsuid = uidT auid := by
  rw [ObjectOp.keepsIdentity_iff_guardedAs]
  constructor
  · intro h
    cases hinit : req.initCommon with
    | error r => exact .inl ⟨r, rfl⟩
    | ok range =>
      right
      simp only [ObjectOp.execute, GetRequest.execute, hinit] at h
      -- whatever `stat` answers, the file is opened
      exact ((h.2 none trivial).1 rfl)
  · rintro (⟨r, hinit⟩ | rfl)
    · simp only [ObjectOp.execute, GetRequest.execute, hinit]
      rfl
    · exact guardedAs_quiet_bind (req.execute_quiet G) fun _ => rfl

/-- After an early error the identity is right only for root on behalf of root. -/
theorem put_keepsIdentity_iff (req : PutRequest) : (ObjectOp.put req).KeepsIdentity G fsuid ↔
      req.early = none ∨ fsuid = 0 ∧ uidT req.auid = 0 := by
  rw [ObjectOp.keepsIdentity_iff_guardedAs]
  cases hearly : req.early with
  | none =>
    refine iff_of_true ?_ (.inl rfl)
    refine guarded_bind.mpr (guarded_bind.mpr ((req.upload_guarded G hearly).mono ?_))
    rintro exit _ ⟨rfl, hold⟩
    refine guardedAs_quiet_bind (updateStat_quiet G _ _) fun _ => ?_
    exact guardedAs_setfsuid_bind.mpr hold
  | some r =>
    have hexec : req.execute G = (do
        updateStat G req.bucket (SysInfo.addObject 0)
        let _ ← setfsuid 0
        pure r) := by
      simp only [PutRequest.execute, PutRequest.upload, hearly]
      rfl
    simp only [ObjectOp.execute, hexec, reduceCtorEq, false_or]
    constructor
    · intro h
      have huser : fsuid = uidT req.auid := h.1 rfl
      -- neither the reading nor the writing of the `stat` file need succeed
      have hend : (0 : Nat) = fsuid := ((h.2 none trivial).2 none trivial).2 fsuid rfl
      exact ⟨hend.symm, huser ▸ hend.symm⟩
    · rintro ⟨rfl, huser⟩
      rw [ObjectOp.uid, huser]
      refine guarded_bind.mpr (guardedAs_quiet_bind (updateStat_quiet G _ _) fun _ => ?_)
      exact guardedAs_setfsuid_bind.mpr rfl

theorem delete_keepsIdentity (req : DeleteRequest) :
    (ObjectOp.delete req).KeepsIdentity G fsuid := by
  refine (ObjectOp.keepsIdentity_iff_guardedAs G _ fsuid).mpr ?_
  refine guarded_bind.mpr (guardedAs_setfsuid_bind.mpr ?_)
  refine guardedAs_quiet_bind (only_quiet_perform fun _ => rfl) fun size => ?_
  cases size with
  | none => exact guardedAs_setfsuid_bind.mpr rfl
  | some size =>
    refine guardedAs_quiet_bind (monCommandRm_quiet _) fun r => ?_
    refine guardedAs_quiet_bind (updateStat_quiet G _ _) fun _ => ?_
    exact guardedAs_setfsuid_bind.mpr rfl

theorem copy_keepsIdentity (req : CopyRequest) : (ObjectOp.copy req).KeepsIdentity G fsuid := by
  refine (ObjectOp.keepsIdentity_iff_guardedAs G _ fsuid).mpr (guarded_bind.mpr ?_)
  unfold CopyRequest.execute
  split
  · rfl
  · refine guardedAs_setfsuid_bind.mpr ?_
    refine guardedAs_quiet_bind (only_quiet_perform fun _ => rfl) fun r => ?_
    refine guardedAs_setfsuid_bind.mpr ?_
    cases r <;> rfl

end Operations

def ObjectOp.identityKept (op : ObjectOp) (fsuid : Nat) : Prop :=
  match op with
  | get auid req => (∃ r, req.initCommon = .error r) ∨ fsuid = uidT auid
  | put req => req.early = none ∨ fsuid = 0 ∧ uidT req.auid = 0
  | delete _ => True
  | copy _ => True

/-- An operation touches files only as the user it is for, and gives the identity back, exactly in
these cases: removals and copies always; an upload that is not refused early, or is by root for
root; a download that is refused before it opens the file, or whose thread has the identity of the
user already. -/
theorem ObjectOp.keepsIdentity_iff (G : Global) (op : ObjectOp) (fsuid : Nat) :
    op.KeepsIdentity G fsuid ↔ op.identityKept fsuid := by
  cases op with
  | get auid req => exact get_keepsIdentity_iff auid req
  | put req => exact put_keepsIdentity_iff req
  | delete req => exact iff_of_true (delete_keepsIdentity req) trivial
  | copy req => exact iff_of_true (copy_keepsIdentity req) trivial

/-- A download never changes the identity. -/
theorem ObjectOp.download_opens_as_root :
    ¬(ObjectOp.get 1000 { bucket := Text.ascii "b", object := Text.ascii "o" }).KeepsIdentity
      Sample.G 0 := by
  intro h
  -- the call behind `stat` opens the file, and the thread still has the uid it came with
  have hopen := (h _ _ (.call (a := none) trivial (.refl _ _))).1 _ _ rfl rfl
  exact absurd hopen (by decide)

end RadosGateway
