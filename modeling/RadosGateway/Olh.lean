import RadosGateway.Base.Proc
import RadosGateway.Base.Run
import RadosGateway.Base.VersionLog
import RadosGateway.DirEntry

/-!
# The log of an object's current version

A versioned object has a head, the OLH, that names the instance it stands for. Changes are entered
into a log in the bucket index under increasing versions; `update_olh` reads it page by page, and
`apply_olh_log` removes the instances a page gives up, writes the head, trims the log, and removes
the head if nothing is linked. Several gateways do this at once; writes to the head have a guard on
its tag and version.
-/

namespace RadosGateway.Olh

open Text Proc VersionLog

inductive LogOp where
  | unknown
  | linkOlh
  | unlinkOlh
  | removeInstance
  deriving DecidableEq

structure LogEntry where
  op : LogOp
  opTag : Bytes
  key : ObjKey
  deleteMarker : Bool := false
  deriving DecidableEq

abbrev Log := List (Nat × List LogEntry)

/-- `RGWOLHInfo`: what the head stands for. -/
structure OlhInfo where
  target : ObjKey
  removed : Bool
  deriving DecidableEq

namespace Err

def enoent : Int := 2
def eio : Int := 5
def ecanceled : Int := 125

end Err

inductive Call where
  | readLog (tag : Bytes) (marker : Nat)
  | deleteInstance (key : ObjKey)
  /-- The write to the head: the pending attributes it drops and the target it sets. -/
  | operate (tag : Bytes) (ver : Nat) (tags : List Bytes) (info : Option OlhInfo)
  | trimLog (tag : Bytes) (ver : Nat)
  | remove (tag : Bytes) (ver : Nat)
  | clear (tag : Bytes)

def Call.Answer : Call → Type
  | .readLog _ _ => Except Int (Log × Bool)
  | _ => Int

abbrev Prog := Proc Call Call.Answer

structure Plan where
  needToLink : Bool := false
  key : ObjKey := ⟨[], []⟩
  deleteMarker : Bool := false
  removeInstances : List ObjKey := []
  needToRemove : Bool := false
  tags : List Bytes := []
  deriving DecidableEq

/-- One round of the loop over the log; none for an operation that is not known. -/
def Plan.add (p : Plan) (e : LogEntry) : Option Plan :=
  match e.op with
  | .removeInstance =>
    some { p with removeInstances := p.removeInstances ++ [e.key], tags := p.tags ++ [e.opTag] }
  | .linkOlh =>
    some { p with needToLink := true, needToRemove := false, key := e.key,
                  deleteMarker := e.deleteMarker, tags := p.tags ++ [e.opTag] }
  | .unlinkOlh =>
    some { p with needToRemove := true, needToLink := false, tags := p.tags ++ [e.opTag] }
  | .unknown => none

def entries (log : Log) : List LogEntry := log.flatMap Prod.snd

def planLog (log : Log) : Option Plan := (entries log).foldlM Plan.add {}

def Plan.info (p : Plan) : Option OlhInfo :=
  if p.needToLink then some { target := p.key, removed := p.deleteMarker } else none

def deleteInstances : List ObjKey → Prog Int
  | [] => pure 0
  | key :: keys => do
      let r : Int ← perform (Call.deleteInstance key)
      if r < 0 ∧ r ≠ -Err.enoent then pure r else deleteInstances keys

/-- The end of `apply_olh_log`: the head is removed if nothing is linked, and then the index entry,
unless the removal was cancelled. -/
def removeOlh (tag : Bytes) (ver : Nat) (p : Plan) : Prog Int :=
  if p.needToRemove then do
    let r : Int ← perform (Call.remove tag ver)
    if r = -Err.ecanceled then pure 0
    else do
      let r : Int ← perform (Call.clear tag)
      if r < 0 then pure r else pure 0
  else pure 0

def operateOlh (tag : Bytes) (ver : Nat) (p : Plan) : Prog Int := do
  let r : Int ← perform (Call.operate tag ver p.tags p.info)
  if r < 0 ∧ r ≠ -Err.ecanceled then pure r
  else do
    let r : Int ← perform (Call.trimLog tag ver)
    if r < 0 then pure r else removeOlh tag ver p

/-- `log.rbegin()->first`, and the marker as it was if the page is empty. -/
def lastVer (marker : Nat) (log : Log) : Nat := (log.getLast?.map Prod.fst).getD marker

def applyOlhLog (tag : Bytes) (log : Log) : Prog Int :=
  if log = [] then pure 0
  else match planLog log with
    | none => pure (-Err.eio)
    | some p => do
        let r ← deleteInstances p.removeInstances
        if r < 0 then pure r else operateOlh tag (lastVer 0 log) p

structure Head where
  idTag : Bytes
  /-- `RGW_ATTR_OLH_VER`; the empty text stands for `0`. -/
  ver : Nat
  info : Option OlhInfo
  pending : List Bytes
  deriving DecidableEq

structure Shared where
  olh : Option Head
  /-- The entry in the bucket index: the tag of the head and the log. -/
  index : Option (Bytes × Log)
  instances : List ObjKey
  deriving DecidableEq

/-- What is left open about the store: how many versions a page has, and the error of a request to
something that is not there. -/
structure Server where
  pageSize : Nat
  pageSize_pos : 0 < pageSize
  missing : Int
  missing_neg : missing < 0

/-- `cmpxattr` of the tag and of the version. -/
def Head.admits (o : Head) (tag : Bytes) (ver : Nat) : Bool := o.idTag = tag ∧ o.ver < ver

def Head.operate (o : Head) (tags : List Bytes) (info : Option OlhInfo) : Head :=
  { o with info := info.or o.info, pending := o.pending.filter (· ∉ tags) }

def withIndex {α : Type} (srv : Server) (s : Shared) (tag : Bytes) (fail : Int → α)
    (f : Log → α × Shared) : α × Shared :=
  match s.index with
  | none => (fail srv.missing, s)
  | some (t, log) => if t = tag then f log else (fail (-Err.ecanceled), s)

def answer (srv : Server) : (c : Call) → Shared → c.Answer × Shared
  | .readLog tag marker, s =>
    withIndex (α := Except Int (Log × Bool)) srv s tag .error fun log =>
      (.ok ((after marker log).take srv.pageSize, srv.pageSize < (after marker log).length), s)
  | .deleteInstance key, s =>
    if key ∈ s.instances then ((0 : Int), { s with instances := s.instances.filter (· ≠ key) })
    else (-Err.enoent, s)
  | .operate tag ver tags info, s =>
    match s.olh with
    | none => (srv.missing, s)
    | some o =>
      if o.admits tag ver then ((0 : Int), { s with olh := some (o.operate tags info) })
      else (-Err.ecanceled, s)
  | .trimLog tag ver, s =>
    withIndex (α := Int) srv s tag id fun log => (0, { s with index := some (tag, after ver log) })
  | .remove tag ver, s =>
    match s.olh with
    | none => (srv.missing, s)
    | some o =>
      if o.admits tag ver ∧ o.pending = [] then ((0 : Int), { s with olh := none })
      else (-Err.ecanceled, s)
  | .clear tag, s => withIndex (α := Int) srv s tag id fun _ => (0, { s with index := none })

/-- `olh_init_modification`: a new modification is noted on the head, which is made if there is
none. -/
def olhInitModification (newTag opTag : Bytes) : Option Head → Head
  | none => { idTag := newTag, ver := 0, info := none, pending := [opTag] }
  | some o => { o with pending := opTag :: o.pending }

inductive Gateway where
  | reading (tag : Bytes) (marker : Nat)
  | applying (p : Prog Int) (tag : Bytes) (marker : Nat) (truncated : Bool)
  | finished (ret : Int)

/-- Go on after `apply_olh_log`, if it has returned. -/
def Gateway.resume (tag : Bytes) (marker : Nat) (truncated : Bool) : Prog Int → Gateway
  | .done r =>
    if r < 0 then finished r else if truncated then reading tag marker else finished 0
  | p => applying p tag marker truncated

def Gateway.turn (srv : Server) (s : Shared) : Gateway → Option (Gateway × Shared)
  | reading tag marker =>
    match answer srv (.readLog tag marker) s with
    | (.error r, s) => some (finished r, s)
    | (.ok (log, truncated), s) =>
      some (resume tag (lastVer marker log) truncated (applyOlhLog tag log), s)
  | applying (.call c k) tag marker truncated =>
    some (resume tag marker truncated (k (answer srv c s).1), (answer srv c s).2)
  | applying _ _ _ _ => none
  | finished _ => none

structure System where
  shared : Shared
  gateways : List Gateway

inductive Label where
  /-- A gateway has read the head and calls `update_olh`. -/
  | start
  | modify (opTag : Bytes)
  | turn (i : Nat)

def System.step (srv : Server) (s : System) : Label → Option System
  | .start => s.shared.olh.map fun o => { s with gateways := s.gateways ++ [.reading o.idTag 0] }
  | .modify opTag => s.shared.olh.map fun o =>
    { s with shared := { s.shared with olh := some (olhInitModification [] opTag (some o)) } }
  | .turn i => (s.gateways[i]?.bind (Gateway.turn srv s.shared)).map fun r =>
    ⟨r.2, s.gateways.set i r.1⟩

/-- The target an entry sets, or that it sets none; an entry may also leave the head alone. -/
def LogEntry.verdict (e : LogEntry) : Option (Option OlhInfo) :=
  match e.op with
  | .linkOlh => some (some { target := e.key, removed := e.deleteMarker })
  | .unlinkOlh => some none
  | _ => none

/-- What the entry of the highest version among those that set a target says. -/
def lastVerdict (log : Log) : Option (Option OlhInfo) :=
  ((entries log).filterMap LogEntry.verdict).getLast?

def Recorded (before : Option OlhInfo) (log : Log) (olh : Option Head) : Prop :=
  match lastVerdict log with
  | none => olh.map Head.info = some before
  | some (some info) => olh.map Head.info = some (some info)
  | some none => olh = none

def Known (log : Log) : Prop := ∀ e ∈ entries log, e.op ≠ .unknown

def GivesUp (log : Log) (key : ObjKey) : Prop := ∃ e ∈ entries log, e.op = .removeInstance ∧
    e.key = key

/-- A system, and the highest version of a page that has been written to the head. -/
structure Audit where
  sys : System
  top : Nat

def Gateway.request : Gateway → Option Call
  | .reading tag marker => some (.readLog tag marker)
  | .applying (.call c _) _ _ _ => some c
  | _ => none

def System.request (s : System) : Label → Option Call
  | .turn i => s.gateways[i]?.bind Gateway.request
  | _ => none

def topAfter (top : Nat) : Option Head → Option Call → Nat
  | some o, some (.operate tag ver _ _) => if o.admits tag ver then max top ver else top
  | _, _ => top

def Audit.step (srv : Server) (a : Audit) (l : Label) : Option Audit :=
  (a.sys.step srv l).map fun s => ⟨s, topAfter a.top a.sys.shared.olh (a.sys.request l)⟩

/-- A target is not written after a newer page, and the head is asked to go only if the pending
modifications and the log agree on whether it is needed. -/
def Timely (log : Log) (top : Nat) : Option Head → Option Call → Prop
  | some _, some (.operate _ ver _ (some _)) => top ≤ ver
  | some o, some (.remove _ ver) => o.pending ≠ [] ↔ (lastVerdict (after ver log)).isSome
  | _, _ => True

def Audit.Timely (log : Log) (a : Audit) (l : Label) : Prop :=
  Olh.Timely log a.top a.sys.shared.olh (a.sys.request l)

instance (log : Log) (top : Nat) (olh : Option Head) (c : Option Call) :
    Decidable (Timely log top olh c) :=
  match olh, c with
  | some _, some (.operate _ ver _ (some _)) => Nat.decLe top ver
  | some _, some (.operate _ _ _ none) => .isTrue trivial
  | some o, some (.remove _ ver) =>
    inferInstanceAs (Decidable (o.pending ≠ [] ↔ (lastVerdict (after ver log)).isSome))
  | some _, some (.readLog _ _) => .isTrue trivial
  | some _, some (.deleteInstance _) => .isTrue trivial
  | some _, some (.trimLog _ _) => .isTrue trivial
  | some _, some (.clear _) => .isTrue trivial
  | some _, none => .isTrue trivial
  | none, _ => .isTrue trivial

instance (log : Log) (a : Audit) (l : Label) : Decidable (a.Timely log l) :=
  inferInstanceAs (Decidable (Olh.Timely log a.top a.sys.shared.olh (a.sys.request l)))

structure System.Fresh (log : Log) (s : System) : Prop where
  gateways : s.gateways = []
  head : ∃ o, s.shared.olh = some o ∧ s.shared.index = some (o.idTag, log) ∧ ∀ x ∈ log, o.ver < x.1

structure Audit.FollowsLog (log : Log) (s : System) (a : Audit) : Prop where
  instances : ∀ k ∈ s.shared.instances, ¬GivesUp log k → k ∈ a.sys.shared.instances
  target : ∀ o info, a.sys.shared.olh = some o → lastVerdict (upTo a.top log) = some (some info) →
    o.info = some info
  settled : a.sys.gateways ≠ [] → (∀ g ∈ a.sys.gateways, ∃ r, g = .finished r) →
    Recorded (s.shared.olh.bind Head.info) log a.sys.shared.olh

namespace Sample

def server : Server where
  pageSize := 1
  pageSize_pos := by decide
  missing := -2
  missing_neg := by decide

def instanceA : ObjKey := ⟨ascii "o", ascii "a"⟩

def instanceB : ObjKey := ⟨ascii "o", ascii "b"⟩

/-- The object is linked to one instance and then to another. -/
def log : Log := [(1, [⟨.linkOlh, ascii "x", instanceA, false⟩]),
    (2, [⟨.linkOlh, ascii "y", instanceB, false⟩])]

def head : Head :=
  olhInitModification [] (ascii "y") (some (olhInitModification (ascii "t") (ascii "x") none))

def system : System where
  shared := { olh := some head, index := some (ascii "t", log), instances := [instanceA,
    instanceB] }
  gateways := []

end Sample

end RadosGateway.Olh
