import RadosGateway.Base.Bytes

/-!
# Removing what is no longer needed

The garbage collector removes the objects of deleted and replaced objects' chains and then their
tags; the expirer removes objects whose time has come, and then the hints that named them; a
processor whose upload is not completed removes what it has written. -/

namespace RadosGateway.Cleanup

open Text

def ENOENT : Int := 2

def EAGAIN : Int := 11

def EBUSY : Int := 16

structure Obj where
  pool : Bytes
  name : Bytes
  inst : Bytes := []
  loc : Bytes := []
  deriving DecidableEq

/-- An object of a chain with the answers of `ioctx_create`, if it is called, `operate` and
`going_down`. -/
structure Removal extends Obj where
  openRet : Int := 0
  opRet : Int := 0
  goingDown : Bool := false
  deriving DecidableEq

/-- `cls_rgw_gc_obj_info`, and whether the time is over when it is its turn. -/
structure Info where
  tag : Bytes
  chain : List Removal
  late : Bool := false
  deriving DecidableEq

structure Page where
  ret : Int := 0
  entries : List Info
  truncated : Bool := false
  deriving DecidableEq

inductive Event
  | sent (ctx : Option Bytes) (tag : Bytes) (obj : Obj) (ret : Int)
  | removed (tags : List Bytes)
  deriving DecidableEq

/-- `ctx` is the pool that the `IoCtx` is open for. -/
structure Gc where
  ctx : Option Bytes := none
  lastPool : Bytes := []
  removeTags : List Bytes := []
  events : List Event := []
  deriving DecidableEq

/-- The loop over a chain: the state, `remove_tag`, and whether it ends with `goto done`. -/
def removeChain (tag : Bytes) : List Removal → Gc → Bool → Gc × Bool × Bool
  | [], g, removeTag => (g, removeTag, false)
  | r :: chain, g, removeTag =>
    if r.pool ≠ g.lastPool ∧ r.openRet < 0 then
      removeChain tag chain { g with ctx := none } removeTag
    else
      let g := if r.pool ≠ g.lastPool then { g with ctx := some r.pool, lastPool := r.pool } else g
      let g := { g with events := g.events ++ [.sent g.ctx tag r.toObj r.opRet] }
      let ret := if r.opRet = -ENOENT then 0 else r.opRet
      let removeTag := if ret < 0 then false else removeTag
      if r.goingDown then (g, removeTag, true) else removeChain tag chain g removeTag

def maxRemoveChunk : Nat := 16

def pushTag (tag : Bytes) (g : Gc) : Gc :=
  let tags := g.removeTags ++ [tag]
  if tags.length > maxRemoveChunk then
    { g with removeTags := [], events := g.events ++ [.removed tags] }
  else { g with removeTags := tags }

def processEntries : List Info → Gc → Gc × Bool
  | [], g => (g, false)
  | info :: entries, g =>
    if info.late then (g, true)
    else
      let (g, removeTag, done) := removeChain info.tag info.chain g true
      if done then (g, true) else processEntries entries (if removeTag then pushTag info.tag g
        else g)

def processPages : List Page → Gc → Gc
  | [], g => g
  | page :: pages, g =>
    if page.ret < 0 then g
    else
      let (g, done) := processEntries page.entries { g with lastPool := [] }
      if done then g else if page.truncated then processPages pages g else g

def process (maxSecs lockRet : Int) (pages : List Page) : Int × List Event :=
  if maxSecs ≤ 0 then (-EAGAIN, [])
  else if lockRet = -EBUSY then (0, [])
  else if lockRet < 0 then (lockRet, [])
  else
    let g := processPages pages {}
    (0, if g.removeTags.isEmpty then g.events else g.events ++ [.removed g.removeTags])

/-- A hint in the index of a shard, with the answer of `garbage_single_object`. `objexp_hint_parse`
never fails. -/
structure Hint where
  keyTs : Nat
  keyExt : Bytes
  garbage : Int := 0
  deriving DecidableEq

/-- What `objexp_hint_list` gives when it succeeds. -/
structure HintPage (μ : Type) where
  entries : List Hint
  outMarker : μ
  truncated : Bool

/-- The index of a shard, which the object store keeps, for the interval from `last_run` to
`round_start`: `objexp_hint_list` and `objexp_hint_trim` in a state `σ` of the index, with markers
`μ`, of which one is the empty string, and the hints it holds. -/
structure HintIndex (σ μ : Type) where
  hints : σ → List Hint
  start : μ
  hintList : σ → Nat → μ → HintPage μ
  hintTrim : σ → σ

/-- The result of `objexp_hint_list`, and whether the time is over behind the chunk. -/
structure Round where
  listRet : Int := 0
  late : Bool := false
  deriving DecidableEq

inductive HintEvent
  | garbage (hint : Hint) (ret : Int)
  | trim (hints : List Hint)
  deriving DecidableEq

def garbageChunk (entries : List Hint) : List HintEvent × Bool :=
  (entries.map fun hint => .garbage hint hint.garbage, !entries.isEmpty)

section Shard

variable {σ μ : Type} (index : HintIndex σ μ) (numEntries : Nat)

/-- The loop over the chunks. A trim is recorded with the hints that it removes. -/
def shardLoop : List Round → σ → μ → Bool → List HintEvent
  | [], _, _, _ => []
  | round :: rounds, s, marker, truncated =>
    if round.listRet < 0 then if truncated then shardLoop rounds s marker truncated else []
    else
      let page := index.hintList s numEntries marker
      let (events, needTrim) := garbageChunk page.entries
      let events :=
        if needTrim then events ++
          [.trim ((index.hints s).filter (· ∉ index.hints (index.hintTrim s)))] else events
      let s := if needTrim then index.hintTrim s else s
      if round.late then events
      else if page.truncated then events ++ shardLoop rounds s page.outMarker page.truncated
      else events

def processSingleShard (lockRet : Int) (rounds : List Round) (s : σ) : List HintEvent :=
  if lockRet = -EBUSY then [] else shardLoop index numEntries rounds s index.start false

end Shard

/-- An `rgw_obj`, by what `operator==` compares. -/
structure AioObj where
  bucket : Bytes := []
  object : Bytes := []
  ns : Bytes := []
  inst : Bytes := []
  deriving DecidableEq

inductive AioEvent
  | issued (obj : AioObj)
  | waited (handle : Nat)
  | deleted (obj : AioObj)
  deriving DecidableEq

structure Processor where
  lastWrittenObj : AioObj := {}
  writtenObjs : List AioObj := []
  pending : List Nat := []
  maxChunks : Nat := 16
  events : List AioEvent := []
  deriving DecidableEq

def handleObjData (p : Processor) (obj : AioObj) : Processor :=
  let p :=
    if obj = p.lastWrittenObj then p
    else { p with writtenObjs := p.writtenObjs ++ [obj], lastWrittenObj := obj }
  { p with events := p.events ++ [.issued obj] }

def waitPendingFront (p : Processor) : Processor :=
  match p.pending with
  | [] => p
  | handle :: pending => { p with pending := pending, events := p.events ++ [.waited handle] }

/-- The loop of `throttle_data` over the writes at the front that are complete, with what `aio_wait`
answers for them; the flag says that one has failed. -/
def drainCompleted : List Int → Processor → Processor × Bool
  | [], p => (p, false)
  | r :: completed, p =>
    if p.pending.isEmpty then (p, false)
    else if r < 0 then (waitPendingFront p, true)
    else drainCompleted completed (waitPendingFront p)

def throttleData (p : Processor) (handle : Option Nat) (needToWait : Bool) (completed : List Int) :
    Processor :=
  let p := { p with pending := p.pending ++ handle.toList }
  let (q, failed) := drainCompleted completed p
  if failed then q
  else
    let wait := needToWait && p.pending.length = q.pending.length
    let q := if p.pending.length - q.pending.length ≥ q.maxChunks then
      { q with maxChunks := q.maxChunks + 1 } else q
    if q.pending.length > q.maxChunks ∨ wait = true then waitPendingFront q else q

def drainPending (p : Processor) : Processor := p.pending.foldl (fun p _ => waitPendingFront p) p

def multipartNs : Bytes := ascii "multipart"

/-- The loop of the destructor over the written objects, and what follows it. -/
def deleteWritten : List AioObj → Option AioObj → List AioEvent
  | [], multipartObj => multipartObj.toList.map .deleted
  | obj :: objs, multipartObj =>
    if obj.ns = multipartNs then deleteWritten objs (some obj)
      else .deleted obj :: deleteWritten objs multipartObj

def destroy (isComplete : Bool) (p : Processor) : List AioEvent :=
  let p := drainPending p
  if isComplete then p.events else p.events ++ deleteWritten p.writtenObjs none

inductive AioCall
  | handleObjData (obj : AioObj)
  | throttleData (handle : Option Nat) (needToWait : Bool) (completed : List Int)
  deriving DecidableEq

def Processor.call (p : Processor) : AioCall → Processor
  | .handleObjData obj => Cleanup.handleObjData p obj
  | .throttleData handle needToWait completed => Cleanup.throttleData p handle needToWait completed

end RadosGateway.Cleanup
