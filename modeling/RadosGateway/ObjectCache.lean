import RadosGateway.Base.Bytes
import RadosGateway.Base.NodeList

/-!
# The object cache

`ObjectCache` keeps what is known of system objects by name, with a list of the names in the order
they were last promoted, and drops names at its front when there are more than configured. -/

namespace RadosGateway

open Text

structure CacheFlags where
  data : Bool := false
  xattrs : Bool := false
  metaInfo : Bool := false
  modifyXattrs : Bool := false
  objv : Bool := false
  deriving DecidableEq

namespace CacheFlags

def union (a b : CacheFlags) : CacheFlags :=
  ⟨a.data || b.data, a.xattrs || b.xattrs, a.metaInfo || b.metaInfo,
    a.modifyXattrs || b.modifyXattrs,
    a.objv || b.objv⟩

def covers (flags mask : CacheFlags) : Bool :=
  (!mask.data || flags.data) && (!mask.xattrs || flags.xattrs) &&
    (!mask.metaInfo || flags.metaInfo) &&
    (!mask.modifyXattrs || flags.modifyXattrs) && (!mask.objv || flags.objv)

end CacheFlags

abbrev Attrs := Bytes → Option Bytes

structure ObjectMetaInfo where
  size : UInt64 := 0
  mtime : Int := 0
  deriving DecidableEq

structure ObjVersion where
  ver : UInt64 := 0
  tag : Bytes := []
  deriving DecidableEq

structure ObjectCacheInfo where
  status : Int := 0
  flags : CacheFlags := {}
  epoch : UInt64 := 0
  data : Bytes := []
  xattrs : Attrs := fun _ => none
  rmXattrs : Attrs := fun _ => none
  metaInfo : ObjectMetaInfo := {}
  version : ObjVersion := {}

/-- `RGWChainedCacheImpl`s of the gateway: `binfo_cache` and `uinfo_cache`. -/
inductive ChainedCache where
  | binfo
  | uinfo
  deriving DecidableEq

structure ObjectCacheEntry where
  info : ObjectCacheInfo := {}
  /-- `none` is `lru.end()`. -/
  lruIter : Option Nat := none
  lruPromotionTs : UInt64 := 0
  gen : UInt64 := 0
  chainedEntries : List (ChainedCache × Bytes) := []

/-- A record in a chained cache, with the names of the objects it was derived from. Only the record
is there in the program. -/
structure ChainedRecord where
  record : Bytes
  sources : List Bytes
  deriving DecidableEq

structure ObjectCache where
  cacheMap : Bytes → Option ObjectCacheEntry := fun _ => none
  lru : NodeList Bytes := .empty
  lruSize : Nat := 0
  lruCounter : UInt64 := 0
  lruWindow : UInt64 := 0
  enabled : Bool := false
  chained : ChainedCache → Bytes → Option ChainedRecord := fun _ _ => none

namespace ObjectCache

def setEntry (s : ObjectCache) (name : Bytes) (entry : Option ObjectCacheEntry) : ObjectCache :=
  { s with cacheMap := Function.update s.cacheMap name entry }

def invalidateChained (s : ObjectCache) (entries : List (ChainedCache × Bytes)) : ObjectCache :=
  { s with chained := fun c key => if (c, key) ∈ entries then none else s.chained c key }

/-- `while (lru_size > limit)`, for at most the given number of rounds: names at the front are
dropped, up to the one that is being touched. -/
def shrinkLru (name : Bytes) : Nat → ObjectCache → Option ObjectCache
  | 0, s => some s
  | n + 1, s =>
    match s.lru.front with
    | none => none
    | some front =>
      if front = name then some s
      else shrinkLru name n
        { s.setEntry front none with lru := s.lru.popFront, lruSize := s.lruSize - 1 }

/-- The list a touched name is put at the end of, and the size the list then has: a name that has a
position moves, a new one is added. -/
def unlinked (s : ObjectCache) : Option Nat → Option (NodeList Bytes × Nat)
  | none => some (s.lru, s.lruSize + 1)
  | some it => (s.lru.erase it).map fun lru => (lru, s.lruSize)

def touchLru (limit : Nat) (name : Bytes) (s : ObjectCache) : Option ObjectCache := do
  let s ← shrinkLru name (s.lruSize - limit) s
  let entry ← s.cacheMap name
  let (lru, size) ← s.unlinked entry.lruIter
  let entry := { entry with lruIter := some lru.next, lruPromotionTs := s.lruCounter + 1 }
  some { s.setEntry name (some entry) with
    lru := lru.pushBack name, lruSize := size, lruCounter := s.lruCounter + 1 }

/-- `get`: the cached information and its generation, or a miss. -/
def get (limit : Nat) (name : Bytes) (mask : CacheFlags) (s : ObjectCache) :
    Option (Option (ObjectCacheInfo × UInt64) × ObjectCache) :=
  if !s.enabled then some (none, s)
  else match s.cacheMap name with
    | none => some (none, s)
    | some entry => do
        let s ← if s.lruWindow < s.lruCounter - entry.lruPromotionTs then s.touchLru limit name
          else some s
        let entry ← s.cacheMap name
        if entry.info.flags.covers mask then some (some (entry.info, entry.gen), s)
        else some (none, s)

/-- What `put` makes of the information an entry holds. -/
def merge (target info : ObjectCacheInfo) : ObjectCacheInfo :=
  if info.status < 0 then
    { target with status := info.status, flags := {}, xattrs := fun _ => none, data := [] }
  else
    let flags := target.flags.union info.flags
    { target with
      status := info.status
      -- a change that is not of the meta information resets it
      flags := if info.flags.metaInfo || info.flags.modifyXattrs then flags
        else { flags with metaInfo := false }
      metaInfo := if info.flags.metaInfo then info.metaInfo else target.metaInfo
      xattrs :=
        if info.flags.xattrs then info.xattrs
        else if info.flags.modifyXattrs then fun n =>
          (info.xattrs n).or (if (info.rmXattrs n).isSome then none else target.xattrs n)
        else target.xattrs
      data := if info.flags.data then info.data else target.data
      version := if info.flags.objv then info.version else target.version }

def put (limit : Nat) (name : Bytes) (info : ObjectCacheInfo) (s : ObjectCache) :
    Option ObjectCache :=
  if !s.enabled then some s
  else do
    let entry := (s.cacheMap name).getD {}
    let s := (s.invalidateChained entry.chainedEntries).setEntry name
      (some { entry with chainedEntries := [], gen := entry.gen + 1 })
    let s ← s.touchLru limit name
    let entry ← s.cacheMap name
    some (s.setEntry name (some { entry with info := merge entry.info info }))

def removeLru (s : ObjectCache) : Option Nat → Option (NodeList Bytes × Nat)
  | none => some (s.lru, s.lruSize)
  | some it => (s.lru.erase it).map fun lru => (lru, s.lruSize - 1)

def remove (name : Bytes) (s : ObjectCache) : Option ObjectCache :=
  if !s.enabled then some s
  else match s.cacheMap name with
    | none => some s
    | some entry => do
        let s := s.invalidateChained entry.chainedEntries
        let (lru, size) ← s.removeLru entry.lruIter
        some { s.setEntry name none with lru := lru, lruSize := size }

def invalidateAll (s : ObjectCache) : ObjectCache :=
  { s with
    cacheMap := fun _ => none
    lru := s.lru.clear
    lruSize := 0
    lruCounter := 0
    lruWindow := 0
    chained := fun _ _ => none }

def setEnabled (status : Bool) (s : ObjectCache) : ObjectCache :=
  if status then { s with enabled := true } else { s with enabled := false }.invalidateAll

def setCtx (lruLimit : Int) (s : ObjectCache) : ObjectCache :=
  { s with lruWindow := UInt64.ofInt (lruLimit.tdiv 2) }

/-- The entry is there and has not been put again since. -/
def stillValid (s : ObjectCache) (info : Bytes × UInt64) : Bool :=
  (s.cacheMap info.1).any fun entry => entry.gen = info.2

/-- `chain_cache_entry`: whether the record was taken, and the caches. -/
def chainCacheEntry (infos : List (Bytes × UInt64)) (c : ChainedCache) (key record : Bytes)
    (s : ObjectCache) : Bool × ObjectCache :=
  if !s.enabled then (false, s)
  else if infos.all s.stillValid then
    (true, { s with
      chained := Function.update s.chained c
        (Function.update (s.chained c) key (some ⟨record, infos.map Prod.fst⟩))
      cacheMap := fun name => (s.cacheMap name).map fun entry =>
        { entry with chainedEntries :=
            entry.chainedEntries ++ (infos.filter (·.1 = name)).map fun _ => (c, key) } })
  else (false, s)

def find (s : ObjectCache) (c : ChainedCache) (key : Bytes) : Option Bytes :=
  (s.chained c key).map ChainedRecord.record

end ObjectCache

inductive CacheOp where
  | get (name : Bytes) (mask : CacheFlags)
  | put (name : Bytes) (info : ObjectCacheInfo)
  | remove (name : Bytes)
  | setEnabled (status : Bool)
  | invalidateAll
  | chain (infos : List (Bytes × UInt64)) (c : ChainedCache) (key record : Bytes)

/-- One operation, where the configured limit is `lruLimit`; none if it is undefined. -/
def ObjectCache.step (lruLimit : Int) (s : ObjectCache) : CacheOp → Option ObjectCache
  | .get name mask => (s.get (toU64 lruLimit) name mask).map Prod.snd
  | .put name info => s.put (toU64 lruLimit) name info
  | .remove name => s.remove name
  | .setEnabled status => some (s.setEnabled status)
  | .invalidateAll => some s.invalidateAll
  | .chain infos c key record => some (s.chainCacheEntry infos c key record).2

def ObjectCache.init (lruLimit : Int) : ObjectCache := ({} : ObjectCache).setCtx lruLimit

end RadosGateway
