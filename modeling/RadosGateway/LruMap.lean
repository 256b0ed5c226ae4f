import RadosGateway.Base.Bytes
import RadosGateway.Base.NodeList

/-!
# A map that forgets what was not used lately

`lru_map`: a map whose entries know their places in a list of the keys, the key used last in front.
Every call, made under the lock, is one step. A list iterator that is no longer valid, the last
element of an empty list and the erasure of `end()` have no result. -/

namespace RadosGateway

open Text

structure LruMap.Entry (V : Type) where
  value : V
  lruIter : Nat

structure LruMap (K V : Type) where
  entries : AList fun _ : K => LruMap.Entry V
  entriesLru : NodeList K
  max : Nat

namespace LruMap

variable {K V : Type}

/-- The constructor: `max` is a `size_t` that is given as an `int`. -/
def new (max : Int) : LruMap K V := ⟨∅, .empty, toU64 max⟩

def size (m : LruMap K V) : Nat := m.entries.entries.length

/-- What a search returns, and what it stores through the pointer `value`. -/
structure Found (V : Type) where
  ret : Bool
  value : Option V

/-- `UpdateContext`: the value behind the call, and whether the object counts as updated. -/
abbrev UpdateContext (V : Type) := V → Bool × V

/-- What a search returns and leaves; without an update it succeeds and changes nothing. -/
def applyUpdate : Option (UpdateContext V) → UpdateContext V
  | none => fun v => (true, v)
  | some update => update

variable [DecidableEq K]

def findEntry (m : LruMap K V) (key : K) (ctx : Option (UpdateContext V)) :
    Option (LruMap K V × Found V) :=
  match m.entries.lookup key with
  | none => some (m, ⟨false, none⟩)
  | some e => do
      let lru ← m.entriesLru.erase e.lruIter
      let (r, value) := applyUpdate ctx e.value
      some ({ m with entries := m.entries.insert key ⟨value, lru.next⟩, entriesLru :=
        lru.pushFront key },
        ⟨r, some value⟩)

def find (m : LruMap K V) (key : K) : Option (LruMap K V × Found V) := m.findEntry key none

def findAndUpdate (m : LruMap K V) (key : K) (ctx : Option (UpdateContext V)) :
    Option (LruMap K V × Found V) :=
  m.findEntry key ctx

theorem length_erase_lt {m : AList fun _ : K => Entry V} {key : K} (h : key ∈ m) :
    (m.erase key).entries.length < m.entries.length := by
  have hkeys : (m.erase key).keys.length + 1 = m.keys.length := by
    rw [AList.keys_erase, List.length_erase_add_one (AList.mem_keys.mp h)]
  simp only [AList.keys, List.keys, List.length_map] at hkeys
  omega

def shrink (m : LruMap K V) : Option (LruMap K V) :=
  if m.max < m.size then
    match m.entriesLru.back with
    | none => none
    | some key =>
      if _h : (m.entries.lookup key).isSome then
        shrink { m with entries := m.entries.erase key, entriesLru := m.entriesLru.popBack }
      else none
  else some m
termination_by m.size
decreasing_by exact length_erase_lt (AList.lookup_isSome.mp _h)

/-- `entries_lru` without the node of a key that is already there. -/
def lruWithout (m : LruMap K V) (key : K) : Option (NodeList K) :=
  match m.entries.lookup key with
  | none => some m.entriesLru
  | some e => m.entriesLru.erase e.lruIter

def add (m : LruMap K V) (key : K) (value : V) : Option (LruMap K V) := do
  let lru ← m.lruWithout key
  shrink { m with entries :=
    m.entries.insert key ⟨value, lru.next⟩, entriesLru := lru.pushFront key }

def erase (m : LruMap K V) (key : K) : Option (LruMap K V) :=
  match m.entries.lookup key with
  | none => some m
  | some e => do
      let lru ← m.entriesLru.erase e.lruIter
      some { m with entries := m.entries.erase key, entriesLru := lru }

inductive Call (K V : Type) where
  | add (key : K) (value : V)
  | find (key : K)
  | findAndUpdate (key : K) (ctx : Option (UpdateContext V))
  | erase (key : K)

def call (m : LruMap K V) : Call K V → Option (LruMap K V × Option (Found V))
  | .add key value => (m.add key value).map fun m => (m, none)
  | .find key => (m.find key).map fun r => (r.1, some r.2)
  | .findAndUpdate key ctx => (m.findAndUpdate key ctx).map fun r => (r.1, some r.2)
  | .erase key => (m.erase key).map fun m => (m, none)

/-- The calls one after the other: the map behind them and what they returned. -/
def run (m : LruMap K V) : List (Call K V) → Option (LruMap K V × List (Option (Found V)))
  | [] => some (m, [])
  | c :: cs => do
      let (m, found) ← m.call c
      let (m, rest) ← m.run cs
      some (m, found :: rest)

end LruMap

end RadosGateway
