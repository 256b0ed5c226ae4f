import RadosGateway.Base.Rollup
import RadosGateway.ListObjects

/-!
# Listing a set of keys

What a listing with a one-byte delimiter is to find in a set of keys, and the index it is to find it
with. Keys behind the marker with the prefix are listed, and those with the delimiter behind it are
rolled up into the part that ends there.
-/

namespace RadosGateway.KeyListing

open Text

/-- The objects of a bucket, by name, and the entries that the index has of them. -/
structure KeySet where
  keys : List Bytes
  sorted : keys.Pairwise (· < ·)
  entry : Bytes → ObjEnt
  key_entry : ∀ k ∈ keys, (entry k).key = ⟨Listing.indexKeyName k, []⟩
  isVisible_entry : ∀ k ∈ keys, (entry k).isVisible = true

namespace KeySet

variable (K : KeySet)

/-- The keys with index keys behind a marker that start with a prefix. -/
def behind (start pre : Bytes) : List Bytes :=
  K.keys.filter fun k => start < Listing.indexKeyName k ∧ pre <+: Listing.indexKeyName k

def index : ListObjects.Index := fun start pre n _ =>
  let rest := K.behind start.name pre
  let page := rest.take n
  some {
    entMap := page.map fun k => (Listing.indexKeyName k, K.entry k)
    isTruncated := n < rest.length
    lastEntry := page.getLast?.map Listing.indexKeyName }

end KeySet

inductive Item
  | key (k : Bytes)
  | common (c : Bytes)
  deriving DecidableEq

namespace Item

def key? : Item → Option Bytes
  | .key k => some k
  | .common _ => none

def common? : Item → Option Bytes
  | .key _ => none
  | .common c => some c

/-- The marker is behind the beginning of a common prefix, so that an earlier page had it. -/
def covered (m : Bytes) : Item → Bool
  | .key _ => false
  | .common c => c <+: m

end Item

section

variable (pre : Bytes) (d : UInt8)

def item (k : Bytes) : Item :=
  if d ∈ k.drop pre.length then
    .common (k.take pre.length ++ (k.drop pre.length).takeWhile (· ≠ d) ++ [d])
  else .key k

variable (K : KeySet) (m : Bytes)

def listedKeys : List Bytes := K.keys.filter fun k => m < k ∧ pre <+: k ∧
    (item pre d k).covered m = false

def items : List Item := Rollup.once ((listedKeys pre d K m).map (item pre d))

def KeySet.shown (k : Bytes) : ObjEnt := { K.entry k with key := ⟨k, []⟩, ns := [] }

/-- The first `n` items have been found. -/
structure Lists (n : Nat) (found : ListObjects.Found) : Prop where
  result : found.result = (((items pre d K m).take n).filterMap Item.key?).map K.shown
  commonPrefixes : ∀ c, c ∈ SortedMap.keys found.commonPrefixes ↔
    .common c ∈ (items pre d K m).take n
  truncated : found.truncated = decide (n < (items pre d K m).length)

end

section

variable (d : UInt8)

/-- The delimiter with the next character in its place. -/
def bigger : Bytes := (Listing.biggerThanDelim [d]).getD []

def skipAfter (known : List Item) : Bytes :=
  match (known.filterMap Item.common?).getLast? with
  | none => []
  | some c => c.dropLast ++ bigger d

def resume (known : List Item) (page : List Bytes) : Bytes :=
  match page.getLast? with
  | none => skipAfter d known
  | some k => if Listing.indexKeyName k < skipAfter d known then skipAfter d known
    else Listing.indexKeyName k

/-- The key has its index key behind the place where the listing goes on. -/
def past (known : List Item) (page : List Bytes) (k : Bytes) : Bool :=
  resume d known page < Listing.indexKeyName k

end

/-- The parameters of a listing with a prefix, a one-byte delimiter and a marker. -/
def params (pre : Bytes) (d : UInt8) (m : Bytes) : ListObjects.Params where
  keyPrefix := pre
  delim := [d]
  marker := ⟨m, []⟩

/-- No key is passed over: the bucket can be listed, the delimiter has a next character, and every
page starts in front of all keys that are new. -/
structure PassesNone (K : KeySet) (bucket pre : Bytes) (d : UInt8) (m : Bytes) (n : Nat) :
    Prop where
  bucket : bucket.head? ≠ some 46
  delim : d < 0x80
  start : ∀ k ∈ listedKeys pre d K m, Listing.startMarker ⟨pre, [d], m, []⟩ (bigger d) <
    Listing.indexKeyName k
  pages : ¬ Rollup.Lost (item pre d) (past d) n (listedKeys pre d K m) []

end RadosGateway.KeyListing
