import RadosGateway.Base.Pieces
import RadosGateway.PutProcessor
import RadosGateway.Proof.ManifestWalk

/-!
# Reading an object of stripes

With the manifest that the processor makes, the first bytes of an object lie on its head and the
others on stripes of one size. `iterate_obj` reads a range in adjacent pieces, each from there. -/

namespace RadosGateway.PutProcessor

open Text Manifest ObjIterator Pieces

def place (head : Location) (objPrefix : Bytes) (chunk stripe o : Nat) : Location × Nat :=
  if o < chunk then (head, o)
  else (partLocation objPrefix 0 ((o - chunk) / stripe + 1), (o - chunk) % stripe)

def Read.piece (r : Read) : Nat × Nat := (r.ofs, r.len)

structure Striped (head : Location) (objPrefix : Bytes) (chunk stripe : Nat) (m : ObjManifest) :
    Prop where
  explicitObjs : m.explicitObjs = false
  headObj : m.headObj = head
  objPrefix : m.objPrefix = objPrefix
  maxHeadSize : m.maxHeadSize = chunk
  rules : m.rules = [(0, ⟨0, chunk, 0, stripe, []⟩)]

variable {o a last maxChunk : Nat}

structure Sized (chunk size : Nat) (m : ObjManifest) : Prop where
  headSize : m.headSize = min chunk size
  objSize : m.objSize = size
  endOfs : m.endIter.ofs = size

section Reader

variable {head : Location} {objPrefix : Bytes} {chunk stripe size : Nat} {m : ObjManifest}
  {it : ObjIterator}

theorem place_head (h : o < chunk) : place head objPrefix chunk stripe o = (head, o) := if_pos h

theorem place_stripe {j i : Nat} (hi : i < stripe) :
    place head objPrefix chunk stripe (chunk + j * stripe + i) = (partLocation objPrefix 0 (j + 1),
      i) := by
  have hpos : 0 < stripe := Nat.zero_lt_of_lt hi
  have hdiff : chunk + j * stripe + i - chunk = i + stripe * j := by
    rw [add_assoc, Nat.add_sub_cancel_left, add_comm, mul_comm]
  rw [place, if_neg (by omega), hdiff, Nat.add_mul_div_left i j hpos, Nat.add_mul_mod_self_left,
    Nat.div_eq_of_lt hi, Nat.mod_eq_of_lt hi, zero_add]

structure OnHead (m : ObjManifest) (it : ObjIterator) : Prop where
  ruleIter : it.ruleIter = m.rules
  curPartId : it.curPartId = 0
  curOverridePrefix : it.curOverridePrefix = []
  lt : it.ofs < m.headSize
  stripeOfs : it.stripeOfs = 0
  stripeSize : it.stripeSize = m.headSize
  location : it.location = m.headObj

/-- The iterator is at the stripe with index `j`. The size it has is the one of the stripe it came
from, which only the last one does not have. -/
structure OnStripe (m : ObjManifest) (chunk stripe j : Nat) (it : ObjIterator) : Prop where
  ruleIter : it.ruleIter = m.rules
  curPartId : it.curPartId = 0
  curStripe : it.curStripe = j + 1
  le : m.headSize ≤ it.ofs
  lt : it.ofs < m.objSize
  stripeOfs : it.stripeOfs = chunk + j * stripe
  stripeSize_le : it.stripeSize ≤ stripe
  le_stripeSize : min (m.objSize - (chunk + j * stripe)) stripe ≤ it.stripeSize
  location : it.location = partLocation m.objPrefix 0 (j + 1)

section

variable (hm : Striped head objPrefix chunk stripe m)
include hm

theorem Striped.rule_seek (o : Nat) :
    stepBack m.rules (upperBound o m.rules) = m.rules ∧ upperBound o m.rules = [] := by
  have hupper : upperBound o m.rules = [] := by
    rw [hm.rules, upperBound, List.dropWhile_cons_of_pos (by simp), List.dropWhile_nil]
  rw [hupper, stepBack, hm.rules]
  exact ⟨rfl, rfl⟩

theorem Striped.location (hle : m.headSize ≤ it.ofs)
    (hchunk : chunk ≤ it.ofs) (hpart : it.curPartId = 0) (hover : it.curOverridePrefix = []) :
    (updateLocation m it).location = partLocation m.objPrefix 0 it.curStripe := by
  rw [updateLocation, if_neg (by simp [hm.explicitObjs]), if_neg (Nat.not_lt.mpr hle)]
  rw [ObjManifest.getImplicitLocation, if_pos hpart, hm.maxHeadSize, if_neg (Nat.not_lt.mpr hchunk),
    hover]
  rfl

theorem onHead_seek (ho : o < m.headSize) : OnHead m (seek m it o) := by
  have hseek : seek m it o =
      { it with
        ofs := o, ruleIter := m.rules, stripeOfs := 0, stripeSize := m.headSize, curPartId := 0,
        curOverridePrefix := [], location := m.headObj } := by
    rw [seek, if_neg (by simp [hm.explicitObjs]), if_pos ho]
    rw [hm.rules]
    dsimp only
    rw [updateLocation, if_neg (by simp [hm.explicitObjs]), if_pos ho]
  rw [hseek]
  exact ⟨rfl, rfl, rfl, ho, rfl, rfl, rfl⟩

/-- `seek` finds the stripe by division. -/
theorem onStripe_seek (hsize : Sized chunk size m) (hpos : 0 < chunk)
    (hstripe : 0 < stripe) (hchunk : chunk ≤ o) (ho : o < size) :
    OnStripe m chunk stripe ((o - chunk) / stripe) (seek m it o) := by
  have hhead : m.headSize = chunk := by
    rw [hsize.headSize]
    omega
  have hle : m.headSize ≤ o := hhead ▸ hchunk
  obtain ⟨hback, hupper⟩ := hm.rule_seek o
  have hseek : seek m it o = updateLocation m
      { it with
        ofs := o, ruleIter := m.rules, nextRuleIter := [], curPartId := 0, partOfs := chunk,
        stripeOfs := chunk + (o - chunk) / stripe * stripe, curStripe := (o - chunk) / stripe + 1,
        stripeSize := min (m.objSize - (chunk + (o - chunk) / stripe * stripe)) stripe,
        curOverridePrefix := [] } := by
    rw [seek, if_neg (by simp [hm.explicitObjs]), if_neg (Nat.not_lt.mpr hle)]
    dsimp only
    rw [hback, hupper, hm.rules]
    dsimp only
    rw [seekRule]
    simp only [Nat.lt_irrefl, if_false, Nat.sub_self, zero_mul, add_zero, hstripe, if_true, hhead,
      hpos, and_self]
  rw [hseek, updateLocation_eq, hm.location hle hchunk rfl rfl]
  constructor
  · rfl
  · rfl
  · rfl
  · exact hle
  · rw [hsize.objSize]
    exact ho
  · rfl
  · exact Nat.min_le_right _ _
  · exact Nat.le_refl _
  · rfl

theorem OnHead.next (hsize : Sized chunk size m) (h : OnHead m it)
    (hlt : chunk < size) : OnStripe m chunk stripe 0 (ObjIterator.next m it) := by
  have hhead : m.headSize = chunk := by
    rw [hsize.headSize]
    omega
  have hne : it.ofs ≠ m.objSize := by
    have := h.lt
    rw [hsize.objSize]
    omega
  have hmin : min m.headSize m.objSize = chunk := by
    rw [hhead, hsize.objSize]
    omega
  have hnext : ObjIterator.next m it = updateLocation m
      { it with
        ruleIter := m.rules, ofs := chunk, stripeOfs := chunk, curStripe := 1,
        stripeSize := min (m.objSize - chunk) stripe } := by
    rw [ObjIterator.next, if_neg (by simp [hm.explicitObjs]), if_neg hne, h.ruleIter, hm.rules]
    dsimp only
    rw [if_pos h.lt, hmin]
    rfl
  rw [hnext, updateLocation_eq, hm.location hhead.le (Nat.le_refl _) (by exact h.curPartId)
    (by exact h.curOverridePrefix)]
  constructor
  · rfl
  · exact h.curPartId
  · rfl
  · exact hhead.le
  · rw [hsize.objSize]
    exact hlt
  · rw [zero_mul]
    rfl
  · exact Nat.min_le_right _ _
  · rw [zero_mul]
    exact Nat.le_refl _
  · rfl

/-- The iterator goes to the next stripe. -/
theorem OnStripe.next (hsize : Sized chunk size m) {j : Nat}
    (h : OnStripe m chunk stripe j it) (hlt : chunk + (j + 1) * stripe < size) :
    OnStripe m chunk stripe (j + 1) (ObjIterator.next m it) := by
  have hsucc : (j + 1) * stripe = j * stripe + stripe := Nat.succ_mul j stripe
  have hhead : m.headSize ≤ chunk := hsize.headSize ▸ Nat.min_le_left _ _
  have hrules : it.ruleIter = [(0, ⟨0, chunk, 0, stripe, []⟩)] := h.ruleIter.trans hm.rules
  have hnext : ObjIterator.next m it = nextStripe m ⟨0, chunk, 0, stripe, []⟩ it := by
    rw [ObjIterator.next, if_neg (by simp [hm.explicitObjs]), if_neg (Nat.ne_of_lt h.lt), hrules,
      hm.rules]
    dsimp only
    rw [if_neg (Nat.not_lt.mpr h.le), currentRule, hrules]
  have hofs : it.stripeOfs + stripe = chunk + (j + 1) * stripe := by
    rw [h.stripeOfs, hsucc, add_assoc]
  have hchunk : chunk ≤ it.stripeOfs + stripe := by omega
  rw [hnext, nextStripe_open rfl hrules (by rw [hsize.objSize]; exact hofs ▸ hlt.le),
    updateLocation_eq,
    hm.location (hhead.trans hchunk) hchunk (by exact h.curPartId) rfl]
  constructor
  · exact h.ruleIter
  · exact h.curPartId
  · rw [h.curStripe]
  · exact hhead.trans hchunk
  · rw [hofs, hsize.objSize]
    exact hlt
  · exact hofs
  · exact h.stripeSize_le
  · have hle := h.le_stripeSize
    change _ ≤ it.stripeSize
    omega
  · rw [h.curStripe]

end

def On (m : ObjManifest) (chunk stripe : Nat) (it : ObjIterator) (o : Nat) : Prop :=
  OnHead m it ∧ o ≤ m.headSize
    ∨ ∃ j, OnStripe m chunk stripe j it ∧ chunk + j * stripe ≤ o ∧
      o ≤ chunk + j * stripe + it.stripeSize

theorem stripe_eq (hm : Striped head objPrefix chunk stripe m) :
    ObjIterator.stripe m it = some (it.stripeOfs, it.stripeSize, 0) := by
  rw [ObjIterator.stripe, if_neg (by simp [hm.explicitObjs])]

theorem On.le (h : On m chunk stripe it o) : it.stripeOfs ≤ o ∧
    o ≤ it.stripeOfs + it.stripeSize := by
  cases h with
  | inl h => rw [h.1.stripeOfs, h.1.stripeSize, zero_add]; exact ⟨Nat.zero_le o, h.2⟩
  | inr h =>
    obtain ⟨j, hj, hle⟩ := h
    rw [hj.stripeOfs]
    exact hle

theorem On.mono {o o' : Nat} (h : On m chunk stripe it o) (hle : o ≤ o')
    (hle' : o' ≤ it.stripeOfs + it.stripeSize) : On m chunk stripe it o' := by
  cases h with
  | inl h =>
    rw [h.1.stripeOfs, h.1.stripeSize, zero_add] at hle'
    exact Or.inl ⟨h.1, hle'⟩
  | inr h =>
    obtain ⟨j, hj, hge, -⟩ := h
    rw [hj.stripeOfs] at hle'
    exact Or.inr ⟨j, hj, hge.trans hle, hle'⟩

theorem On.ofs_ne (hsize : Sized chunk size m) (h : On m chunk stripe it o) :
    it.ofs ≠ m.endIter.ofs := by
  rw [hsize.endOfs]
  cases h with
  | inl h =>
    have hlt := h.1.lt
    rw [hsize.headSize] at hlt
    omega
  | inr h =>
    obtain ⟨j, hj, -⟩ := h
    exact Nat.ne_of_lt (hsize.objSize ▸ hj.lt)

/-- Where the iterator is, bytes are where the layout has them. -/
theorem On.place_eq (hm : Striped head objPrefix chunk stripe m) (hsize : Sized chunk size m)
    {o x : Nat}
    (h : On m chunk stripe it o) (hle : it.stripeOfs ≤ x) (hlt : x < it.stripeOfs + it.stripeSize) :
    place head objPrefix chunk stripe x = (it.location, x - it.stripeOfs) := by
  cases h with
  | inl h =>
    rw [h.1.stripeOfs, h.1.stripeSize, zero_add, hsize.headSize] at hlt
    rw [place_head (by omega), h.1.location, hm.headObj, h.1.stripeOfs, Nat.sub_zero]
  | inr h =>
    obtain ⟨j, hj, -⟩ := h
    have hin : x - it.stripeOfs < stripe := by
      have := hj.stripeSize_le
      omega
    have hx : x = chunk + j * stripe + (x - it.stripeOfs) := by
      have := hj.stripeOfs
      omega
    rw [hx, place_stripe hin, hj.location, hm.objPrefix, ← hx]

theorem On.next (hm : Striped head objPrefix chunk stripe m) (hsize : Sized chunk size m)
    (hpos : 0 < stripe)
    (h : On m chunk stripe it (it.stripeOfs + it.stripeSize))
    (hlt : it.stripeOfs + it.stripeSize < size) :
    On m chunk stripe (ObjIterator.next m it) (it.stripeOfs + it.stripeSize) ∧
    it.stripeOfs + it.stripeSize
        < (ObjIterator.next m it).stripeOfs + (ObjIterator.next m it).stripeSize := by
  -- only the last stripe is smaller than the others, and it does not end here
  have hnext : ∃ j, OnStripe m chunk stripe j (ObjIterator.next m it)
      ∧ it.stripeOfs + it.stripeSize = chunk + j * stripe := by
    cases h with
    | inl h =>
      rw [h.1.stripeOfs, h.1.stripeSize, zero_add, hsize.headSize] at hlt ⊢
      refine ⟨0, h.1.next hm hsize (by omega), ?_⟩
      omega
    | inr h =>
      obtain ⟨j, hj, -⟩ := h
      have hsucc : (j + 1) * stripe = j * stripe + stripe := Nat.succ_mul j stripe
      have hle := hj.stripeSize_le
      have hge := hj.le_stripeSize
      rw [hsize.objSize] at hge
      rw [hj.stripeOfs] at hlt ⊢
      exact ⟨j + 1, hj.next hm hsize (by omega), by omega⟩
  obtain ⟨j, hj, hofs⟩ := hnext
  have hge := hj.le_stripeSize
  rw [hsize.objSize] at hge
  rw [hj.stripeOfs, hofs]
  exact ⟨Or.inr ⟨j, hj, Nat.le_refl _, Nat.le_add_right _ _⟩, by omega⟩

structure Reads (head : Location) (objPrefix : Bytes) (chunk stripe a b : Nat) (reads : List Read) :
    Prop where
  chain : Chain a (reads.map Read.piece)
  total_eq : a + total (reads.map Read.piece) = b
  placed : ∀ r ∈ reads, ∀ i < r.len, place head objPrefix chunk stripe (r.ofs + i) =
    (r.obj, r.readOfs + i)

theorem Reads.append {a b : Nat} {reads : List Read}
    (h : Reads head objPrefix chunk stripe a b reads) {r : Read}
    (hofs : r.ofs = b) (hlen : 0 < r.len)
    (hplace : ∀ i < r.len, place head objPrefix chunk stripe (r.ofs + i) = (r.obj, r.readOfs + i)) :
    Reads head objPrefix chunk stripe a (b + r.len) (reads ++ [r]) := by
  constructor
  · rw [List.map_append, chain_append, h.total_eq]
    exact ⟨h.chain, hofs, hlen, trivial⟩
  · rw [List.map_append, total_append, ← add_assoc, h.total_eq]
    rfl
  · intro q hq
    cases List.mem_append.mp hq with
    | inl hq => exact h.placed q hq
    | inr hq =>
      rw [List.mem_singleton.mp hq]
      exact hplace

structure Reading (head : Location) (objPrefix : Bytes) (chunk stripe a last : Nat)
    (m : ObjManifest) (r : Reader) :
    Prop where
  ofs_le : r.ofs ≤ last + 1
  len : r.len = last + 1 - r.ofs
  on : On m chunk stripe r.iter r.ofs
  reads : Reads head objPrefix chunk stripe a r.ofs r.reads

def Reader.measure (r : Reader) : Nat :=
  2 * r.len + if r.ofs < r.iter.stripeOfs + r.iter.stripeSize then 0 else 1

section

variable (hm : Striped head objPrefix chunk stripe m) (hsize : Sized chunk size m)
include hm hsize

/-- One read ends at the end of the range, of the stripe or of the chunk. -/
theorem Reading.read {r : Reader} (h : Reading head objPrefix chunk stripe a last m r)
    (hmax : 0 < maxChunk)
    (hofs : r.ofs ≤ last) (hlt : r.ofs < r.iter.stripeOfs + r.iter.stripeSize) {n : Nat}
    (hn : n = min (min r.len (r.iter.stripeSize - (r.ofs - r.iter.stripeOfs))) maxChunk) :
    Reading head objPrefix chunk stripe a last m
        ⟨r.iter, r.ofs + n, r.len - n,
          r.reads ++ [⟨r.iter.location, r.ofs, 0 + (r.ofs - r.iter.stripeOfs), n⟩]⟩
      ∧ 0 < n ∧ n ≤ r.len := by
  have hlen := h.len
  have hon := h.on.le
  have hpos : 0 < n := by omega
  refine ⟨?_, hpos, by omega⟩
  constructor
  · dsimp only
    omega
  · dsimp only
    omega
  · exact h.on.mono (Nat.le_add_right _ _) (by dsimp only; omega)
  · refine Reads.append (r := ⟨_, _, _, _⟩) h.reads rfl hpos fun i hi => ?_
    dsimp only at hi ⊢
    rw [h.on.place_eq hm hsize (by omega) (by omega), zero_add, Nat.sub_add_comm hon.1]

/-- The loop of `iterate_obj` keeps its place and ends. -/
theorem keeps_iterateTurn (hpos : 0 < stripe) (hmax : 0 < maxChunk) (hlast : last < size) :
    Loop.Keeps (iterateTurn m maxChunk last) (Reading head objPrefix chunk stripe a last m)
      (fun result => ∃ reads, result = some reads ∧
        Reads head objPrefix chunk stripe a (last + 1) reads)
      Reader.measure := by
  intro r h
  by_cases hofs : r.ofs ≤ last
  · left
    rw [iterateTurn, if_pos ⟨h.on.ofs_ne hsize, hofs⟩, stripe_eq hm]
    dsimp only
    by_cases hlt : r.ofs < r.iter.stripeOfs + r.iter.stripeSize
    · obtain ⟨hread, hn, hle⟩ := h.read hm hsize hmax hofs hlt rfl
      rw [if_pos hlt]
      refine ⟨_, rfl, hread, ?_⟩
      rw [Reader.measure, Reader.measure, if_pos hlt]
      dsimp only
      split_ifs <;> omega
    · have heq : r.iter.stripeOfs + r.iter.stripeSize = r.ofs :=
        Nat.le_antisymm (Nat.not_lt.mp hlt) h.on.le.2
      obtain ⟨hnext, hlt'⟩ := On.next hm hsize hpos (heq ▸ h.on) (heq ▸ hofs.trans_lt hlast)
      rw [heq] at hnext hlt'
      rw [if_neg hlt]
      refine ⟨_, rfl, ⟨h.ofs_le, h.len, hnext, h.reads⟩, ?_⟩
      rw [Reader.measure, Reader.measure, if_pos hlt', if_neg hlt]
      exact Nat.lt_succ_self _
  · right
    have hend : r.ofs = last + 1 := Nat.le_antisymm h.ofs_le (Nat.not_le.mp hofs)
    rw [iterateTurn, if_neg (fun hand => hofs hand.2)]
    exact ⟨_, rfl, r.reads, rfl, hend ▸ h.reads⟩

/-- `obj_find` finds the stripe of an offset. -/
theorem on_objFind (hchunk : 0 < chunk)
    (hpos : 0 < stripe) (ho : o < size) : On m chunk stripe (m.objFind o) o := by
  rw [ObjManifest.objFind, hsize.objSize, Nat.min_eq_left ho.le]
  by_cases hlt : o < m.headSize
  · exact Or.inl ⟨onHead_seek hm hlt, hlt.le⟩
  · have hle : chunk ≤ o := by
      rw [hsize.headSize] at hlt
      omega
    have hseek : OnStripe m chunk stripe _ (seek m {} o) :=
      onStripe_seek hm hsize hchunk hpos hle ho
    have hge := hseek.le_stripeSize
    have hdiv := Nat.div_add_mod' (o - chunk) stripe
    have hmod := Nat.mod_lt (o - chunk) hpos
    rw [hsize.objSize] at hge
    exact Or.inr ⟨_, hseek, by omega, by omega⟩

theorem gives_iterateObj (hchunk : 0 < chunk) (hpos : 0 < stripe) {maxChunk ofs last : Nat}
    (hmax : 0 < maxChunk) (hofs : ofs ≤ last)
    (hlast : last < size) : ∃ reads, Loop.Gives (fun fuel => iterateObj fuel m maxChunk ofs last)
    (some reads)
      ∧ Reads head objPrefix chunk stripe ofs (last + 1) reads := by
  have hstart : Reading head objPrefix chunk stripe ofs last m ⟨m.objFind ofs, ofs, last + 1 - ofs,
    []⟩ :=
    ⟨hofs.trans (Nat.le_succ last), rfl, on_objFind hm hsize hchunk hpos (hofs.trans_lt hlast),
      trivial, rfl, List.forall_mem_nil _⟩
  obtain ⟨result, hgives, reads, rfl, hreads⟩ :=
    (keeps_iterateTurn hm hsize hpos hmax hlast).exists_gives hstart
  exact ⟨reads, hgives, hreads⟩

end

end Reader

end RadosGateway.PutProcessor
