import RadosGateway.Base.Layout
import RadosGateway.Manifest

/-!
# Walking over a manifest

The rules of a manifest without a head stand for parts that follow each other: a rule for a number
of parts of one size, with numbers that increase one by one. The iterator visits them in this order.
-/

namespace RadosGateway.Manifest

open Text ObjIterator
open List hiding next

def partLocation (objPrefix : Bytes) (partId stripe : Nat) : Location :=
  if partId = 0 then ⟨shadowNs, objPrefix ++ decimal stripe⟩
  else if stripe = 0 then ⟨multipartNs, objPrefix ++ ascii "." ++ decimal partId⟩
  else ⟨shadowNs, objPrefix ++ ascii "." ++ decimal partId ++ ascii "_" ++ decimal stripe⟩

def partBlock (objPrefix : Bytes) (num size stripe : Nat) : Layout.Block (Location × Nat) :=
  ⟨size, fun o => (partLocation objPrefix num (o / stripe), o % stripe)⟩

def effective (objPrefix overridePrefix : Bytes) : Bytes := if overridePrefix.isEmpty then objPrefix
    else overridePrefix

structure Plain (m : ObjManifest) : Prop where
  explicitObjs : m.explicitObjs = false
  headSize : m.headSize = 0
  maxHeadSize : m.maxHeadSize = 0
  rules : m.rules ≠ []
  endOfs : m.endIter.ofs = m.objSize

variable {m : ObjManifest} {it : ObjIterator}

theorem Plain.location (hm : Plain m) (it : ObjIterator) : (updateLocation m it).location
      = partLocation (effective m.objPrefix it.curOverridePrefix) it.curPartId it.curStripe := by
  rw [updateLocation, if_neg (by simp [hm.explicitObjs]), if_neg (by simp [hm.headSize]),
    ObjManifest.getImplicitLocation]
  simp only [hm.maxHeadSize, Nat.not_lt_zero, if_false, partLocation, effective]

theorem updateLocation_eq (m : ObjManifest) (it : ObjIterator) :
    updateLocation m it = { it with location := (updateLocation m it).location } := by
  rw [updateLocation]
  split_ifs
  · split <;> rfl
  · rfl
  · rfl

theorem ofs_updateLocation (m : ObjManifest) (it : ObjIterator) :
    (updateLocation m it).ofs = it.ofs := by
  rw [updateLocation_eq]

theorem ofs_seek {m : ObjManifest} (h : m.explicitObjs = false) (it : ObjIterator) (o : Nat) :
    (seek m it o).ofs = o := by
  rw [seek, if_neg (by simp [h])]
  split_ifs
  · split <;> rw [ofs_updateLocation]
  · dsimp only
    split
    · rw [ofs_updateLocation]
      rfl
    · rw [ofs_updateLocation]

def Visits (m : ObjManifest) (it : ObjIterator) (f : Nat → Option (Location × Nat)) : Prop :=
  ∃ fuel l, ObjManifest.stripesFrom m fuel it = some l ∧ ∀ o, it.ofs ≤ o →
    ObjManifest.locate l o = f o

variable {f : Nat → Option (Location × Nat)}

theorem visits_end (hend : it.ofs = m.endIter.ofs) (hf : ∀ o, it.ofs ≤ o → f o = none) :
    Visits m it f := by
  refine ⟨1, [], ?_, fun o ho => (hf o ho).symm⟩
  rw [ObjManifest.stripesFrom, if_pos hend]

theorem Visits.step {size : Nat} (hnext : Visits m (next m it) f)
    (hne : it.ofs ≠ m.endIter.ofs) (hstripe : stripe m it = some (it.ofs, size, 0))
    (hofs : (next m it).ofs = it.ofs + min size (m.objSize - it.ofs))
    (hf : ∀ o, it.ofs ≤ o → o < (next m it).ofs → f o = some (it.location, o - it.ofs)) :
    Visits m it f := by
  obtain ⟨fuel, l, hl, hlocate⟩ := hnext
  refine ⟨fuel + 1, ⟨it.ofs, min size (m.objSize - it.ofs), it.location, 0⟩ :: l, ?_, ?_⟩
  · rw [ObjManifest.stripesFrom, if_neg hne, hstripe, Option.bind_some, hl]
    rfl
  · intro o ho
    rw [ObjManifest.locate]
    rw [← hofs]
    split_ifs with hin
    · rw [hf o ho hin.2, zero_add]
    · exact hlocate o (Nat.not_lt.mp fun hlt => hin ⟨ho, hlt⟩)

structure Group where
  num : Nat
  count : Nat
  size : Nat
  stripe : Nat
  overridePrefix : Bytes
  count_pos : 0 < count
  size_pos : 0 < size
  stripe_pos : 0 < stripe

namespace Group

def length (g : Group) : Nat := g.count * g.size

def rule (g : Group) (startOfs : Nat) : Rule :=
  ⟨g.num, startOfs, g.size, g.stripe, g.overridePrefix⟩

def block (objPrefix : Bytes) (g : Group) (i : Nat) : Layout.Block (Location × Nat) :=
  partBlock (effective objPrefix g.overridePrefix) (g.num + i) g.size g.stripe

def blocks (objPrefix : Bytes) (g : Group) : List (Layout.Block (Location × Nat)) :=
  (List.range g.count).map (g.block objPrefix)

variable (objPrefix : Bytes)

theorem total_blocks_range (g : Group) (n : Nat) :
    Layout.total ((List.range n).map (g.block objPrefix)) = n * g.size := by
  induction n with
  | zero => rw [zero_mul]; rfl
  | succ n ih =>
    rw [range_succ, map_append, Layout.total_append, ih, Nat.succ_mul]
    rfl

theorem total_blocks (g : Group) : Layout.total (g.blocks objPrefix) = g.length :=
  g.total_blocks_range objPrefix g.count

/-- The byte of a group by its part. -/
theorem lookup_blocks (g : Group) {i o : Nat} (hi : i < g.count) (ho : o < g.size)
    (bs : List (Layout.Block (Location × Nat))) :
    Layout.lookup (g.blocks objPrefix ++ bs)
    (i * g.size + o) = some ((g.block objPrefix i).val o) := by
  obtain ⟨k, hk⟩ := Nat.exists_eq_add_of_lt hi
  have hsplit : List.range g.count = List.range i ++ i :: (List.range k).map (i + 1 + ·) := by
    rw [hk, add_assoc, range_add, add_comm k 1, range_add, map_append, map_map]
    rw [range_one, map_singleton, add_zero, singleton_append]
    congr 2
    apply map_congr_left
    intro j _
    exact (add_assoc i 1 j).symm
  rw [blocks, hsplit, map_append, map_cons, append_assoc, cons_append,
    ← g.total_blocks_range objPrefix i]
  exact Layout.lookup_block _ _ _ ho

end Group

def rulesOf : Nat → List Group → List (Nat × Rule)
  | _, [] => []
  | a, g :: gs => (a, g.rule a) :: rulesOf (a + g.length) gs

def blocksOf (objPrefix : Bytes) (gs : List Group) : List (Layout.Block (Location × Nat)) :=
  gs.flatMap (Group.blocks objPrefix)

theorem blocksOf_cons (objPrefix : Bytes) (g : Group) (gs : List Group) :
    blocksOf objPrefix (g :: gs) = g.blocks objPrefix ++ blocksOf objPrefix gs := flatMap_cons

def lengthOf (gs : List Group) : Nat := (gs.map Group.length).sum

theorem total_blocksOf (objPrefix : Bytes) (gs : List Group) :
    Layout.total (blocksOf objPrefix gs) = lengthOf gs := by
  induction gs with
  | nil => rfl
  | cons g gs ih =>
    rw [blocksOf_cons, Layout.total_append, g.total_blocks, ih]
    rfl

/-- The iterator is at stripe `j` of part `i` of the group that starts at `a`; behind the rules of
the groups comes at most the one of an empty part. -/
structure At (m : ObjManifest) (tail : List (Nat × Rule)) (a : Nat) (g : Group) (gs : List Group)
    (i j : Nat)
    (it : ObjIterator) : Prop where
  ruleIter : it.ruleIter = rulesOf a (g :: gs) ++ tail
  nextRuleIter : it.nextRuleIter = rulesOf (a + g.length) gs ++ tail
  part_lt : i < g.count
  stripe_lt : j * g.stripe < g.size
  partOfs : it.partOfs = a + i * g.size
  stripeOfs : it.stripeOfs = a + i * g.size + j * g.stripe
  ofs : it.ofs = a + i * g.size + j * g.stripe
  stripeSize : it.stripeSize = min (g.size - j * g.stripe) g.stripe
  curPartId : it.curPartId = g.num + i
  curStripe : it.curStripe = j
  location : it.location = partLocation (effective m.objPrefix g.overridePrefix) (g.num + i) j

variable {rest : List (Nat × Rule)} {k : Nat}

theorem next_eq_nextStripe (hm : Plain m) (hne : it.ofs ≠ m.objSize) {rule : Rule}
    (h : it.ruleIter = (k, rule) :: rest) : next m it = nextStripe m rule it := by
  obtain ⟨⟨k', first⟩, rules, hrules⟩ := exists_cons_of_ne_nil hm.rules
  rw [next, if_neg (by simp [hm.explicitObjs]), if_neg hne, hrules, h]
  dsimp only
  rw [if_neg (by simp [hm.headSize]), currentRule, h]

theorem nextStripe_same {rule : Rule} (hpart : 0 < rule.partSize)
    (hin : it.stripeOfs + rule.stripeMaxSize < it.partOfs + rule.partSize)
    (hobj : it.stripeOfs + rule.stripeMaxSize ≤ m.objSize)
    (h : it.ruleIter = (k, rule) :: rest) : nextStripe m rule it = updateLocation m { it with
        stripeOfs := it.stripeOfs + rule.stripeMaxSize,
        curStripe := it.curStripe + 1,
        stripeSize :=
          min (rule.partSize - (it.stripeOfs + rule.stripeMaxSize - it.partOfs)) rule.stripeMaxSize,
        curOverridePrefix := rule.overridePrefix,
        ofs := it.stripeOfs + rule.stripeMaxSize } := by
  rw [nextStripe]
  rw [if_pos hpart, if_neg (Nat.not_le.mpr hin)]
  simp only [currentRule, h]
  rw [if_neg (Nat.not_lt.mpr hobj)]

/-- The next stripe is the first of the next part. -/
theorem nextStripe_part {rule : Rule} (hpart : 0 < rule.partSize)
    (hout : it.partOfs + rule.partSize ≤ it.stripeOfs + rule.stripeMaxSize)
    (hobj : it.partOfs + rule.partSize ≤ m.objSize)
    (hstay : ∀ e ∈ it.nextRuleIter.head?, it.partOfs + rule.partSize < e.2.startOfs)
    (h : it.ruleIter = (k, rule) :: rest) : nextStripe m rule it = updateLocation m
      { it with
        partOfs := it.partOfs + rule.partSize,
        stripeOfs := it.partOfs + rule.partSize,
        curStripe := 0,
        curPartId := it.curPartId + 1,
        stripeSize := min rule.partSize rule.stripeMaxSize,
        curOverridePrefix := rule.overridePrefix,
        ofs := it.partOfs + rule.partSize } := by
  have hnext : nextPart rule
        { it with stripeOfs := it.stripeOfs + rule.stripeMaxSize, curStripe := it.curStripe + 1 }
      = { it with
          partOfs := it.partOfs + rule.partSize,
          stripeOfs := it.partOfs + rule.partSize,
          curStripe := 0,
          curPartId := it.curPartId + 1 } := by
    rw [nextPart]
    cases hrules : it.nextRuleIter with
    | nil => rfl
    | cons e rules =>
      have hlt := hstay e (by rw [hrules]; rfl)
      dsimp only
      rw [if_neg (Nat.not_le.mpr hlt)]
  rw [nextStripe]
  rw [if_pos hpart, if_pos hout, hnext]
  simp only [currentRule, h, Nat.sub_self, Nat.sub_zero]
  rw [if_neg (Nat.not_lt.mpr hobj)]

/-- The next stripe is the first of the next rule. -/
theorem nextStripe_rule {rule : Rule} (hpart : 0 < rule.partSize)
    (hout : it.partOfs + rule.partSize ≤ it.stripeOfs + rule.stripeMaxSize)
    (hobj : it.partOfs + rule.partSize ≤ m.objSize) {current : Rule} {rules : List (Nat × Rule)}
    (hrules : it.nextRuleIter = (k, current) :: rules)
    (hmove : current.startOfs ≤ it.partOfs + rule.partSize) :
    nextStripe m rule it = updateLocation m { it with
        partOfs := it.partOfs + rule.partSize,
        stripeOfs := it.partOfs + rule.partSize,
        curStripe := 0,
        ruleIter := (k, current) :: rules,
        nextRuleIter := rules,
        curPartId := current.startPartNum,
        stripeSize := min current.partSize current.stripeMaxSize,
        curOverridePrefix := current.overridePrefix,
        ofs := it.partOfs + rule.partSize } := by
  have hnext : nextPart rule
        { it with stripeOfs := it.stripeOfs + rule.stripeMaxSize, curStripe := it.curStripe + 1 }
      = { it with
          partOfs := it.partOfs + rule.partSize,
          stripeOfs := it.partOfs + rule.partSize,
          curStripe := 0,
          ruleIter := (k, current) :: rules,
          nextRuleIter := rules,
          curPartId := current.startPartNum } := by
    rw [nextPart]
    rw [hrules]
    dsimp only
    rw [if_pos hmove]
  rw [nextStripe]
  rw [if_pos hpart, if_pos hout, hnext]
  simp only [currentRule, Nat.sub_self, Nat.sub_zero]
  rw [if_neg (Nat.not_lt.mpr hobj)]

def StartsAt (a : Nat) (tail : List (Nat × Rule)) : Prop :=
  ∀ e ∈ tail.head?, e.1 = a ∧ e.2.startOfs = a

section Walk

variable {tail : List (Nat × Rule)} {a : Nat} {g : Group} {gs : List Group} {i j : Nat}

theorem At.end_le (h : At m tail a g gs i j it) (hobj : a + lengthOf (g :: gs) = m.objSize) :
    it.partOfs + g.size ≤ a + g.length ∧ a + g.length ≤ m.objSize := by
  have hle : (i + 1) * g.size ≤ g.count * g.size := Nat.mul_le_mul_right _ h.part_lt
  have hlength : lengthOf (g :: gs) = g.length + lengthOf gs := rfl
  rw [Nat.succ_mul] at hle
  rw [h.partOfs, Group.length]
  rw [Group.length] at hlength
  omega

theorem At.ofs_lt (h : At m tail a g gs i j it) (hobj : a + lengthOf (g :: gs) = m.objSize) :
    it.ofs < m.objSize := by
  have hle := h.end_le hobj
  have hstripe := h.stripe_lt
  rw [h.partOfs] at hle
  rw [h.ofs]
  omega

section

variable (hm : Plain m) (h : At m tail a g gs i j it) (hobj : a + lengthOf (g :: gs) = m.objSize)
include hm h hobj

theorem At.next_eq : next m it = nextStripe m (g.rule a) it :=
  next_eq_nextStripe hm (Nat.ne_of_lt (h.ofs_lt hobj)) h.ruleIter

/-- The next stripe of a part. -/
theorem At.next_stripe (hin : (j + 1) * g.stripe < g.size) : At m tail a g gs i (j + 1)
    (next m it) := by
  have hle := h.end_le hobj
  have hsucc : (j + 1) * g.stripe = j * g.stripe + g.stripe := Nat.succ_mul _ _
  have hstripeOfs : it.stripeOfs + g.stripe < it.partOfs + g.size := by
    rw [h.stripeOfs, h.partOfs]
    omega
  rw [h.next_eq hm hobj,
    nextStripe_same g.size_pos hstripeOfs (by change it.stripeOfs + g.stripe ≤ _; omega) h.ruleIter,
    updateLocation_eq, hm.location]
  constructor
  · exact h.ruleIter
  · exact h.nextRuleIter
  · exact h.part_lt
  · exact hin
  · exact h.partOfs
  · change it.stripeOfs + g.stripe = _
    rw [h.stripeOfs, hsucc, add_assoc]
  · change it.stripeOfs + g.stripe = _
    rw [h.stripeOfs, hsucc, add_assoc]
  · change min (g.size - (it.stripeOfs + g.stripe - it.partOfs)) g.stripe = _
    rw [h.stripeOfs, h.partOfs]
    omega
  · exact h.curPartId
  · rw [h.curStripe]
  · change partLocation (effective m.objPrefix g.overridePrefix) it.curPartId (it.curStripe + 1) = _
    rw [h.curPartId, h.curStripe]

end

theorem startsAt_rulesOf {b : Nat} (htail : StartsAt (b + lengthOf gs) tail) :
    StartsAt b (rulesOf b gs ++ tail) := by
  cases gs with
  | nil => exact htail
  | cons g gs =>
    intro e he
    cases he
    exact ⟨rfl, rfl⟩

theorem At.part_out (h : At m tail a g gs i j it) (hout : g.size ≤ (j + 1) * g.stripe) :
    it.partOfs + g.size ≤ it.stripeOfs + g.stripe := by
  have hsucc : (j + 1) * g.stripe = j * g.stripe + g.stripe := Nat.succ_mul _ _
  rw [h.stripeOfs, h.partOfs]
  omega

/-- The next part of a group. -/
theorem At.next_part (hm : Plain m) (h : At m tail a g gs i j it)
    (hobj : a + lengthOf (g :: gs) = m.objSize)
    (htail : StartsAt m.objSize tail) (hout : g.size ≤ (j + 1) * g.stripe)
    (hpart : i + 1 < g.count) :
    At m tail a g gs (i + 1) 0 (next m it) := by
  have hle := h.end_le hobj
  have hsucc : (i + 1) * g.size = i * g.size + g.size := Nat.succ_mul _ _
  have hofs : it.partOfs + g.size = a + (i + 1) * g.size := by
    rw [h.partOfs, hsucc, add_assoc]
  have hstay : ∀ e ∈ it.nextRuleIter.head?, it.partOfs + g.size < e.2.startOfs := by
    have hlt : (i + 1) * g.size < g.count * g.size := Nat.mul_lt_mul_of_pos_right hpart g.size_pos
    have hlength : lengthOf (g :: gs) = g.length + lengthOf gs := rfl
    have hempty : StartsAt (a + g.length + lengthOf gs) tail := by
      rwa [add_assoc, ← hlength, hobj]
    rw [h.nextRuleIter, hofs]
    intro e he
    rw [(startsAt_rulesOf hempty e he).2, Group.length]
    omega
  rw [h.next_eq hm hobj,
    nextStripe_part g.size_pos (h.part_out hout) (Nat.le_trans hle.1 hle.2) hstay h.ruleIter,
    updateLocation_eq, hm.location]
  constructor
  · exact h.ruleIter
  · exact h.nextRuleIter
  · exact hpart
  · rw [zero_mul]
    exact g.size_pos
  · exact hofs
  · rw [zero_mul]
    exact hofs
  · rw [zero_mul]
    exact hofs
  · rw [zero_mul]
    rfl
  · rw [h.curPartId, add_assoc]
  · rfl
  · change partLocation (effective m.objPrefix g.overridePrefix) (it.curPartId + 1) 0 = _
    rw [h.curPartId, add_assoc]

theorem At.last_part (h : At m tail a g gs i j it) (hpart : g.count ≤ i + 1) :
    it.partOfs + g.size = a + g.length := by
  have hcount : g.count = i + 1 := Nat.le_antisymm hpart h.part_lt
  rw [h.partOfs, Group.length, hcount, Nat.succ_mul, add_assoc]

/-- The first part of the next group. -/
theorem At.next_group {g' : Group} (hm : Plain m) (h : At m tail a g (g' :: gs) i j it)
    (hobj : a + lengthOf (g :: g' :: gs) = m.objSize) (hout : g.size ≤ (j + 1) * g.stripe)
    (hpart : g.count ≤ i + 1) : At m tail (a + g.length) g' gs 0 0 (next m it) := by
  have hle := h.end_le hobj
  have hofs := h.last_part hpart
  have hmove : (g'.rule (a + g.length)).startOfs ≤ it.partOfs + (g.rule a).partSize :=
    Nat.le_of_eq hofs.symm
  rw [h.next_eq hm hobj,
    nextStripe_rule g.size_pos (h.part_out hout) (Nat.le_trans hle.1 hle.2) h.nextRuleIter
    hmove, updateLocation_eq, hm.location]
  constructor
  · rfl
  · rfl
  · exact g'.count_pos
  · rw [zero_mul]
    exact g'.size_pos
  · rw [zero_mul]
    exact hofs
  · rw [zero_mul, zero_mul]
    exact hofs
  · rw [zero_mul, zero_mul]
    exact hofs
  · rw [zero_mul]
    rfl
  · rfl
  · rfl
  · rfl

/-- Behind the last part of the last group the walk ends. -/
theorem At.next_end (hm : Plain m) (h : At m tail a g [] i j it)
    (hobj : a + lengthOf [g] = m.objSize)
    (htail : StartsAt m.objSize tail) (hout : g.size ≤ (j + 1) * g.stripe)
    (hpart : g.count ≤ i + 1) :
    (next m it).ofs = m.objSize := by
  have hofs : it.partOfs + g.size = m.objSize := (h.last_part hpart).trans hobj
  have hrules : it.nextRuleIter = tail := h.nextRuleIter
  rw [h.next_eq hm hobj]
  cases tail with
  | nil =>
    rw [nextStripe_part g.size_pos (h.part_out hout) (Nat.le_of_eq hofs) (by rw [hrules]; nofun)
      h.ruleIter,
      updateLocation_eq]
    exact hofs
  | cons e tail =>
    have hstart : e.2.startOfs = m.objSize := (htail e rfl).2
    rw [nextStripe_rule g.size_pos (h.part_out hout) (Nat.le_of_eq hofs) hrules
      (Nat.le_of_eq (hstart.trans hofs.symm)), updateLocation_eq]
    exact hofs

/-- The bytes of one stripe. -/
theorem At.lookup_stripe (h : At m tail a g gs i j it)
    (hf : ∀ o, f (a + o) = Layout.lookup (blocksOf m.objPrefix (g :: gs)) o) {o : Nat}
    (ho : it.ofs ≤ o)
    (hlt : o < it.ofs + it.stripeSize) : f o = some (it.location, o - it.ofs) := by
  obtain ⟨r, rfl⟩ := Nat.exists_eq_add_of_le ho
  have hr : r < min (g.size - j * g.stripe) g.stripe := by
    rw [h.stripeSize] at hlt
    omega
  have hsize : j * g.stripe + r < g.size := by omega
  have hdiv : (j * g.stripe + r) / g.stripe = j := by
    rw [mul_comm, Nat.mul_add_div g.stripe_pos, Nat.div_eq_of_lt (by omega), add_zero]
  have hmod : (j * g.stripe + r) % g.stripe = r := by
    rw [mul_comm, Nat.mul_add_mod, Nat.mod_eq_of_lt (by omega)]
  have hat : it.ofs + r = a + (i * g.size + (j * g.stripe + r)) := by
    rw [h.ofs]
    omega
  rw [Nat.add_sub_cancel_left, hat, hf, blocksOf_cons, g.lookup_blocks m.objPrefix h.part_lt hsize,
    h.location]
  change some (partLocation _ _ ((j * g.stripe + r) / g.stripe), (j * g.stripe + r) % g.stripe) = _
  rw [hdiv, hmod]

theorem At.step (hm : Plain m) (h : At m tail a g gs i j it)
    (hobj : a + lengthOf (g :: gs) = m.objSize)
    (hf : ∀ o, f (a + o) = Layout.lookup (blocksOf m.objPrefix (g :: gs)) o)
    (hofs : (next m it).ofs = it.ofs + it.stripeSize) (hnext : Visits m (next m it) f) :
    Visits m it f := by
  have hle := h.end_le hobj
  have hstripe : it.stripeSize ≤ m.objSize - it.ofs := by
    rw [h.partOfs] at hle
    rw [h.stripeSize, h.ofs]
    omega
  apply hnext.step
  · rw [hm.endOfs]
    exact Nat.ne_of_lt (h.ofs_lt hobj)
  · rw [stripe, if_neg (by simp [hm.explicitObjs]), h.stripeOfs, h.ofs]
  · rw [hofs, Nat.min_eq_left hstripe]
  · intro o ho hlt
    rw [hofs] at hlt
    exact h.lookup_stripe hf ho hlt

/-- The walk from any place visits all blocks behind it. -/
theorem At.visits (hm : Plain m) (htail : StartsAt m.objSize tail)
    (h : At m tail a g gs i j it) (hobj : a + lengthOf (g :: gs) = m.objSize)
    (hf : ∀ o, f (a + o) = Layout.lookup (blocksOf m.objPrefix (g :: gs)) o) : Visits m it f := by
  induction hn : m.objSize - it.ofs using Nat.strong_induction_on generalizing it a g gs i j with
  | h n ih =>
    have hofs_lt := h.ofs_lt hobj
    have hstripe_lt := h.stripe_lt
    have hsucc : (j + 1) * g.stripe = j * g.stripe + g.stripe := Nat.succ_mul _ _
    have hstripe_pos := g.stripe_pos
    by_cases hin : (j + 1) * g.stripe < g.size
    · have hat := h.next_stripe hm hobj hin
      have hofs : (next m it).ofs = it.ofs + it.stripeSize := by
        rw [hat.ofs, h.ofs, h.stripeSize]
        omega
      refine h.step hm hobj hf hofs (ih _ ?_ hat hobj hf rfl)
      rw [hat.ofs, ← hn, h.ofs]
      rw [h.ofs] at hofs_lt
      omega
    · rw [Nat.not_lt] at hin
      by_cases hpart : i + 1 < g.count
      · have hat := h.next_part hm hobj htail hin hpart
        have hisucc : (i + 1) * g.size = i * g.size + g.size := Nat.succ_mul _ _
        have hofs : (next m it).ofs = it.ofs + it.stripeSize := by
          rw [hat.ofs, h.ofs, h.stripeSize]
          omega
        refine h.step hm hobj hf hofs (ih _ ?_ hat hobj hf rfl)
        rw [hofs, ← hn, h.stripeSize]
        omega
      · rw [Nat.not_lt] at hpart
        have hlast := h.last_part hpart
        rw [h.partOfs] at hlast
        cases gs with
        | nil =>
          have hend := h.next_end hm hobj htail hin hpart
          have hlength : a + g.length = m.objSize := hobj
          have hofs : (next m it).ofs = it.ofs + it.stripeSize := by
            rw [hend, h.ofs, h.stripeSize, ← hlength]
            omega
          refine h.step hm hobj hf hofs (visits_end (hend.trans hm.endOfs.symm) ?_)
          intro o ho
          obtain ⟨r, rfl⟩ := Nat.exists_eq_add_of_le (hend ▸ ho)
          rw [← hlength, add_assoc, hf]
          apply Layout.lookup_eq_none
          rw [total_blocksOf]
          exact Nat.le_add_right _ _
        | cons g' gs =>
          have hat := h.next_group hm hobj hin hpart
          have hlength : lengthOf (g :: g' :: gs) = g.length + lengthOf (g' :: gs) := rfl
          have hofs : (next m it).ofs = it.ofs + it.stripeSize := by
            rw [hat.ofs, h.ofs, h.stripeSize]
            omega
          refine h.step hm hobj hf hofs (ih _ ?_ hat ?_ ?_ rfl)
          · rw [hofs, ← hn, h.stripeSize]
            omega
          · rw [add_assoc, ← hlength, hobj]
          · intro o
            rw [add_assoc, hf, blocksOf_cons, ← g.total_blocks m.objPrefix,
              Layout.lookup_append_add]

theorem seekRule_start (hhead : m.headSize = 0) {rule : Rule} (h : it.ofs = rule.startOfs) :
    seekRule m rule it =
      { it with
        curPartId := rule.startPartNum,
        partOfs := rule.startOfs,
        stripeOfs := rule.startOfs,
        curStripe := 0,
        stripeSize :=
          if rule.partSize = 0 then min (m.objSize - rule.startOfs) rule.stripeMaxSize
          else min (rule.startOfs + rule.stripeMaxSize) (rule.startOfs +
            rule.partSize) - rule.startOfs,
        curOverridePrefix := rule.overridePrefix } := by
  have hpart : (if 0 < rule.partSize then rule.startPartNum +
    (it.ofs - rule.startOfs) / rule.partSize
      else rule.startPartNum) = rule.startPartNum := by
    rw [h, Nat.sub_self, Nat.zero_div, add_zero, ite_self]
  have hstripe : ¬ (0 < rule.stripeMaxSize ∧ rule.startPartNum = 0 ∧ 0 < m.headSize) := by
    rw [hhead]
    exact fun hand => Nat.lt_irrefl 0 hand.2.2
  rw [seekRule, hpart, Nat.sub_self, zero_mul, add_zero, h, Nat.sub_self, Nat.zero_div, ite_self,
    zero_mul, add_zero, ite_self, if_neg hstripe]

theorem at_seek_zero (hm : Plain m) (hrules : m.rules = rulesOf 0 (g :: gs) ++ tail)
    (htail : StartsAt (lengthOf (g :: gs)) tail) (it : ObjIterator) :
    At m tail 0 g gs 0 0 (seek m it 0) := by
  have hlength : lengthOf (g :: gs) = g.length + lengthOf gs := rfl
  have hpos : 0 < g.length := Nat.mul_pos g.count_pos g.size_pos
  have hrest : StartsAt g.length (rulesOf g.length gs ++ tail) := startsAt_rulesOf (hlength ▸ htail)
  have hrules' : m.rules = (0, g.rule 0) :: (rulesOf g.length gs ++ tail) := by
    rw [hrules, rulesOf, zero_add]
    rfl
  have hupper : upperBound 0 m.rules = rulesOf g.length gs ++ tail := by
    rw [hrules', upperBound, dropWhile_cons_of_pos (by simp)]
    cases hr : rulesOf g.length gs ++ tail with
    | nil => rfl
    | cons e rest =>
      have he := (hrest e (by rw [hr]; rfl)).1
      rw [dropWhile_cons_of_neg]
      simp
      omega
  have hback : stepBack m.rules (upperBound 0 m.rules) = m.rules := by
    rw [stepBack, hupper, hrules', length_cons, Nat.add_sub_cancel_left, Nat.sub_self, drop_zero]
  have hseek : seek m it 0 = updateLocation m
      (seekRule m (g.rule 0) {
        it with ofs := 0, ruleIter := m.rules, nextRuleIter := rulesOf g.length gs ++ tail }) := by
    rw [seek, if_neg (by simp [hm.explicitObjs]), if_neg (by simp [hm.headSize])]
    dsimp only
    rw [hback, hupper, hrules']
  rw [hseek, seekRule_start hm.headSize rfl, updateLocation_eq, hm.location]
  constructor
  · exact hrules
  · rw [zero_add]
  · exact g.count_pos
  · rw [zero_mul]
    exact g.size_pos
  · rw [zero_mul]
    rfl
  · rw [zero_mul, zero_mul]
    rfl
  · rw [Nat.zero_mul, Nat.zero_mul]
  · change (if g.size = 0 then min (m.objSize - 0) g.stripe
      else min (0 + g.stripe) (0 + g.size) - 0) = _
    rw [if_neg (Nat.ne_of_gt g.size_pos), zero_mul]
    omega
  · rfl
  · rfl
  · rfl

end Walk

structure AtOpen (m : ObjManifest) (rule : Rule) (j : Nat) (it : ObjIterator) : Prop where
  ruleIter : it.ruleIter = [(0, rule)]
  lt : j * rule.stripeMaxSize < m.objSize
  stripeOfs : it.stripeOfs = j * rule.stripeMaxSize
  ofs : it.ofs = j * rule.stripeMaxSize
  stripeSize : it.stripeSize = min m.objSize rule.stripeMaxSize
  curPartId : it.curPartId = rule.startPartNum
  curStripe : it.curStripe = j
  location : it.location =
    partLocation (effective m.objPrefix rule.overridePrefix) rule.startPartNum j

section Open

variable {rule : Rule} {j : Nat}

theorem nextStripe_open (hpart : rule.partSize = 0) (h : it.ruleIter = [(0, rule)])
    (hobj : it.stripeOfs + rule.stripeMaxSize ≤ m.objSize) :
    nextStripe m rule it = updateLocation m { it with
        stripeOfs := it.stripeOfs + rule.stripeMaxSize,
        curStripe := it.curStripe + 1,
        curOverridePrefix := rule.overridePrefix,
        ofs := it.stripeOfs + rule.stripeMaxSize } := by
  have hopen : ¬ 0 < rule.partSize := Nat.not_lt.mpr (Nat.le_of_eq hpart)
  rw [nextStripe]
  rw [if_neg hopen]
  simp only [currentRule, h]
  rw [if_neg (Nat.not_lt.mpr hobj)]

theorem ofs_nextStripe_open (hpart : rule.partSize = 0) :
    (nextStripe m rule it).ofs = min (it.stripeOfs + rule.stripeMaxSize) m.objSize := by
  have hopen : ¬ 0 < rule.partSize := Nat.not_lt.mpr (Nat.le_of_eq hpart)
  rw [nextStripe]
  rw [if_neg hopen, updateLocation_eq]
  split_ifs with hobj
  · exact (Nat.min_eq_right (Nat.le_of_lt hobj)).symm
  · exact (Nat.min_eq_left (Nat.not_lt.mp hobj)).symm

theorem AtOpen.lookup_stripe (hstripe : 0 < rule.stripeMaxSize) (h : AtOpen m rule j it)
    (hf : ∀ o, f o = Layout.lookup
      [partBlock (effective m.objPrefix rule.overridePrefix) rule.startPartNum m.objSize
      rule.stripeMaxSize] o) {o : Nat} (ho : it.ofs ≤ o)
    (hlt : o < min (it.ofs + rule.stripeMaxSize) m.objSize) :
    f o = some (it.location, o - it.ofs) := by
  obtain ⟨r, rfl⟩ := Nat.exists_eq_add_of_le ho
  have hr : r < rule.stripeMaxSize := by omega
  have hdiv : (j * rule.stripeMaxSize + r) / rule.stripeMaxSize = j := by
    rw [mul_comm, Nat.mul_add_div hstripe, Nat.div_eq_of_lt hr, add_zero]
  have hmod : (j * rule.stripeMaxSize + r) % rule.stripeMaxSize = r := by
    rw [mul_comm, Nat.mul_add_mod, Nat.mod_eq_of_lt hr]
  rw [hf, Layout.lookup, if_pos (by change it.ofs + r < m.objSize; omega), Nat.add_sub_cancel_left,
    h.location]
  change some (partLocation _ _ ((it.ofs + r) / _), (it.ofs + r) % _) = _
  rw [h.ofs, hdiv, hmod]

theorem AtOpen.visits (hm : Plain m) (hpart : rule.partSize = 0)
    (hstripe : 0 < rule.stripeMaxSize) (h : AtOpen m rule j it)
    (hf : ∀ o, f o = Layout.lookup
      [partBlock (effective m.objPrefix rule.overridePrefix) rule.startPartNum m.objSize
      rule.stripeMaxSize] o) : Visits m it f := by
  induction hn : m.objSize - it.ofs using Nat.strong_induction_on generalizing it j with
  | h n ih =>
    have hlt := h.lt
    have hne : it.ofs ≠ m.objSize := by
      rw [h.ofs]
      exact Nat.ne_of_lt hlt
    have hnext : next m it = nextStripe m rule it := next_eq_nextStripe hm hne h.ruleIter
    have hofs : (next m it).ofs = min (it.ofs + rule.stripeMaxSize) m.objSize := by
      rw [hnext, ofs_nextStripe_open hpart, h.stripeOfs, h.ofs]
    have hvisits : Visits m (next m it) f := by
      by_cases hin : it.ofs + rule.stripeMaxSize < m.objSize
      · have hobj : it.stripeOfs + rule.stripeMaxSize ≤ m.objSize := by
          rw [h.stripeOfs, ← h.ofs]
          exact Nat.le_of_lt hin
        have hat : AtOpen m rule (j + 1) (next m it) := by
          have hsucc : (j + 1) * rule.stripeMaxSize = it.stripeOfs + rule.stripeMaxSize := by
            rw [h.stripeOfs, Nat.succ_mul]
          rw [hnext, nextStripe_open hpart h.ruleIter hobj, updateLocation_eq, hm.location]
          constructor
          · exact h.ruleIter
          · rw [hsucc, h.stripeOfs, ← h.ofs]
            exact hin
          · exact hsucc.symm
          · exact hsucc.symm
          · exact h.stripeSize
          · exact h.curPartId
          · rw [h.curStripe]
          · rw [h.curPartId, h.curStripe]
        apply ih _ _ hat rfl
        omega
      · have hend : (next m it).ofs = m.objSize := by
          rw [hofs, Nat.min_eq_right (Nat.not_lt.mp hin)]
        apply visits_end (hend.trans hm.endOfs.symm)
        intro o ho
        rw [hf]
        apply Layout.lookup_eq_none
        rw [hend] at ho
        exact ho
    apply hvisits.step
    · rw [hm.endOfs]
      exact hne
    · rw [stripe, if_neg (by simp [hm.explicitObjs]), h.stripeOfs, h.ofs]
    · rw [hofs, h.stripeSize]
      rw [h.ofs]
      omega
    · intro o ho hlt'
      rw [hofs] at hlt'
      exact h.lookup_stripe hstripe hf ho hlt'

theorem atOpen_seek_zero (hm : Plain m) (hrules : m.rules = [(0, rule)])
    (hstart : rule.startOfs = 0)
    (hpart : rule.partSize = 0) (hobj : 0 < m.objSize) (it : ObjIterator) :
    AtOpen m rule 0 (seek m it 0) := by
  have hseek : seek m it 0 = updateLocation m
      (seekRule m rule { it with ofs := 0, ruleIter := [(0, rule)], nextRuleIter := [] }) := by
    rw [seek, if_neg (by simp [hm.explicitObjs]), if_neg (by simp [hm.headSize]), hrules]
    rfl
  rw [hseek, seekRule_start hm.headSize hstart.symm, updateLocation_eq, hm.location]
  constructor
  · rfl
  · rw [zero_mul]
    exact hobj
  · rw [zero_mul]
    exact hstart
  · rw [zero_mul]
  · rw [if_pos hpart, hstart, Nat.sub_zero]
  · rfl
  · rfl
  · rfl

end Open

end RadosGateway.Manifest
