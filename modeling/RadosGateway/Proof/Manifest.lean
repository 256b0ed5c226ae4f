import RadosGateway.Proof.ManifestWalk

/-!
# Appending manifests

The manifests of the parts of an upload are appended one by one. If all of them have rules, those of
the result stand for the parts: a part that continues the last rule is counted to it, and any other
gets a rule of its own.
-/

namespace RadosGateway.Manifest

open Text ObjIterator List Option

structure ImplicitPart where
  headObj : Location
  objPrefix : Bytes
  num : Nat
  size : Nat
  stripeMaxSize : Nat
  objPrefix_ne : objPrefix ≠ []
  stripe_pos : 0 < stripeMaxSize

namespace ImplicitPart

def rule (p : ImplicitPart) : Rule := ⟨p.num, 0, 0, p.stripeMaxSize, []⟩

def manifest (p : ImplicitPart) : ObjManifest :=
  ObjManifest.setObjSize
    (ObjManifest.setMultipartPartRule { headObj := p.headObj, objPrefix := p.objPrefix }
      p.stripeMaxSize p.num) p.size

def block (p : ImplicitPart) : Layout.Block (Location × Nat) :=
  partBlock p.objPrefix p.num p.size p.stripeMaxSize

end ImplicitPart

inductive Part
  | implicit (p : ImplicitPart)
  | explicit (m : ObjManifest) (h : m.explicitObjs = true)

namespace Part

def manifest : Part → ObjManifest
  | implicit p => p.manifest
  | explicit m _ => m.updateIterators

def size (p : Part) : Nat := p.manifest.objSize

end Part

def result (fuel : Nat) (parts : List Part) : ObjManifest :=
  parts.foldl (fun m p => m.append fuel p.manifest) {}

def HasMap (m : ObjManifest) (f : Nat → Option (Location × Nat)) : Prop :=
  ∃ fuel l, m.stripes fuel = some l ∧ ∀ o, ObjManifest.locate l o = f o

def IsConcat : List Part → (Nat → Option (Location × Nat)) → Prop
  | [], f => ∀ o, f o = none
  | p :: parts, f =>
    ∃ g h, HasMap p.manifest g ∧ IsConcat parts h ∧ ∀ o, f o = if o < p.size then g o
      else h (o - p.size)

def Concatenates (fuel : Nat) (parts : List Part) : Prop :=
  ∃ f, IsConcat parts f ∧ HasMap (result fuel parts) f ∧ ∀ o, (f o).isSome ↔
    o < (result fuel parts).objSize

variable {l : List ObjManifest.Stripe}

theorem stripesFrom_mono {m : ObjManifest} {it : ObjIterator} {n n' : Nat}
    (h : ObjManifest.stripesFrom m n it = some l) (hle : n ≤ n') :
    ObjManifest.stripesFrom m n' it = some l := by
  induction n generalizing n' it l with
  | zero => cases h
  | succ n ih =>
    cases n' with
    | zero => exact absurd hle (Nat.not_succ_le_zero n)
    | succ n' =>
      rw [ObjManifest.stripesFrom] at h ⊢
      split_ifs at h ⊢
      · exact h
      · obtain ⟨⟨ofs, size, locOfs⟩, hstripe, hmap⟩ := bind_eq_some_iff.mp h
        obtain ⟨rest, hrest, rfl⟩ := map_eq_some_iff.mp hmap
        rw [hstripe, bind_some, ih hrest (Nat.le_of_succ_le_succ hle)]
        rfl

theorem HasMap.unique {m : ObjManifest} {f g : Nat → Option (Location × Nat)} (hf : HasMap m f)
    (hg : HasMap m g)
    (o : Nat) : f o = g o := by
  obtain ⟨n, l, hl, hlocate⟩ := hf
  obtain ⟨n', l', hl', hlocate'⟩ := hg
  have hsame : l = l' := by
    rw [← some_inj, ← stripesFrom_mono hl (Nat.le_max_left n n'),
      ← stripesFrom_mono hl' (Nat.le_max_right n n')]
  rw [← hlocate, ← hlocate', hsame]

variable {parts : List Part}

theorem IsConcat.unique {f g : Nat → Option (Location × Nat)} (hf : IsConcat parts f)
    (hg : IsConcat parts g) (o : Nat) : f o = g o := by
  induction parts generalizing f g o with
  | nil => rw [hf o, hg o]
  | cons p parts ih =>
    obtain ⟨f₁, f₂, hmap, hrest, hf⟩ := hf
    obtain ⟨g₁, g₂, hmap', hrest', hg⟩ := hg
    rw [hf, hg, hmap.unique hmap' o, ih hrest hrest']

theorem hasMap_of_visits {m : ObjManifest} {f : Nat → Option (Location × Nat)}
    (h : Visits m m.beginIter f)
    (hbegin : m.beginIter.ofs = 0) : HasMap m f := by
  obtain ⟨fuel, l, hl, hlocate⟩ := h
  exact ⟨fuel, l, hl, fun o => hlocate o (hbegin ▸ Nat.zero_le o)⟩

theorem hasMap_empty {m : ObjManifest} (h : m.beginIter.ofs = m.endIter.ofs) : HasMap m fun _ =>
    none :=
  ⟨1, [], if_pos h, fun _ => rfl⟩

theorem explicitIter_updateLocation (m : ObjManifest) (it : ObjIterator) :
    (updateLocation m it).explicitIter = it.explicitIter := by
  rw [updateLocation_eq]

theorem explicitIter_seek {m : ObjManifest} (h : m.explicitObjs = false) (it : ObjIterator)
    (o : Nat) :
    (seek m it o).explicitIter = it.explicitIter := by
  rw [seek, if_neg (by simp [h])]
  split_ifs
  · split <;> rw [explicitIter_updateLocation]
  · dsimp only
    split
    · rw [explicitIter_updateLocation]
      rfl
    · rw [explicitIter_updateLocation]

section Rules

variable {gs : List Group} {g : Group} {tail : List (Nat × Rule)}

theorem rulesOf_append (a : Nat) (gs gs' : List Group) :
    rulesOf a (gs ++ gs') = rulesOf a gs ++ rulesOf (a + lengthOf gs) gs' := by
  induction gs generalizing a with
  | nil => rfl
  | cons g gs ih =>
    have hlength : lengthOf (g :: gs) = g.length + lengthOf gs := rfl
    rw [cons_append, rulesOf, ih, hlength, add_assoc]
    rfl

theorem lengthOf_append (gs gs' : List Group) :
    lengthOf (gs ++ gs') = lengthOf gs + lengthOf gs' := by
  simp [lengthOf]

theorem lengthOf_singleton (g : Group) : lengthOf [g] = g.length := add_zero _

theorem key_lt_of_mem_rulesOf {a k : Nat} (hk : k ∈ SortedMap.keys (rulesOf a gs)) :
    k < a + lengthOf gs := by
  induction gs generalizing a with
  | nil => cases hk
  | cons g gs ih =>
    have hlength : lengthOf (g :: gs) = g.length + lengthOf gs := rfl
    have hpos : 0 < g.length := Nat.mul_pos g.count_pos g.size_pos
    rcases mem_cons.mp hk with rfl | hk
    · omega
    · have := ih hk
      omega

theorem insert_rulesOf (gs : List Group) (rule : Rule) :
    SortedMap.insert (lengthOf gs) rule (rulesOf 0 gs) = rulesOf 0 gs ++ [(lengthOf gs, rule)] := by
  apply SortedMap.insert_eq_append
  intro k hk
  have hlt := key_lt_of_mem_rulesOf hk
  omega

theorem insert_rulesOf_tail (gs : List Group) (rule old : Rule) :
    SortedMap.insert (lengthOf gs) rule (rulesOf 0 gs ++ [(lengthOf gs, old)])
      = rulesOf 0 gs ++ [(lengthOf gs, rule)] := by
  have hkeys : ∀ k ∈ SortedMap.keys (rulesOf 0 gs), k < lengthOf gs := fun k hk => by
    have := key_lt_of_mem_rulesOf hk
    omega
  generalize rulesOf 0 gs = rules, lengthOf gs = n at hkeys ⊢
  induction rules with
  | nil => rw [nil_append, SortedMap.insert, if_neg (Nat.lt_irrefl n), if_pos rfl, nil_append]
  | cons e rules ih =>
    obtain ⟨he, hrules⟩ := forall_mem_cons.mp hkeys
    rw [cons_append, SortedMap.insert, if_neg (Nat.not_lt.mpr (Nat.le_of_lt he)),
      if_neg (Nat.ne_of_gt he), ih hrules, cons_append]

end Rules

def ImplicitPart.newRule (p : ImplicitPart) (startOfs : Nat) (overridePrefix : Bytes) : Rule :=
  ⟨p.num, startOfs, p.size, p.stripeMaxSize, overridePrefix⟩

def ImplicitPart.Like (p : ImplicitPart) (objPrefix : Bytes) (rule : Rule) : Prop :=
  rule.partSize = p.size ∧ rule.stripeMaxSize = p.stripeMaxSize ∧
    effective objPrefix rule.overridePrefix = p.objPrefix

instance (p : ImplicitPart) (objPrefix : Bytes) (rule : Rule) : Decidable (p.Like objPrefix rule) :=
  inferInstanceAs (Decidable (_ ∧ _ ∧ _))

def expected (objSize : Nat) (rule : Rule) : Nat :=
  if 0 < rule.partSize then rule.startPartNum + (objSize - rule.startOfs) / rule.partSize
    else rule.startPartNum + 1

def ImplicitPart.override (p : ImplicitPart) (objPrefix : Bytes) : Bytes :=
  if p.objPrefix ≠ objPrefix then p.objPrefix else []

section Merge

open ObjManifest

variable {objSize k : Nat} {rules : List (Nat × Rule)} {rule : Rule}

/-- `merge` continues the last rule, or adds one behind it. -/
theorem mergeRules_cases (objPrefix : Bytes) (p : ImplicitPart)
    (hlast : (fixLastRule objSize rules).getLast? = some (k, rule)) :
    mergeRules objSize p.size objPrefix p.objPrefix rules [(0, p.rule)] =
      if ¬ p.Like objPrefix rule then
        SortedMap.insert objSize (p.newRule objSize (p.override objPrefix))
    (fixLastRule objSize rules)
      else if expected objSize rule ≠ p.num then
        SortedMap.insert objSize (p.newRule objSize []) (fixLastRule objSize rules)
      else fixLastRule objSize rules := by
  have hlike : ¬ p.Like objPrefix rule ↔
    rule.partSize ≠ p.size ∨ rule.stripeMaxSize ≠ p.stripeMaxSize ∨
      effective objPrefix rule.overridePrefix ≠ p.objPrefix := by
    rw [ImplicitPart.Like, not_and_or, not_and_or]
  have happend (overridePrefix : Option Bytes) :
      appendRules objSize overridePrefix (fixLastRule objSize rules) [(0,
        { p.rule with partSize := p.size })]
        = SortedMap.insert objSize (p.newRule objSize (overridePrefix.getD []))
          (fixLastRule objSize rules) := by
    change SortedMap.insert (0 + objSize) (p.newRule (0 + objSize) (overridePrefix.getD [])) _ = _
    rw [zero_add]
  rw [mergeRules]
  rw [hlast]
  change (if rule.partSize ≠ p.size ∨ rule.stripeMaxSize ≠ p.stripeMaxSize ∨
        effective objPrefix rule.overridePrefix ≠ p.objPrefix then
      if p.objPrefix ≠ objPrefix then
        appendRules objSize (some p.objPrefix) (fixLastRule objSize rules) [(0,
          { p.rule with partSize := p.size })]
      else appendRules objSize none (fixLastRule objSize rules) [(0,
        { p.rule with partSize := p.size })]
    else if expected objSize rule ≠ p.num then
      appendRules objSize none (fixLastRule objSize rules) [(0, { p.rule with partSize := p.size })]
    else fixLastRule objSize rules) = _
  rw [happend, happend]
  by_cases h : p.Like objPrefix rule
  · rw [if_neg (hlike.not.mp (not_not.mpr h)), if_neg (not_not.mpr h)]
    rfl
  · rw [if_pos (hlike.mp h), if_pos h, ImplicitPart.override]
    split_ifs <;> rfl

end Merge

def IsTail (n : Nat) (tail : List (Nat × Rule)) : Prop :=
  tail = [] ∨ ∃ rule, tail = [(n, rule)] ∧ rule.partSize = 0 ∧ rule.startOfs = n

variable {n : Nat}

theorem IsTail.startsAt {tail : List (Nat × Rule)} (h : IsTail n tail) : StartsAt n tail := by
  rcases h with rfl | ⟨rule, rfl, -, hstart⟩
  · exact nofun
  · intro e he
    cases he
    exact ⟨rfl, hstart⟩

theorem fixLastRule_rulesOf {gs : List Group} {tail : List (Nat × Rule)}
    (htail : IsTail (lengthOf gs) tail) :
    ObjManifest.fixLastRule (lengthOf gs) (rulesOf 0 gs ++ tail) = rulesOf 0 gs ++ tail := by
  rcases htail with rfl | ⟨rule, rfl, hsize, hstart⟩
  · cases gs using List.reverseRecOn with
    | nil => rfl
    | append_singleton gs g =>
      rw [rulesOf_append, ObjManifest.fixLastRule]
      simp only [rulesOf, getLast?_append, getLast?_singleton, some_or]
      exact if_neg (Nat.ne_of_gt g.size_pos)
  · rw [ObjManifest.fixLastRule]
    simp only [getLast?_append, getLast?_singleton, some_or]
    have hrule : { rule with partSize := lengthOf gs - rule.startOfs } = rule := by
      rw [hstart, Nat.sub_self]
      cases rule
      cases hsize
      cases hstart
      rfl
    rw [if_pos hsize, dropLast_concat, hrule]

structure Represents (m : ObjManifest) (objPrefix : Bytes) (gs : List Group)
    (tail : List (Nat × Rule)) : Prop where
  plain : Plain m
  prefix_eq : m.objPrefix = objPrefix
  objSize : m.objSize = lengthOf gs
  fixed : ObjManifest.fixLastRule m.objSize m.rules = rulesOf 0 gs ++ tail
  tail : IsTail (lengthOf gs) tail
  beginOfs : m.beginIter.ofs = 0
  explicitIter : m.beginIter.explicitIter = none
  visits : Visits m m.beginIter (Layout.lookup (blocksOf objPrefix gs))

theorem represents_setObjSize {m : ObjManifest} {gs : List Group} {tail : List (Nat × Rule)}
    (hm : Plain m)
    (hiter : m.beginIter.explicitIter = none) (htail : IsTail (lengthOf gs) tail)
    (hne : rulesOf 0 gs ++ tail ≠ []) :
    Represents (ObjManifest.setObjSize { m with rules := rulesOf 0 gs ++ tail } (lengthOf gs))
      m.objPrefix gs tail := by
  have hplain : Plain (ObjManifest.setObjSize { m with rules := rulesOf 0 gs ++
      tail } (lengthOf gs)) := by
    constructor
    · exact hm.explicitObjs
    · exact hm.headSize
    · exact hm.maxHeadSize
    · exact hne
    · exact ofs_seek (by exact hm.explicitObjs) _ _
  have hbegin : (ObjManifest.setObjSize { m with rules := rulesOf 0 gs ++
    tail } (lengthOf gs)).beginIter.ofs = 0 :=
    ofs_seek (by exact hm.explicitObjs) _ _
  constructor
  · exact hplain
  · rfl
  · rfl
  · exact fixLastRule_rulesOf htail
  · exact htail
  · exact hbegin
  · exact (explicitIter_seek (by exact hm.explicitObjs) _ _).trans hiter
  · cases gs with
    | nil => exact visits_end (hbegin.trans hplain.endOfs.symm) fun _ _ => rfl
    | cons g gs =>
      apply (at_seek_zero hplain rfl htail.startsAt m.beginIter).visits hplain htail.startsAt
      · rw [zero_add]
        rfl
      · intro o
        rw [zero_add]
        rfl

def Ends (objPrefix : Bytes) (gs : List Group) (tail : List (Nat × Rule)) (q : ImplicitPart)
    (e : Bytes) : Prop :=
  if q.size = 0 then tail ≠ []
  else tail = [] ∧ ∃ gs₀ g, gs = gs₀ ++ [g] ∧ g.size = q.size ∧ g.stripe = q.stripeMaxSize ∧
    effective objPrefix g.overridePrefix = e ∧ g.num + g.count = q.num + 1

def readPrefix (objPrefix : Bytes) (q : ImplicitPart) (e : Bytes) (p : ImplicitPart) : Bytes :=
  if q.size = p.size ∧ q.stripeMaxSize = p.stripeMaxSize ∧ e = p.objPrefix ∧ q.num + 1 ≠ p.num then
    objPrefix
  else p.objPrefix

def readBlock (objPrefix : Bytes) (q : ImplicitPart) (e : Bytes) (p : ImplicitPart) :
    Layout.Block (Location × Nat) :=
  partBlock (readPrefix objPrefix q e p) p.num p.size p.stripeMaxSize

section Step

variable {m : ObjManifest} {objPrefix : Bytes} {gs : List Group} {tail : List (Nat × Rule)}
  {q : ImplicitPart} {e : Bytes}

/-- `append` in closed form. -/
theorem Represents.append_eq (h : Represents m objPrefix gs tail) (hobj : objPrefix ≠ [])
    (fuel : Nat)
    (p : ImplicitPart) : m.append fuel p.manifest = ObjManifest.setObjSize { m with
        rules := ObjManifest.mergeRules (lengthOf gs) p.size objPrefix p.objPrefix m.rules [(0,
          p.rule)] }
      (lengthOf gs + p.size) := by
  have hexplicit : ¬ (m.explicitObjs = true ∨ p.manifest.explicitObjs = true) := by
    rw [h.plain.explicitObjs]
    exact not_or.mpr ⟨Bool.false_ne_true, Bool.false_ne_true⟩
  have hrules : ¬ m.rules.isEmpty = true := fun hempty => h.plain.rules (List.isEmpty_iff.mp hempty)
  have hm : (if m.objPrefix.isEmpty then { m with objPrefix := p.manifest.objPrefix } else m) =
      m := by
    rw [if_neg]
    rw [List.isEmpty_iff, h.prefix_eq]
    exact hobj
  have hpart : ¬ p.manifest.rules.isEmpty = true := Bool.false_ne_true
  rw [ObjManifest.append, if_neg hexplicit, if_neg hrules, hm, if_neg hpart, h.objSize, h.prefix_eq]
  rfl

def ImplicitPart.group (p : ImplicitPart) (overridePrefix : Bytes) (hsize : 0 < p.size) : Group :=
  ⟨p.num, 1, p.size, p.stripeMaxSize, overridePrefix, Nat.one_pos, hsize, p.stripe_pos⟩

theorem effective_override (p : ImplicitPart) (objPrefix : Bytes) :
    effective objPrefix (p.override objPrefix) = p.objPrefix := by
  rw [ImplicitPart.override]
  split_ifs with h
  · rw [effective, if_neg]
    rw [List.isEmpty_iff]
    exact p.objPrefix_ne
  · exact (not_not.mp h).symm

theorem blocksOf_append (objPrefix : Bytes) (gs gs' : List Group) :
    blocksOf objPrefix (gs ++ gs') = blocksOf objPrefix gs ++ blocksOf objPrefix gs' :=
  flatMap_append

theorem blocksOf_group (p : ImplicitPart) (overridePrefix : Bytes) (hsize : 0 < p.size) :
    blocksOf objPrefix [p.group overridePrefix hsize]
      = [partBlock (effective objPrefix overridePrefix) p.num p.size p.stripeMaxSize] := rfl

variable {overridePrefix : Bytes}

theorem represents_group {fuel : Nat} {p : ImplicitPart} (h : Represents m objPrefix gs tail)
    (hobj : objPrefix ≠ [])
    (hsize : 0 < p.size)
    (hrules : ObjManifest.mergeRules (lengthOf gs) p.size objPrefix p.objPrefix m.rules [(0,
      p.rule)]
      = rulesOf 0 gs ++ [(lengthOf gs, p.newRule (lengthOf gs) overridePrefix)]) :
    Represents (m.append fuel p.manifest) objPrefix (gs ++ [p.group overridePrefix hsize]) [] := by
  have hlength : lengthOf gs + p.size = lengthOf (gs ++ [p.group overridePrefix hsize]) := by
    rw [lengthOf_append, lengthOf_singleton]
    change _ = _ + 1 * p.size
    rw [one_mul]
  have hgroups : rulesOf 0 gs ++ [(lengthOf gs, p.newRule (lengthOf gs) overridePrefix)]
      = rulesOf 0 (gs ++ [p.group overridePrefix hsize]) ++ [] := by
    rw [rulesOf_append, append_nil, zero_add]
    rfl
  rw [h.append_eq hobj, hrules, hlength, hgroups, ← h.prefix_eq]
  apply represents_setObjSize h.plain h.explicitIter (.inl rfl)
  rw [← hgroups]
  exact append_ne_nil_of_right_ne_nil _ (cons_ne_nil _ _)

theorem represents_empty {fuel : Nat} {p : ImplicitPart} (h : Represents m objPrefix gs tail)
    (hobj : objPrefix ≠ [])
    (hsize : p.size = 0) {rule : Rule} (hpart : rule.partSize = 0)
    (hstart : rule.startOfs = lengthOf gs)
    (hrules : ObjManifest.mergeRules (lengthOf gs) p.size objPrefix p.objPrefix m.rules [(0,
      p.rule)]
      = rulesOf 0 gs ++ [(lengthOf gs, rule)]) :
    Represents (m.append fuel p.manifest) objPrefix gs [(lengthOf gs, rule)] := by
  rw [h.append_eq hobj, hrules, hsize, add_zero, ← h.prefix_eq]
  apply represents_setObjSize h.plain h.explicitIter (.inr ⟨rule, rfl, hpart, hstart⟩)
  exact append_ne_nil_of_right_ne_nil _ (cons_ne_nil _ _)

theorem expected_group (gs : List Group) (g : Group) :
    expected (lengthOf (gs ++ [g])) (g.rule (lengthOf gs)) = g.num + g.count := by
  rw [expected, lengthOf_append, lengthOf_singleton]
  change (if 0 < g.size then g.num + (lengthOf gs + g.count * g.size - lengthOf gs) / g.size
    else _) = _
  rw [if_pos g.size_pos, Nat.add_sub_cancel_left, Nat.mul_div_cancel _ g.size_pos]

theorem like_group (p : ImplicitPart) (g : Group) (a : Nat) : p.Like objPrefix (g.rule a) ↔
      g.size = p.size ∧ g.stripe = p.stripeMaxSize ∧
      effective objPrefix g.overridePrefix = p.objPrefix := Iff.rfl

def Group.extend (g : Group) : Group := { g with count := g.count + 1, count_pos := Nat.succ_pos _ }

theorem blocksOf_extend (g : Group) :
    blocksOf objPrefix [g.extend] = blocksOf objPrefix [g] ++ [g.block objPrefix g.count] := by
  have hblocks : g.extend.blocks objPrefix = g.blocks objPrefix ++ [g.block objPrefix g.count] := by
    change (List.range (g.count + 1)).map (g.block objPrefix) = _
    rw [range_succ, map_append]
    rfl
  rw [blocksOf, blocksOf, flatMap_singleton, flatMap_singleton, hblocks]

theorem lengthOf_extend (gs : List Group) (g : Group) :
    lengthOf (gs ++ [g.extend]) = lengthOf (gs ++ [g]) + g.size := by
  rw [lengthOf_append, lengthOf_append, lengthOf_singleton, lengthOf_singleton, add_assoc]
  congr 1
  exact Nat.succ_mul _ _

theorem rulesOf_extend (gs : List Group) (g : Group) :
    rulesOf 0 (gs ++ [g.extend]) = rulesOf 0 (gs ++ [g]) := by
  rw [rulesOf_append, rulesOf_append]
  rfl

def Extends (objPrefix : Bytes) (gs : List Group) (q : ImplicitPart) (e : Bytes) (p : ImplicitPart)
    (m' : ObjManifest) :
    Prop :=
  ∃ gs' tail', Represents m' objPrefix gs' tail' ∧
    Ends objPrefix gs' tail' p (readPrefix objPrefix q e p) ∧
    blocksOf objPrefix gs' = blocksOf objPrefix gs ++ [readBlock objPrefix q e p].filter fun b =>
      b.size ≠ 0

theorem extends_of_group {fuel : Nat} {p : ImplicitPart} (h : Represents m objPrefix gs tail)
    (hobj : objPrefix ≠ [])
    (hsize : 0 < p.size)
    (hread : effective objPrefix overridePrefix = readPrefix objPrefix q e p)
    (hrules : ObjManifest.mergeRules (lengthOf gs) p.size objPrefix p.objPrefix m.rules [(0,
      p.rule)]
      = rulesOf 0 gs ++ [(lengthOf gs, p.newRule (lengthOf gs) overridePrefix)]) :
    Extends objPrefix gs q e p (m.append fuel p.manifest) := by
  refine ⟨_, _, represents_group h hobj hsize hrules, ?_, ?_⟩
  · rw [Ends, if_neg (Nat.ne_of_gt hsize)]
    exact ⟨rfl, gs, _, rfl, rfl, rfl, hread, rfl⟩
  · rw [blocksOf_append, blocksOf_group, hread, filter_cons_of_pos]
    · rfl
    · exact decide_eq_true (Nat.ne_of_gt hsize)

theorem extends_of_empty {fuel : Nat} {p : ImplicitPart} (h : Represents m objPrefix gs tail)
    (hobj : objPrefix ≠ [])
    (hsize : p.size = 0) {rule : Rule} (hpart : rule.partSize = 0)
    (hstart : rule.startOfs = lengthOf gs)
    (hrules : ObjManifest.mergeRules (lengthOf gs) p.size objPrefix p.objPrefix m.rules [(0,
      p.rule)]
      = rulesOf 0 gs ++ [(lengthOf gs, rule)]) : Extends objPrefix gs q e p
        (m.append fuel p.manifest) := by
  refine ⟨_, _, represents_empty h hobj hsize hpart hstart hrules, ?_, ?_⟩
  · rw [Ends, if_pos hsize]
    exact cons_ne_nil _ _
  · rw [filter_cons_of_neg]
    · exact (append_nil _).symm
    · exact fun hne => of_decide_eq_true hne hsize

/-- A part behind an empty one. -/
theorem Represents.extends_behind_empty (fuel : Nat) (h : Represents m objPrefix gs tail)
    (hobj : objPrefix ≠ [])
    (hq : q.size = 0) (hends : Ends objPrefix gs tail q e) (p : ImplicitPart) :
    Extends objPrefix gs q e p (m.append fuel p.manifest) := by
  rw [Ends, if_pos hq] at hends
  obtain ⟨z, rfl, hpart, hstart⟩ := h.tail.resolve_left hends
  have hfixed := h.fixed
  rw [h.objSize] at hfixed
  have hlast : (ObjManifest.fixLastRule (lengthOf gs) m.rules).getLast? =
      some (lengthOf gs, z) := by
    rw [hfixed, getLast?_append]
    rfl
  have hmerge := mergeRules_cases objPrefix p hlast
  rw [hfixed, insert_rulesOf_tail, insert_rulesOf_tail] at hmerge
  by_cases hsize : p.size = 0
  · split_ifs at hmerge
    · exact extends_of_empty h hobj hsize (by exact hsize) (by rfl) hmerge
    · exact extends_of_empty h hobj hsize hpart hstart hmerge
    · exact extends_of_empty h hobj hsize (by exact hsize) (by rfl) hmerge
  · have hlike : ¬ p.Like objPrefix z := fun hlike => hsize (hlike.1.symm.trans hpart)
    rw [if_pos hlike] at hmerge
    apply extends_of_group h hobj (Nat.pos_of_ne_zero hsize) _ hmerge
    rw [effective_override, readPrefix, if_neg]
    exact fun hsame => hsize (hsame.1.symm.trans hq)

/-- A part behind one with data. -/
theorem Represents.extends_behind_data (fuel : Nat) (h : Represents m objPrefix gs tail)
    (hobj : objPrefix ≠ [])
    (hq : q.size ≠ 0) (hends : Ends objPrefix gs tail q e) (p : ImplicitPart) :
    Extends objPrefix gs q e p (m.append fuel p.manifest) := by
  rw [Ends, if_neg hq] at hends
  obtain ⟨rfl, gs₀, g, rfl, hgsize, hgstripe, hgprefix, hgnum⟩ := hends
  have hfixed := h.fixed
  rw [h.objSize, append_nil] at hfixed
  have hlast : (ObjManifest.fixLastRule (lengthOf (gs₀ ++ [g])) m.rules).getLast?
      = some (lengthOf gs₀, g.rule (lengthOf gs₀)) := by
    rw [hfixed, rulesOf_append, getLast?_append, zero_add]
    rfl
  have hmerge := mergeRules_cases objPrefix p hlast
  rw [hfixed, insert_rulesOf, insert_rulesOf, expected_group, hgnum] at hmerge
  have hiff : p.Like objPrefix (g.rule (lengthOf gs₀)) ↔
      q.size = p.size ∧ q.stripeMaxSize = p.stripeMaxSize ∧ e = p.objPrefix := by
    rw [like_group, hgsize, hgstripe, hgprefix]
  by_cases hlike : p.Like objPrefix (g.rule (lengthOf gs₀))
  · obtain ⟨hsize, hstripe, hname⟩ := hiff.mp hlike
    have hpos : 0 < p.size := hsize ▸ Nat.pos_of_ne_zero hq
    rw [if_neg (not_not.mpr hlike)] at hmerge
    by_cases hnum : q.num + 1 = p.num
    · rw [if_neg (not_not.mpr hnum)] at hmerge
      have hread : readPrefix objPrefix q e p = p.objPrefix := if_neg fun hsame => hsame.2.2.2 hnum
      refine ⟨gs₀ ++ [g.extend], [], ?_, ?_, ?_⟩
      · rw [h.append_eq hobj, hmerge, ← rulesOf_extend, ← hsize, ← hgsize, ← lengthOf_extend,
          ← h.prefix_eq,
          ← append_nil (rulesOf 0 _)]
        apply represents_setObjSize h.plain h.explicitIter (.inl rfl)
        rw [append_nil, rulesOf_append]
        exact append_ne_nil_of_right_ne_nil _ (cons_ne_nil _ _)
      · rw [Ends, if_neg (Nat.ne_of_gt hpos)]
        refine ⟨rfl, gs₀, g.extend, rfl, hgsize.trans hsize, hgstripe.trans hstripe, ?_, ?_⟩
        · rw [hread, ← hname]
          exact hgprefix
        · change g.num + (g.count + 1) = p.num + 1
          rw [← hnum, ← hgnum, add_assoc]
      · have hblock : g.block objPrefix g.count = readBlock objPrefix q e p := by
          rw [Group.block, readBlock, hread, hgprefix, hname, hgnum, hnum, hgsize, hsize, hgstripe,
            hstripe]
        rw [blocksOf_append, blocksOf_append, blocksOf_extend, hblock, filter_cons_of_pos,
          append_assoc]
        · rfl
        · exact decide_eq_true (Nat.ne_of_gt hpos)
    · rw [if_pos hnum] at hmerge
      apply extends_of_group h hobj hpos _ hmerge
      rw [readPrefix, if_pos ⟨hsize, hstripe, hname, hnum⟩]
      rfl
  · rw [if_pos hlike] at hmerge
    by_cases hsize : p.size = 0
    · exact extends_of_empty h hobj hsize (by exact hsize) (by rfl) hmerge
    · apply extends_of_group h hobj (Nat.pos_of_ne_zero hsize) _ hmerge
      rw [effective_override, readPrefix, if_neg]
      exact fun hsame => hlike (hiff.mpr ⟨hsame.1, hsame.2.1, hsame.2.2.1⟩)

end Step

section Run

variable {m : ObjManifest} {objPrefix : Bytes} {p q : ImplicitPart} {e : Bytes}

theorem ImplicitPart.total_block (p : ImplicitPart) : Layout.total [p.block] = p.size := add_zero _

theorem visits_part (hm : Plain m) (hrules : m.rules = [(0, p.rule)])
    (hname : m.objPrefix = p.objPrefix)
    (hsize : m.objSize = p.size) (it : ObjIterator) : Visits m (seek m it 0)
    (Layout.lookup [p.block]) := by
  by_cases hempty : p.size = 0
  · apply visits_end
    · rw [ofs_seek hm.explicitObjs, hm.endOfs, hsize, hempty]
    · intro o _
      apply Layout.lookup_eq_none
      rw [p.total_block, hempty]
      exact Nat.zero_le o
  · have hpos : 0 < m.objSize := hsize ▸ Nat.pos_of_ne_zero hempty
    apply (atOpen_seek_zero hm hrules rfl rfl hpos it).visits hm rfl p.stripe_pos
    intro o
    rw [hname, hsize]
    rfl

theorem plain_manifest (p : ImplicitPart) : Plain p.manifest where
  explicitObjs := rfl
  headSize := rfl
  maxHeadSize := rfl
  rules := cons_ne_nil _ _
  endOfs := ofs_seek (by rfl) _ _

theorem hasMap_manifest (p : ImplicitPart) : HasMap p.manifest (Layout.lookup [p.block]) :=
  hasMap_of_visits (visits_part (plain_manifest p) rfl rfl rfl _) (ofs_seek (by rfl) _ _)

theorem extends_first (fuel : Nat) (p : ImplicitPart) :
    ∃ gs tail, Represents (ObjManifest.append fuel {} p.manifest) p.objPrefix gs tail ∧
      Ends p.objPrefix gs tail p p.objPrefix ∧ blocksOf p.objPrefix gs = [p.block].filter fun b =>
        b.size ≠ 0 := by
  have hbegin : p.manifest.beginIter.ofs = 0 := ofs_seek (by rfl) _ _
  have hend : p.manifest.endIter.ofs = p.size := ofs_seek (by rfl) _ _
  have hassign : ObjManifest.append fuel {} p.manifest
      = { p.manifest with beginIter := seek p.manifest {} 0, endIter := seek p.manifest {} p.size
        } := by
    change ObjManifest.assign {} p.manifest = _
    rw [ObjManifest.assign, hbegin, hend]
  rw [hassign]
  have hplain : Plain
    { p.manifest with beginIter := seek p.manifest {} 0, endIter := seek p.manifest {} p.size } :=
    ⟨rfl, rfl, rfl, cons_ne_nil _ _, ofs_seek (by rfl) _ _⟩
  have hvisits := visits_part hplain rfl rfl rfl {}
  by_cases hsize : p.size = 0
  · refine ⟨[], [(0, p.rule)], ?_, ?_, ?_⟩
    · constructor
      · exact hplain
      · rfl
      · exact hsize
      · change ObjManifest.fixLastRule p.size [(0, p.rule)] = _
        rw [hsize]
        rfl
      · exact .inr ⟨_, rfl, rfl, rfl⟩
      · exact ofs_seek (by rfl) _ _
      · exact explicitIter_seek (by rfl) _ _
      · apply visits_end _ fun _ _ => rfl
        exact (ofs_seek (by rfl) _ _).trans hsize.symm
    · rw [Ends, if_pos hsize]
      exact cons_ne_nil _ _
    · rw [filter_cons_of_neg]
      · rfl
      · exact fun hne => of_decide_eq_true hne hsize
  · have hpos := Nat.pos_of_ne_zero hsize
    refine ⟨[p.group [] hpos], [], ?_, ?_, ?_⟩
    · constructor
      · exact hplain
      · rfl
      · exact (one_mul _).symm
      · rfl
      · exact .inl rfl
      · exact ofs_seek (by rfl) _ _
      · exact explicitIter_seek (by rfl) _ _
      · exact hvisits
    · rw [Ends, if_neg hsize]
      exact ⟨rfl, [], _, rfl, rfl, rfl, rfl, rfl⟩
    · rw [filter_cons_of_pos]
      · rfl
      · exact decide_eq_true hsize

def readBlocks (objPrefix : Bytes) : ImplicitPart → Bytes → List ImplicitPart →
    List (Layout.Block (Location × Nat))
  | _, _, [] => []
  | q, e, p :: ps =>
    readBlock objPrefix q e p :: readBlocks objPrefix p (readPrefix objPrefix q e p) ps

/-- Appending any parts, by induction over them. -/
theorem Represents.foldl (fuel : Nat) (hobj : objPrefix ≠ []) (ps : List ImplicitPart)
    {gs : List Group}
    {tail : List (Nat × Rule)} (h : Represents m objPrefix gs tail)
    (hends : Ends objPrefix gs tail q e) :
    ∃ gs' tail', Represents (ps.foldl (fun m p => m.append fuel p.manifest) m) objPrefix gs' tail' ∧
      blocksOf objPrefix gs' = blocksOf objPrefix gs ++
        (readBlocks objPrefix q e ps).filter fun b => b.size ≠ 0 := by
  induction ps generalizing m q e gs tail with
  | nil => exact ⟨gs, tail, h, (append_nil _).symm⟩
  | cons p ps ih =>
    have hstep : Extends objPrefix gs q e p (m.append fuel p.manifest) := by
      by_cases hq : q.size = 0
      · exact h.extends_behind_empty fuel hobj hq hends p
      · exact h.extends_behind_data fuel hobj hq hends p
    obtain ⟨gs₁, tail₁, h₁, hends₁, hblocks₁⟩ := hstep
    obtain ⟨gs₂, tail₂, h₂, hblocks₂⟩ := ih h₁ hends₁
    refine ⟨gs₂, tail₂, h₂, ?_⟩
    rw [hblocks₂, hblocks₁, append_assoc, ← filter_append]
    rfl

def allRead : List ImplicitPart → List (Layout.Block (Location × Nat))
  | [] => []
  | p :: ps => p.block :: readBlocks p.objPrefix p p.objPrefix ps

/-- All parts appended, as a map of offsets. -/
theorem hasMap_result (fuel : Nat) (ps : List ImplicitPart) :
    HasMap (result fuel (ps.map .implicit)) (Layout.lookup (allRead ps)) ∧
      (result fuel (ps.map .implicit)).objSize = Layout.total (allRead ps) := by
  have hresult : result fuel (ps.map .implicit) = ps.foldl (fun m p =>
      m.append fuel p.manifest) {} := by
    rw [result, foldl_map]
    rfl
  rw [hresult]
  cases ps with
  | nil => exact ⟨hasMap_empty rfl, rfl⟩
  | cons p ps =>
    obtain ⟨gs, tail, hfirst, hends, hblocks⟩ := extends_first fuel p
    obtain ⟨gs', tail', h, hblocks'⟩ := hfirst.foldl fuel p.objPrefix_ne ps hends
    have hread : blocksOf p.objPrefix gs' = (allRead (p :: ps)).filter fun b => b.size ≠ 0 := by
      rw [hblocks', hblocks, ← filter_append]
      rfl
    constructor
    · obtain ⟨n, l, hl, hlocate⟩ := hasMap_of_visits h.visits h.beginOfs
      refine ⟨n, l, hl, fun o => ?_⟩
      rw [hlocate, hread, Layout.lookup_filter]
    · rw [foldl_cons, h.objSize, ← total_blocksOf p.objPrefix, hread, Layout.total_filter]

end Run

variable (ps : List ImplicitPart)

section Names

variable {objPrefix : Bytes} {p q : ImplicitPart} {e : Bytes}

def Follows (objPrefix : Bytes) (p q : ImplicitPart) : Prop :=
  ¬ (0 < p.size ∧ p.size = q.size ∧ p.stripeMaxSize = q.stripeMaxSize ∧ p.objPrefix = q.objPrefix ∧
    q.objPrefix ≠ objPrefix ∧ p.num + 1 ≠ q.num)

def Followed : List ImplicitPart → Prop
  | [] => True
  | p :: ps => List.IsChain (Follows p.objPrefix) (p :: ps)

theorem partLocation_zero_inj {e e' : Bytes} (h : partLocation e n 0 = partLocation e' n 0) :
    e = e' := by
  rw [partLocation, partLocation, if_pos rfl, if_pos rfl] at h
  split_ifs at h
  · exact append_cancel_right (congrArg Location.oid h)
  · have hoid := congrArg Location.oid h
    rw [append_assoc, append_assoc] at hoid
    exact append_cancel_right hoid

theorem agrees_partBlock_iff {e e' : Bytes} {n size stripe : Nat} :
    (partBlock e n size stripe).Agrees (partBlock e' n size stripe) ↔ size = 0 ∨ e = e' := by
  constructor
  · intro h
    by_cases hsize : size = 0
    · exact .inl hsize
    · have hzero := congrArg Prod.fst (h 0 (Nat.pos_of_ne_zero hsize))
      dsimp only [partBlock] at hzero
      rw [Nat.zero_div] at hzero
      exact .inr (partLocation_zero_inj hzero)
  · rintro (rfl | rfl) o ho
    · exact absurd ho (Nat.not_lt_zero o)
    · rfl

/-- A part is found where it was written exactly if it follows the one before. -/
theorem agrees_readBlock_iff (h : q.size = 0 ∨ e = q.objPrefix) :
    p.block.Agrees (readBlock objPrefix q e p) ↔ Follows objPrefix q p := by
  rw [ImplicitPart.block, readBlock, agrees_partBlock_iff, readPrefix, Follows]
  by_cases hq : q.size = 0
  · refine iff_of_true ?_ fun hlost => Nat.ne_of_gt hlost.1 hq
    by_cases hp : p.size = 0
    · exact .inl hp
    · rw [if_neg fun hlost => hp (hlost.1.symm.trans hq)]
      exact .inr rfl
  · obtain rfl := h.resolve_left hq
    split_ifs with hlost
    · obtain ⟨hsize, hstripe, hname, hnum⟩ := hlost
      have hp : p.size ≠ 0 := hsize ▸ hq
      rw [or_iff_right hp]
      constructor
      · exact fun hsame hand => hand.2.2.2.2.1 hsame
      · intro hfollows
        by_contra hother
        exact hfollows ⟨Nat.pos_of_ne_zero hq, hsize, hstripe, hname, hother, hnum⟩
    · refine iff_of_true (.inr rfl) fun hand => hlost ?_
      exact ⟨hand.2.1, hand.2.2.1, hand.2.2.2.1, hand.2.2.2.2.2⟩

theorem forall₂_agrees_iff (h : q.size = 0 ∨ e = q.objPrefix) :
    List.Forall₂ Layout.Block.Agrees (ps.map ImplicitPart.block) (readBlocks objPrefix q e ps) ↔
      List.IsChain (Follows objPrefix) (q :: ps) := by
  induction ps generalizing q e with
  | nil => exact iff_of_true .nil (isChain_singleton q)
  | cons p ps ih =>
    rw [map_cons, readBlocks, forall₂_cons, isChain_cons_cons, agrees_readBlock_iff h]
    apply and_congr_right
    intro hfollows
    apply ih
    have hagrees := (agrees_readBlock_iff h).mpr hfollows
    rw [ImplicitPart.block, readBlock, agrees_partBlock_iff] at hagrees
    exact hagrees.imp_right Eq.symm

theorem forall₂_size (objPrefix : Bytes) (q : ImplicitPart) (e : Bytes) (ps : List ImplicitPart) :
    List.Forall₂ (fun b c => b.size = c.size) (ps.map ImplicitPart.block)
    (readBlocks objPrefix q e ps) := by
  induction ps generalizing q e with
  | nil => exact .nil
  | cons p ps ih => exact .cons rfl (ih _ _)

theorem lookup_allRead_iff :
    (∀ o, Layout.lookup (ps.map ImplicitPart.block) o = Layout.lookup (allRead ps) o) ↔
    Followed ps := by
  cases ps with
  | nil => exact iff_of_true (fun _ => rfl) trivial
  | cons p ps =>
    rw [allRead, Followed, ← forall₂_agrees_iff ps (.inr rfl), map_cons,
      Layout.lookup_eq_iff (.cons rfl (forall₂_size _ _ _ ps)), forall₂_cons]
    exact and_iff_right fun _ _ => rfl

end Names

section Explicit

variable {m : ObjManifest} (fuel : Nat)

structure Stuck (m : ObjManifest) (old : ObjManifest) : Prop where
  explicitObjs : m.explicitObjs = true
  beginIter : m.beginIter = old.beginIter
  endIter : m.endIter = old.endIter

theorem objSize_convertToExplicit (m : ObjManifest) :
    (m.convertToExplicit fuel).objSize = m.objSize := by
  rw [ObjManifest.convertToExplicit]
  split_ifs <;> rfl

theorem stuck_convertToExplicit (m : ObjManifest) : Stuck (m.convertToExplicit fuel) m := by
  rw [ObjManifest.convertToExplicit]
  split_ifs with h
  · exact ⟨h, rfl, rfl⟩
  · exact ⟨rfl, rfl, rfl⟩

theorem append_explicit (m rhs : ObjManifest)
    (h : m.explicitObjs = true ∨ rhs.explicitObjs = true) :
    Stuck (m.append fuel rhs) m ∧ (m.append fuel rhs).objSize = m.objSize + rhs.objSize := by
  rw [ObjManifest.append, if_pos h]
  have hstuck := stuck_convertToExplicit fuel m
  refine ⟨⟨hstuck.explicitObjs, hstuck.beginIter, hstuck.endIter⟩, ?_⟩
  change (m.convertToExplicit fuel).objSize + (rhs.convertToExplicit fuel).objSize = _
  rw [objSize_convertToExplicit, objSize_convertToExplicit]

variable {old : ObjManifest}

theorem stuck_foldl (h : Stuck m old) (parts : List Part) :
    Stuck (parts.foldl (fun m p => m.append fuel p.manifest) m) old ∧
      (parts.foldl (fun m p => m.append fuel p.manifest) m).objSize =
        m.objSize + (parts.map Part.size).sum := by
  induction parts generalizing m with
  | nil => exact ⟨h, rfl⟩
  | cons p parts ih =>
    obtain ⟨hstuck, hsize⟩ := append_explicit fuel m p.manifest (.inl h.explicitObjs)
    obtain ⟨hrest, hsize'⟩ :=
      ih ⟨hstuck.explicitObjs, hstuck.beginIter.trans h.beginIter, hstuck.endIter.trans h.endIter⟩
    refine ⟨hrest, ?_⟩
    rw [foldl_cons, hsize', hsize, map_cons, sum_cons, add_assoc]
    rfl

theorem Stuck.stripes_eq_nil (h : Stuck m old) (hold : old.beginIter.explicitIter = none)
    (hl : m.stripes n = some l) : l = [] := by
  cases n with
  | zero => cases hl
  | succ n =>
    have hstripe : stripe m m.beginIter = none := by
      rw [stripe, if_pos h.explicitObjs, h.beginIter, hold]
    rw [ObjManifest.stripes, ObjManifest.stripesFrom] at hl
    split_ifs at hl
    · exact (some.inj hl).symm
    · rw [hstripe] at hl
      cases hl

theorem iterators_result (ps : List ImplicitPart) :
    (result fuel (ps.map .implicit)).beginIter.explicitIter = none ∧
      (result fuel (ps.map .implicit)).beginIter.ofs = 0 ∧
      (result fuel (ps.map .implicit)).endIter.ofs = (result fuel (ps.map .implicit)).objSize := by
  have hresult : result fuel (ps.map .implicit) = ps.foldl (fun m p =>
      m.append fuel p.manifest) {} := by
    rw [result, foldl_map]
    rfl
  rw [hresult]
  cases ps with
  | nil => exact ⟨rfl, rfl, rfl⟩
  | cons p ps =>
    obtain ⟨gs, tail, hfirst, hends, -⟩ := extends_first fuel p
    obtain ⟨gs', tail', h, -⟩ := hfirst.foldl fuel p.objPrefix_ne ps hends
    exact ⟨h.explicitIter, h.beginOfs, h.plain.endOfs⟩

theorem total_allRead : Layout.total (allRead ps) = ((ps.map Part.implicit).map Part.size).sum := by
  have hread (objPrefix : Bytes) (q : ImplicitPart) (e : Bytes) (ps : List ImplicitPart) :
      Layout.total (readBlocks objPrefix q e ps) = ((ps.map Part.implicit).map Part.size).sum := by
    induction ps generalizing q e with
    | nil => rfl
    | cons p ps ih =>
      rw [readBlocks, Layout.total_cons, ih]
      rfl
  cases ps with
  | nil => rfl
  | cons p ps =>
    rw [allRead, Layout.total_cons, hread]
    rfl

theorem exists_stuck (h : ∀ ps : List ImplicitPart, parts ≠ ps.map .implicit) :
    ∃ ps : List ImplicitPart, Stuck (result fuel parts) (result fuel (ps.map .implicit)) ∧
      (result fuel parts).objSize = (parts.map Part.size).sum ∧
      (result fuel (ps.map .implicit)).objSize ≤ (parts.map Part.size).sum := by
  have hsplit : ∃ (ps : List ImplicitPart) (m : ObjManifest) (hm : m.explicitObjs =
    true) (rest : List Part),
      parts = ps.map .implicit ++ .explicit m hm :: rest := by
    induction parts with
    | nil => exact absurd rfl (h [])
    | cons p parts ih =>
      cases p with
      | explicit m hm => exact ⟨[], m, hm, parts, rfl⟩
      | implicit p =>
        obtain ⟨ps, m, hm, rest, rfl⟩ := ih fun ps heq => h (p :: ps) (by rw [heq]; rfl)
        exact ⟨p :: ps, m, hm, rest, rfl⟩
  obtain ⟨ps, m, hm, rest, rfl⟩ := hsplit
  have hsize := (hasMap_result fuel ps).2.trans (total_allRead ps)
  have hfirst := append_explicit fuel (result fuel (ps.map .implicit)) (Part.explicit m hm).manifest
    (.inr hm)
  obtain ⟨hstuck, hrest⟩ := stuck_foldl fuel hfirst.1 rest
  have hresult : result fuel (ps.map .implicit ++ .explicit m hm :: rest) = rest.foldl
      (fun m p => m.append fuel p.manifest)
        ((result fuel (ps.map .implicit)).append fuel (Part.explicit m hm).manifest) := by
    rw [result, foldl_append]
    rfl
  refine ⟨ps, ?_, ?_, ?_⟩
  · rw [hresult]
    exact hstuck
  · rw [hresult, hrest, hfirst.2, hsize, map_append, sum_append, map_cons, sum_cons, add_assoc]
    rfl
  · rw [hsize, map_append, sum_append]
    exact Nat.le_add_right _ _

end Explicit

def Kept (parts : List Part) : Prop :=
  (∀ p ∈ parts, p.size = 0) ∨ ∃ ps : List ImplicitPart, parts = ps.map .implicit ∧ Followed ps

theorem isConcat_implicit : IsConcat (ps.map .implicit)
    (Layout.lookup (ps.map ImplicitPart.block)) := by
  induction ps with
  | nil => exact fun _ => rfl
  | cons p ps ih =>
    refine ⟨_, _, hasMap_manifest p, ih, fun o => ?_⟩
    change (if o < p.size then _ else _) = if o < p.size then (if o < p.size then _ else _) else _
    split_ifs <;> rfl

theorem total_block :
    Layout.total (ps.map ImplicitPart.block) = ((ps.map Part.implicit).map Part.size).sum := by
  rw [Layout.total, List.map_map, List.map_map]
  rfl

theorem concatenates_implicit_iff (fuel : Nat) (ps : List ImplicitPart) :
    Concatenates fuel (ps.map .implicit) ↔ Followed ps := by
  obtain ⟨hmap, hsize⟩ := hasMap_result fuel ps
  rw [← lookup_allRead_iff]
  constructor
  · rintro ⟨f, hconcat, hf, -⟩ o
    rw [(isConcat_implicit ps).unique hconcat, hf.unique hmap]
  · intro hsame
    refine ⟨_, isConcat_implicit ps, ?_, fun o => ?_⟩
    · obtain ⟨n, l, hl, hlocate⟩ := hmap
      exact ⟨n, l, hl, fun o => (hlocate o).trans (hsame o).symm⟩
    · rw [Layout.lookup_isSome, hsize, total_block, total_allRead]

theorem hasMap_empty_part {p : Part} (h : p.size = 0) : HasMap p.manifest fun _ => none := by
  cases p with
  | implicit p =>
    obtain ⟨n, l, hl, hlocate⟩ := hasMap_manifest p
    refine ⟨n, l, hl, fun o => (hlocate o).trans (Layout.lookup_eq_none ?_)⟩
    exact h.le.trans (Nat.zero_le o)
  | explicit m hm =>
    apply hasMap_empty
    have hzero : m.objSize = 0 := h
    have hofs (it : ObjIterator) : (seek m it 0).ofs = 0 := by
      rw [seek, if_pos hm]
      rw [if_pos hzero.le]
      exact hzero
    change (seek m m.beginIter 0).ofs = (seek m m.endIter m.objSize).ofs
    rw [hzero, hofs, hofs]

theorem isConcat_empty (h : ∀ p ∈ parts, p.size = 0) : IsConcat parts fun _ => none := by
  induction parts with
  | nil => exact fun _ => rfl
  | cons p parts ih =>
    obtain ⟨hp, hparts⟩ := forall_mem_cons.mp h
    exact ⟨_, _, hasMap_empty_part hp, ih hparts, fun o => (ite_self _).symm⟩

/-- A part with explicit objects is appended rightly only if there are no bytes at all. -/
theorem concatenates_explicit_iff (fuel : Nat)
    (h : ∀ ps : List ImplicitPart, parts ≠ ps.map .implicit) : Concatenates fuel parts ↔
    ∀ p ∈ parts, p.size = 0 := by
  obtain ⟨ps, hstuck, hsize, hle⟩ := exists_stuck fuel h
  obtain ⟨hnone, hbegin, hend⟩ := iterators_result fuel ps
  constructor
  · rintro ⟨f, -, ⟨n, l, hl, hlocate⟩, hcovers⟩
    obtain rfl := hstuck.stripes_eq_nil hnone hl
    have hzero : (parts.map Part.size).sum = 0 := by
      have hempty := hcovers 0
      rw [← hlocate, hsize] at hempty
      exact Nat.eq_zero_of_not_pos fun hpos => nomatch hempty.mpr hpos
    intro p hp
    exact sum_eq_zero_iff.mp hzero _ (List.mem_map_of_mem hp)
  · intro hempty
    have hzero : (parts.map Part.size).sum = 0 := by
      rw [sum_eq_zero_iff]
      exact List.forall_mem_map.mpr hempty
    refine ⟨_, isConcat_empty hempty, hasMap_empty ?_, fun o => ?_⟩
    · rw [hstuck.beginIter, hstuck.endIter, hbegin, hend]
      omega
    · rw [hsize, hzero]
      exact iff_of_false (fun hsome => nomatch hsome) (Nat.not_lt_zero o)

theorem followed_of_empty {ps : List ImplicitPart} (h : ∀ p ∈ ps.map Part.implicit, p.size = 0) :
    Followed ps := by
  rw [List.forall_mem_map] at h
  cases ps with
  | nil => trivial
  | cons p ps =>
    apply List.Pairwise.isChain
    apply pairwise_of_forall_mem_list
    intro q hq r _ hlost
    exact Nat.ne_of_gt hlost.1 (h q hq)

/-- **Concatenation.** The manifest of the parts has their map exactly if they are all empty, or all
have rules and none loses its prefix. -/
theorem concatenates_iff_kept (fuel : Nat) (parts : List Part) : Concatenates fuel parts ↔
    Kept parts := by
  by_cases h : ∃ ps : List ImplicitPart, parts = ps.map .implicit
  · obtain ⟨ps, rfl⟩ := h
    rw [concatenates_implicit_iff]
    constructor
    · exact fun hfollowed => .inr ⟨ps, rfl, hfollowed⟩
    · rintro (hempty | ⟨ps', heq, hfollowed⟩)
      · exact followed_of_empty hempty
      · have hinj : Function.Injective Part.implicit := fun p q hpq => by
          injection hpq
        rw [map_injective_iff.mpr hinj heq]
        exact hfollowed
  · rw [concatenates_explicit_iff fuel (not_exists.mp h), Kept, or_iff_left]
    rintro ⟨ps, heq, -⟩
    exact h ⟨ps, heq⟩

def samplePart (objPrefix : UInt8) (num : Nat) : ImplicitPart :=
  ⟨default, [objPrefix], num, 2, 1, cons_ne_nil _ _, Nat.one_pos⟩

def sampleExplicit : ObjManifest :=
  { explicitObjs := true, objs := [(0, ⟨⟨[], ascii "old"⟩, 0, 2⟩)], objSize := 2 }

/-- The third part is read under the prefix of the first, and nothing of an explicit one. -/
theorem parts_misread :
    ¬ Concatenates 0 [.implicit (samplePart 97 1), .implicit (samplePart 98 2),
      .implicit (samplePart 98 4)] ∧
      ¬ Concatenates 0 [.explicit sampleExplicit rfl] := by
  constructor
  · intro h
    have hfollowed : Followed [samplePart 97 1, samplePart 98 2, samplePart 98 4] :=
      (concatenates_implicit_iff 0 [samplePart 97 1, samplePart 98 2, samplePart 98 4]).mp h
    have hlost := ((isChain_cons_cons.mp (isChain_cons_cons.mp hfollowed).2).1)
    exact hlost ⟨by decide, rfl, rfl, rfl, by decide, by decide⟩
  · intro h
    have hne : ∀ ps : List ImplicitPart, [Part.explicit sampleExplicit rfl] ≠ ps.map .implicit := by
      intro ps heq
      cases ps with
      | nil => cases heq
      | cons p ps => cases heq
    have hsize := (concatenates_explicit_iff 0 hne).mp h _ mem_cons_self
    cases hsize

end RadosGateway.Manifest
