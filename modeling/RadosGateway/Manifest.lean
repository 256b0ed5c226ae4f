import RadosGateway.Base.Bytes
import RadosGateway.Base.SortedMap

/-!
# Manifests

A manifest says on which objects the bytes of an object lie: on the head, and then on stripes. Old
manifests list the stripes; others have rules, each for parts of one size, cut into stripes of one
size that are named by a prefix and the numbers of the part and the stripe.
-/

namespace RadosGateway

open Text

structure Location where
  ns : Bytes
  oid : Bytes
  deriving DecidableEq, Inhabited

namespace Manifest

structure Rule where
  startPartNum : Nat
  startOfs : Nat
  partSize : Nat
  stripeMaxSize : Nat
  overridePrefix : Bytes
  deriving DecidableEq

structure ManifestPart where
  loc : Location
  locOfs : Nat
  size : Nat
  deriving DecidableEq

/-- `obj_iterator`. An iterator of a map is the list of the entries from it on; one of the explicit
objects that was never set points nowhere. -/
structure ObjIterator where
  partOfs : Nat := 0
  stripeOfs : Nat := 0
  ofs : Nat := 0
  stripeSize : Nat := 0
  curPartId : Nat := 0
  /-- An `int` of the source; objects have fewer than `2 ^ 31` stripes. -/
  curStripe : Nat := 0
  curOverridePrefix : Bytes := []
  location : Location := default
  ruleIter : List (Nat × Rule) := []
  nextRuleIter : List (Nat × Rule) := []
  explicitIter : Option (List (Nat × ManifestPart)) := none
  deriving DecidableEq

structure ObjManifest where
  explicitObjs : Bool := false
  objs : List (Nat × ManifestPart) := []
  objSize : Nat := 0
  headObj : Location := default
  headSize : Nat := 0
  maxHeadSize : Nat := 0
  objPrefix : Bytes := []
  rules : List (Nat × Rule) := []
  beginIter : ObjIterator := {}
  endIter : ObjIterator := {}
  deriving DecidableEq

def shadowNs : Bytes := ascii "shadow"

def multipartNs : Bytes := ascii "multipart"

def ObjManifest.getImplicitLocation (m : ObjManifest) (curPartId curStripe ofs : Nat)
    (overridePrefix : Bytes) :
    Location :=
  let oid := if overridePrefix.isEmpty then m.objPrefix else overridePrefix
  if curPartId = 0 then
    if ofs < m.maxHeadSize then m.headObj
    else ⟨shadowNs, oid ++ decimal curStripe⟩
  else if curStripe = 0 then ⟨multipartNs, oid ++ ascii "." ++ decimal curPartId⟩
  else ⟨shadowNs, oid ++ ascii "." ++ decimal curPartId ++ ascii "_" ++ decimal curStripe⟩

namespace ObjIterator

/-- `upper_bound`: the entries behind those up to the key. -/
def upperBound {α : Type*} (k : Nat) (l : List (Nat × α)) : List (Nat × α) := l.dropWhile (·.1 ≤ k)

def stepBack {α : Type*} (l pos : List (Nat × α)) : List (Nat × α) :=
  l.drop (l.length - pos.length - 1)

def updateExplicitPos (m : ObjManifest) (it : ObjIterator) : ObjIterator :=
  match it.explicitIter with
  | some ((k, _) :: rest) =>
    { it with
      ofs := k,
      stripeOfs := k,
      stripeSize := (match rest with
        | (next, _) :: _ => next - k
        | [] => m.objSize - k) }
  | _ => it

def updateLocation (m : ObjManifest) (it : ObjIterator) : ObjIterator :=
  if m.explicitObjs then
    match it.explicitIter with
    | some ((_, part) :: _) => { it with location := part.loc }
    | _ => it
  else if it.ofs < m.headSize then { it with location := m.headObj }
  else
    { it with location :=
      m.getImplicitLocation it.curPartId it.curStripe it.ofs it.curOverridePrefix }

/-- The part and the stripe of a rule that the offset lies in. -/
def seekRule (m : ObjManifest) (rule : Rule) (it : ObjIterator) : ObjIterator :=
  let curPartId :=
    if 0 < rule.partSize then rule.startPartNum + (it.ofs - rule.startOfs) / rule.partSize
      else rule.startPartNum
  let partOfs := rule.startOfs + (curPartId - rule.startPartNum) * rule.partSize
  let stripe := if 0 < rule.stripeMaxSize then (it.ofs - partOfs) / rule.stripeMaxSize else 0
  let stripeOfs := if 0 < rule.stripeMaxSize then partOfs + stripe * rule.stripeMaxSize else partOfs
  { it with
    curPartId := curPartId,
    partOfs := partOfs,
    stripeOfs := stripeOfs,
    curStripe :=
      if 0 < rule.stripeMaxSize ∧ curPartId = 0 ∧ 0 < m.headSize then stripe + 1 else stripe,
    stripeSize :=
      if rule.partSize = 0 then min (m.objSize - stripeOfs) rule.stripeMaxSize
      else min (stripeOfs + rule.stripeMaxSize) (partOfs + rule.partSize) - stripeOfs,
    curOverridePrefix := rule.overridePrefix }

def seek (m : ObjManifest) (it : ObjIterator) (o : Nat) : ObjIterator :=
  let it := { it with ofs := o }
  if m.explicitObjs then
    let it := { it with explicitIter := some (stepBack m.objs (upperBound o m.objs)) }
    if m.objSize ≤ o then { it with ofs := m.objSize }
    else updateLocation m (updateExplicitPos m it)
  else if o < m.headSize then
    let it :=
      { it with
        ruleIter := m.rules,
        stripeOfs := 0,
        stripeSize := m.headSize }
    match m.rules with
    | (_, rule) :: _ =>
      updateLocation m
        { it with
          curPartId := rule.startPartNum,
          curOverridePrefix := rule.overridePrefix }
    | [] => updateLocation m it
  else
    let upper := upperBound o m.rules
    let it :=
      { it with
        ruleIter := stepBack m.rules upper,
        nextRuleIter := upper }
    match it.ruleIter with
    | (_, rule) :: _ => updateLocation m (seekRule m rule it)
    | [] => updateLocation m it

/-- Behind the last stripe of a part: the first stripe of the next part, which may have a rule of
its own. -/
def nextPart (rule : Rule) (it : ObjIterator) : ObjIterator :=
  let it :=
    { it with
      curStripe := 0,
      partOfs := it.partOfs + rule.partSize,
      stripeOfs := it.partOfs + rule.partSize }
  match it.nextRuleIter with
  | (_, next) :: rest =>
    if next.startOfs ≤ it.stripeOfs then
      { it with
        ruleIter := it.nextRuleIter,
        nextRuleIter := rest,
        curPartId := next.startPartNum }
    else { it with curPartId := it.curPartId + 1 }
  | [] => { it with curPartId := it.curPartId + 1 }

def currentRule (it : ObjIterator) (rule : Rule) : Rule :=
  match it.ruleIter with
  | (_, current) :: _ => current
  | [] => rule

/-- The next stripe of a rule, or of the one behind it. -/
def nextStripe (m : ObjManifest) (rule : Rule) (it : ObjIterator) : ObjIterator :=
  let it :=
    { it with
      stripeOfs := it.stripeOfs + rule.stripeMaxSize,
      curStripe := it.curStripe + 1 }
  let moved :=
    if 0 < rule.partSize then
      let it := if it.partOfs + rule.partSize ≤ it.stripeOfs then nextPart rule it else it
      let rule := it.currentRule rule
      { it with stripeSize := min (rule.partSize - (it.stripeOfs - it.partOfs)) rule.stripeMaxSize }
    else it
  let it :=
    { moved with
      curOverridePrefix := (moved.currentRule rule).overridePrefix,
      ofs := moved.stripeOfs }
  updateLocation m
    (if m.objSize < it.ofs then
      { it with
        ofs := m.objSize,
        stripeOfs := m.objSize,
        stripeSize := 0 } else it)

def next (m : ObjManifest) (it : ObjIterator) : ObjIterator :=
  if m.explicitObjs then
    match it.explicitIter with
    | some (_ :: rest) =>
      let it := { it with explicitIter := some rest }
      if rest.isEmpty then { it with ofs := m.objSize }
      else updateLocation m (updateExplicitPos m it)
    | _ => it
  else if it.ofs = m.objSize then it
  else
    match m.rules, it.ruleIter with
    | (k, first) :: rules, _ :: _ =>
      if it.ofs < m.headSize then
        let ofs := min m.headSize m.objSize
        let stripeSize := min (m.objSize - ofs) first.stripeMaxSize
        updateLocation m
          { it with
            ruleIter := (k, first) :: rules,
            ofs := ofs,
            stripeOfs := ofs,
            curStripe := 1,
            stripeSize := if 0 < first.partSize then min stripeSize first.partSize else stripeSize }
      else nextStripe m (it.currentRule first) it
    | _, _ => it

/-- Where the stripe starts, what its size is, and where its data is in the object; none when the
iterator points nowhere. -/
def stripe (m : ObjManifest) (it : ObjIterator) : Option (Nat × Nat × Nat) :=
  if m.explicitObjs then
    match it.explicitIter with
    | some ((k, part) :: _) => some (k, part.size, part.locOfs)
    | _ => none
  else some (it.stripeOfs, it.stripeSize, 0)

end ObjIterator

namespace ObjManifest

def updateIterators (m : ObjManifest) : ObjManifest :=
  { m with
    beginIter := ObjIterator.seek m m.beginIter 0,
    endIter := ObjIterator.seek m m.endIter m.objSize }

def setObjSize (m : ObjManifest) (s : Nat) : ObjManifest := updateIterators { m with objSize := s }

def setTrivialRule (m : ObjManifest) (tailOfs stripeMaxSize : Nat) : ObjManifest :=
  { m with
    rules := SortedMap.insert 0 ⟨0, tailOfs, 0, stripeMaxSize, []⟩ m.rules,
    maxHeadSize := tailOfs }

def setMultipartPartRule (m : ObjManifest) (stripeMaxSize partNum : Nat) : ObjManifest :=
  { m with
    rules := SortedMap.insert 0 ⟨partNum, 0, 0, stripeMaxSize, []⟩ m.rules,
    maxHeadSize := 0 }

def objFind (m : ObjManifest) (ofs : Nat) : ObjIterator := ObjIterator.seek m {} (min ofs m.objSize)

/-- `operator=`: the iterators are set again, to the same offsets. -/
def assign (m rhs : ObjManifest) : ObjManifest :=
  { rhs with
    beginIter := ObjIterator.seek rhs m.beginIter rhs.beginIter.ofs,
    endIter := ObjIterator.seek rhs m.endIter rhs.endIter.ofs }

/-- The loop of `convert_to_explicit`, as far as it comes with so many turns. -/
def explicitStripes (m : ObjManifest) : Nat → ObjIterator → List (Nat × ManifestPart) →
    List (Nat × ManifestPart)
  | 0, _, objs => objs
  | fuel + 1, it, objs =>
    if it.ofs = m.endIter.ofs then objs
    else
      let next := ObjIterator.next m it
      let part := ⟨it.location, 0, next.stripeOfs - it.stripeOfs⟩
      explicitStripes m fuel next (SortedMap.insert it.stripeOfs part objs)

def convertToExplicit (fuel : Nat) (m : ObjManifest) : ObjManifest :=
  if m.explicitObjs then m
  else
    { m with
      objs := explicitStripes m fuel m.beginIter m.objs,
      explicitObjs := true,
      rules := [],
      objPrefix := [] }

def appendExplicit (fuel : Nat) (m rhs : ObjManifest) : ObjManifest :=
  let m := m.convertToExplicit fuel
  let rhs := rhs.convertToExplicit fuel
  { m with
    objs := rhs.objs.foldl (fun objs e => SortedMap.insert (m.objSize + e.1) e.2 objs) m.objs,
    objSize := m.objSize + rhs.objSize }

def appendRules (objSize : Nat) (overridePrefix : Option Bytes) (rules mrules : List (Nat × Rule)) :
    List (Nat × Rule) :=
  mrules.foldl
    (fun rules e =>
      let rule :=
        { e.2 with
          startOfs := e.2.startOfs + objSize,
          overridePrefix := overridePrefix.getD e.2.overridePrefix }
      SortedMap.insert rule.startOfs rule rules)
    rules

def fixLastRule (objSize : Nat) (rules : List (Nat × Rule)) : List (Nat × Rule) :=
  match rules.getLast? with
  | some (k, rule) =>
    if rule.partSize = 0 then
      rules.dropLast ++ [(k, { rule with partSize := objSize - rule.startOfs })]
    else rules
  | none => rules

/-- The loop of `append` over the rules of the other manifest: rules that continue the last one are
left out, the first other one is appended with all behind it. -/
def mergeRules (objSize mobjSize : Nat) (objPrefix mprefix : Bytes) (rules : List (Nat × Rule)) :
    List (Nat × Rule) → List (Nat × Rule)
  | [] => rules
  | (k, next) :: mrules =>
    let rules := fixLastRule objSize rules
    let next := if next.partSize = 0 then { next with partSize := mobjSize - next.startOfs }
      else next
    match rules.getLast? with
    | none => rules
    | some (_, rule) =>
      let rulePrefix := if rule.overridePrefix.isEmpty then objPrefix else rule.overridePrefix
      let nextPrefix := if next.overridePrefix.isEmpty then mprefix else next.overridePrefix
      if rule.partSize ≠ next.partSize ∨ rule.stripeMaxSize ≠ next.stripeMaxSize ∨
        rulePrefix ≠ nextPrefix then
        if nextPrefix ≠ objPrefix then
          appendRules objSize (some nextPrefix) rules ((k, next) :: mrules)
        else appendRules objSize none rules ((k, next) :: mrules)
      else
        let expected :=
          if 0 < rule.partSize then
            rule.startPartNum + (objSize + next.startOfs - rule.startOfs) / rule.partSize
          else rule.startPartNum + 1
        if expected ≠ next.startPartNum then appendRules objSize none rules ((k, next) :: mrules)
        else mergeRules objSize mobjSize objPrefix mprefix rules mrules

def append (fuel : Nat) (m rhs : ObjManifest) : ObjManifest :=
  if m.explicitObjs ∨ rhs.explicitObjs then m.appendExplicit fuel rhs
  else if m.rules.isEmpty then m.assign rhs
  else
    let m := if m.objPrefix.isEmpty then { m with objPrefix := rhs.objPrefix } else m
    if rhs.rules.isEmpty then m.appendExplicit fuel rhs
    else
      setObjSize
        { m with rules :=
          mergeRules m.objSize rhs.objSize m.objPrefix rhs.objPrefix m.rules rhs.rules }
        (m.objSize + rhs.objSize)

structure Stripe where
  ofs : Nat
  len : Nat
  location : Location
  locOfs : Nat
  deriving DecidableEq

/-- The stripes from an iterator to the end, if so many steps are enough. -/
def stripesFrom (m : ObjManifest) : Nat → ObjIterator → Option (List Stripe)
  | 0, _ => none
  | fuel + 1, it =>
    if it.ofs = m.endIter.ofs then some []
    else
      (ObjIterator.stripe m it).bind fun (ofs, size, locOfs) =>
        (stripesFrom m fuel (ObjIterator.next m it)).map fun rest =>
          ⟨ofs, min size (m.objSize - ofs), it.location, locOfs⟩ :: rest

def stripes (m : ObjManifest) (fuel : Nat) : Option (List Stripe) := stripesFrom m fuel m.beginIter

def locate : List Stripe → Nat → Option (Location × Nat)
  | [], _ => none
  | s :: stripes, o =>
    if s.ofs ≤ o ∧ o < s.ofs + s.len then some (s.location, s.locOfs + (o - s.ofs))
      else locate stripes o

end ObjManifest

end Manifest

end RadosGateway
