import RadosGateway.Base.Loop
import RadosGateway.Manifest

/-!
# Writing an object in stripes

The processor collects the body of an object, which comes in calls of `handle_data`, until there is
a piece to write: the first chunk, which goes to the head at the end, and then pieces of the chunk
size, or smaller ones where a stripe ends. -/

namespace RadosGateway

open Text

namespace Manifest

def ObjManifest.getRule (m : ObjManifest) (ofs : Nat) : Option Rule :=
  (ObjIterator.stepBack m.rules (ObjIterator.upperBound ofs m.rules)).head?.map (·.2)

structure Generator where
  lastOfs : Nat := 0
  curPartId : Nat := 0
  /-- An `int` of the source, as in `Manifest`. -/
  curStripe : Nat := 0
  curStripeSize : Nat := 0
  curObj : Location := default
  rule : Rule := ⟨0, 0, 0, 0, []⟩
  deriving DecidableEq

/-- The name of a stripe starts with what `gen_rand_alphanumeric` gives. -/
def Generator.createBegin (g : Generator) (m : ObjManifest) (head : Location) (rand : Bytes) :
    Except Int (Generator × ObjManifest) :=
  let m :=
    { m with
      headObj := head,
      objPrefix := if m.objPrefix.isEmpty then ascii "." ++ rand ++ ascii "_" else m.objPrefix }
  match m.getRule 0 with
  | none => .error (-5)
  | some rule =>
    .ok
      ({ g with
          lastOfs := 0,
          rule := rule,
          curStripeSize := if 0 < m.headSize then m.headSize else rule.stripeMaxSize,
          curPartId := rule.startPartNum,
          curObj := m.getImplicitLocation rule.startPartNum g.curStripe 0 [] }, m.updateIterators)

def Generator.createNext (g : Generator) (m : ObjManifest) (ofs : Nat) :
    Except Int (Generator × ObjManifest) :=
  if ofs < g.lastOfs then .error (-22)
  else
    let m := if ofs ≤ m.maxHeadSize then { m with headSize := ofs } else m
    let m := if m.maxHeadSize ≤ ofs then { m with headSize := m.maxHeadSize } else m
    let stripe := (ofs - m.maxHeadSize) / g.rule.stripeMaxSize
    let g :=
      if m.maxHeadSize ≤ ofs then
        { g with
          curStripe := if g.curPartId = 0 ∧ 0 < m.maxHeadSize then stripe + 1 else stripe,
          curStripeSize := g.rule.stripeMaxSize }
      else g
    let m := m.setObjSize ofs
    .ok
      ({ g with
          lastOfs := ofs,
          curObj := m.getImplicitLocation g.curPartId g.curStripe ofs [] }, m.updateIterators)

end Manifest

namespace PutProcessor

open Manifest

/-- Bytes that are written to an object, and where in the body they start. -/
structure Write where
  obj : Location
  ofs : Nat
  absOfs : Nat
  data : Bytes
  deriving DecidableEq

/-- `RGWPutObjProcessor_Atomic`, with what it has written and what the MD5 was fed. -/
structure AtomicProcessor where
  maxChunkSize : Nat
  headObj : Location
  manifest : ObjManifest
  manifestGen : Generator
  curObj : Location := default
  curPartOfs : Nat := 0
  nextPartOfs : Nat
  dataOfs : Nat := 0
  objLen : Nat := 0
  firstChunk : Bytes := []
  pendingData : Bytes := []
  written : List Write := []
  hash : Bytes := []
  deriving DecidableEq

namespace AtomicProcessor

def prepare (chunkSize stripeSize : Nat) (head : Location) (rand : Bytes) :
    Except Int AtomicProcessor :=
  let manifest := ({} : ObjManifest).setTrivialRule chunkSize stripeSize
  (Generator.createBegin {} manifest head rand).map fun (gen, manifest) =>
    { maxChunkSize := chunkSize,
      headObj := head,
      manifest := manifest,
      manifestGen := gen,
      nextPartOfs := stripeSize }

def prepareNextPart (p : AtomicProcessor) (ofs : Nat) : Except Int AtomicProcessor :=
  (p.manifestGen.createNext p.manifest ofs).map fun (gen, manifest) =>
    { p with
      manifestGen := gen,
      manifest := manifest,
      curPartOfs := ofs,
      nextPartOfs := ofs + gen.curStripeSize,
      curObj := gen.curObj }

def handleObjData (p : AtomicProcessor) (bl : Bytes) (ofs absOfs : Nat) : AtomicProcessor :=
  { p with
    objLen := max p.objLen (absOfs + bl.length),
    written := p.written ++ [⟨p.curObj, ofs, absOfs, bl⟩] }

def writeData (p : AtomicProcessor) (bl : Bytes) (ofs : Nat) : Except Int AtomicProcessor :=
  (if p.nextPartOfs ≤ ofs then p.prepareNextPart ofs else .ok p).map fun p =>
    p.handleObjData bl (ofs - p.curPartOfs) ofs

/-- One call; the flag says whether it has to be repeated, without further data. -/
def handleData (p : AtomicProcessor) (bl : Bytes) : Except Int (AtomicProcessor × Bool) :=
  let maxWriteSize := min p.maxChunkSize (p.nextPartOfs - p.dataOfs)
  let p := { p with pendingData := p.pendingData ++ bl }
  if p.pendingData.length < maxWriteSize then .ok (p, false)
  else
    let bl := p.pendingData.take maxWriteSize
    let p := { p with pendingData := p.pendingData.drop maxWriteSize }
    let again := decide (p.maxChunkSize ≤ p.pendingData.length)
    if p.dataOfs = 0 then
      let p :=
        { p with
          firstChunk := bl,
          objLen := bl.length,
          hash := p.hash ++ bl }
      (p.prepareNextPart p.objLen).map fun p => ({ p with dataOfs := p.objLen }, again)
    else
      let writeOfs := p.dataOfs
      let p := { p with dataOfs := writeOfs + bl.length }
      (p.writeData bl writeOfs).map fun p => ({ p with hash := p.hash ++ bl }, again)

/-- A turn of the loop of `put_data_and_throttle`. -/
def putTurn : AtomicProcessor × Bytes → (AtomicProcessor × Bytes) ⊕ Except Int AtomicProcessor
  | (p, bl) =>
    match p.handleData bl with
    | .error r => .inr (.error r)
    | .ok (p, true) => .inl (p, [])
    | .ok (p, false) => .inr (.ok p)

def putData (fuel : Nat) (p : AtomicProcessor) (bl : Bytes) : ExceptT Int Option AtomicProcessor :=
  Loop.run putTurn fuel (p, bl)

def completeHash (p : AtomicProcessor) : AtomicProcessor :=
  { p with hash := p.hash ++ p.pendingData }

def completeParts (p : AtomicProcessor) : Except Int AtomicProcessor :=
  if p.curPartOfs < p.objLen then p.prepareNextPart p.objLen else .ok p

def completeWritingData (p : AtomicProcessor) : Except Int AtomicProcessor :=
  let p :=
    if p.dataOfs = 0 then
      { p with
        firstChunk := p.pendingData,
        objLen := p.pendingData.length,
        pendingData := [] }
    else p
  (if p.pendingData.isEmpty then .ok p else p.writeData p.pendingData p.dataOfs).bind completeParts

/-- The first chunk is written to the head, along with the manifest. -/
def doComplete (p : AtomicProcessor) : Except Int AtomicProcessor :=
  p.completeWritingData.map fun p =>
    { p with written := p.written ++ [⟨p.headObj, 0, 0, p.firstChunk⟩] }

end AtomicProcessor

open AtomicProcessor

def putObj (fuel chunkSize stripeSize : Nat) (head : Location) (rand : Bytes) (calls : List Bytes) :
    ExceptT Int Option AtomicProcessor := do
  let p ← ExceptT.mk (some (prepare chunkSize stripeSize head rand))
  let p ← calls.foldlM (putData fuel) p
  ExceptT.mk (some p.completeHash.doComplete)

/-- What `iterate_obj` asks its callback for. -/
structure Read where
  obj : Location
  ofs : Nat
  readOfs : Nat
  len : Nat
  deriving DecidableEq

structure Reader where
  iter : ObjIterator
  ofs : Nat
  len : Nat
  reads : List Read := []

/-- A turn reads from the stripe, or goes to the next one: the two loops of `iterate_obj` as one,
since the inner one leaves the iterator where it is. -/
def iterateTurn (m : ObjManifest) (maxChunkSize last : Nat) (r : Reader) :
    Reader ⊕ Option (List Read) :=
  if r.iter.ofs ≠ m.endIter.ofs ∧ r.ofs ≤ last then
    match ObjIterator.stripe m r.iter with
    | none => .inr none
    | some (stripeOfs, stripeSize, locationOfs) =>
      if r.ofs < stripeOfs + stripeSize then
        let readLen := min (min r.len (stripeSize - (r.ofs - stripeOfs))) maxChunkSize
        .inl
          { r with
            ofs := r.ofs + readLen,
            len := r.len - readLen,
            reads := r.reads ++
              [⟨r.iter.location, r.ofs, locationOfs + (r.ofs - stripeOfs), readLen⟩] }
      else .inl { r with iter := ObjIterator.next m r.iter }
  else .inr (some r.reads)

/-- The reads for the bytes from the first to the last position. -/
def iterateObj (fuel : Nat) (m : ObjManifest) (maxChunkSize ofs last : Nat) :
    Option (Option (List Read)) :=
  Loop.run (iterateTurn m maxChunkSize last) fuel ⟨m.objFind ofs, ofs, last + 1 - ofs, []⟩

end PutProcessor

end RadosGateway
