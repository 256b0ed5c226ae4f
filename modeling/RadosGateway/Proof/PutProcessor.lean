import RadosGateway.Proof.IterateObj

/-!
# Objects in stripes, written and read

The processor writes the body in pieces that end where a stripe does, and a range is read from where
its bytes were written. The exception is the last piece: it may be more than the rest of a stripe,
and all of it is written there. -/

namespace RadosGateway.PutProcessor

variable {m : ObjManifest} {a b k : Nat}

open Text Manifest Pieces AtomicProcessor List

section Writer

variable {head : Location} {objPrefix : Bytes} {chunk stripe : Nat}

theorem Striped.updateIterators (h : Striped head objPrefix chunk stripe m) :
    Striped head objPrefix chunk stripe m.updateIterators :=
  { h with }

theorem Striped.sized_updateIterators (h : Striped head objPrefix chunk stripe m)
    (hhead : m.headSize = min chunk m.objSize) : Sized chunk m.objSize m.updateIterators :=
  ⟨hhead, rfl, ofs_seek h.explicitObjs _ _⟩

def tailRule (chunk stripe : Nat) : Rule := ⟨0, chunk, 0, stripe, []⟩

structure NextPart (head : Location) (objPrefix : Bytes) (chunk stripe ofs : Nat) (g : Generator)
    (m : ObjManifest) :
    Prop where
  striped : Striped head objPrefix chunk stripe m
  sized : Sized chunk ofs m
  rule : g.rule = tailRule chunk stripe
  curPartId : g.curPartId = 0
  lastOfs : g.lastOfs = ofs
  curStripeSize : chunk ≤ ofs → g.curStripeSize = stripe
  curObj : chunk ≤ ofs → g.curObj = partLocation objPrefix 0 ((ofs - chunk) / stripe + 1)

theorem headSize_eq (m : ObjManifest) (ofs : Nat) :
    (if (if ofs ≤ m.maxHeadSize then { m with headSize := ofs } else m).maxHeadSize ≤ ofs then
        { (if ofs ≤ m.maxHeadSize then { m with headSize := ofs } else m) with
          headSize := (if ofs ≤ m.maxHeadSize then { m with headSize := ofs } else m).maxHeadSize }
      else if ofs ≤ m.maxHeadSize then { m with headSize := ofs } else m)
      = { m with headSize := min m.maxHeadSize ofs } := by
  by_cases hle : ofs ≤ m.maxHeadSize
  · dsimp only
    split_ifs with hge
    · rw [Nat.min_eq_left hge]
    · rw [Nat.min_eq_right hle]
  · rw [if_neg hle, if_pos (Nat.le_of_not_le hle), Nat.min_eq_left (Nat.le_of_not_le hle)]

/-- The generator opens the next stripe. -/
theorem createNext_spec {g : Generator} (hchunk : 0 < chunk)
    (hm : Striped head objPrefix chunk stripe m) (hrule : g.rule = tailRule chunk stripe)
    (hpart : g.curPartId = 0)
    {ofs : Nat} (hle : g.lastOfs ≤ ofs) :
    ∃ g' m', g.createNext m ofs = .ok (g', m') ∧
    NextPart head objPrefix chunk stripe ofs g' m' := by
  obtain rfl := hm.maxHeadSize
  have hm' : Striped head objPrefix m.maxHeadSize stripe
      (ObjManifest.setObjSize { m with headSize := min m.maxHeadSize ofs } ofs) :=
    Striped.updateIterators ⟨hm.explicitObjs, hm.headObj, hm.objPrefix, rfl, hm.rules⟩
  rw [Generator.createNext, if_neg (Nat.not_lt.mpr hle)]
  dsimp only
  rw [headSize_eq m ofs]
  by_cases hge : m.maxHeadSize ≤ ofs
  · rw [if_pos hge]
    rw [if_pos ⟨hpart, hchunk⟩, hrule]
    refine ⟨_, _, rfl, hm'.updateIterators, hm'.sized_updateIterators rfl, rfl, hpart, rfl, fun _ =>
      rfl, fun _ => ?_⟩
    rw [ObjManifest.getImplicitLocation, if_pos hpart, hm'.maxHeadSize, if_neg (Nat.not_lt.mpr hge),
      hm'.objPrefix]
    rfl
  · rw [if_neg hge]
    exact ⟨_, _, rfl, hm'.updateIterators, hm'.sized_updateIterators rfl, hrule, hpart, rfl,
      fun h => absurd h hge,
      fun h => absurd h hge⟩

structure Prepared (head : Location) (objPrefix : Bytes) (chunk stripe : Nat)
    (p : AtomicProcessor) : Prop where
  maxChunkSize : p.maxChunkSize = chunk
  headObj : p.headObj = head
  striped : Striped head objPrefix chunk stripe p.manifest
  rule : p.manifestGen.rule = tailRule chunk stripe
  curPartId : p.manifestGen.curPartId = 0

theorem prepareNextPart_spec {p : AtomicProcessor} (hchunk : 0 < chunk)
    (h : Prepared head objPrefix chunk stripe p) (ofs : Nat) (hle : p.manifestGen.lastOfs ≤ ofs) :
    ∃ g m, NextPart head objPrefix chunk stripe ofs g m ∧ p.prepareNextPart ofs = .ok
        { p with
          manifestGen := g,
          manifest := m,
          curPartOfs := ofs,
          nextPartOfs := ofs + g.curStripeSize,
          curObj := g.curObj } := by
  obtain ⟨g, m, hnext, hspec⟩ := createNext_spec hchunk h.striped h.rule h.curPartId hle
  refine ⟨g, m, hspec, ?_⟩
  rw [prepareNextPart, hnext]
  rfl

structure Fresh (head : Location) (objPrefix : Bytes) (chunk stripe : Nat) (body : Bytes)
    (taken : Nat)
    (p : AtomicProcessor) : Prop where
  prepared : Prepared head objPrefix chunk stripe p
  lastOfs : p.manifestGen.lastOfs = 0
  sized : Sized chunk 0 p.manifest
  curPartOfs : p.curPartOfs = 0
  nextPartOfs : p.nextPartOfs = stripe
  dataOfs : p.dataOfs = 0
  pendingData : p.pendingData = between body 0 taken
  hash : p.hash = []
  written : p.written = []
  taken_le : taken ≤ body.length

structure Write.Placed (head : Location) (objPrefix : Bytes) (chunk stripe : Nat) (body : Bytes)
    (w : Write) :
    Prop where
  data : w.data = between body w.absOfs (w.absOfs + w.data.length)
  place_eq : ∀ i < w.data.length, place head objPrefix chunk stripe (w.absOfs + i) =
    (w.obj, w.ofs + i)

def Write.Covers (w : Write) (o : Nat) : Prop := w.absOfs ≤ o ∧ o < w.absOfs + w.data.length

structure Writes (head : Location) (objPrefix : Bytes) (chunk stripe : Nat) (body : Bytes)
    (a b : Nat)
    (ws : List Write) : Prop where
  placed : ∀ w ∈ ws, w.Placed head objPrefix chunk stripe body
  le : ∀ w ∈ ws, w.absOfs + w.data.length ≤ b
  covers : ∀ o, a ≤ o → o < b → ∃ w ∈ ws, w.Covers o

structure AtStripe (head : Location) (objPrefix : Bytes) (chunk stripe : Nat) (body : Bytes)
    (taken j : Nat)
    (p : AtomicProcessor) : Prop where
  prepared : Prepared head objPrefix chunk stripe p
  lastOfs : p.manifestGen.lastOfs = chunk + j * stripe
  sized : Sized chunk (chunk + j * stripe) p.manifest
  curObj : p.curObj = partLocation objPrefix 0 (j + 1)
  curPartOfs : p.curPartOfs = chunk + j * stripe
  nextPartOfs : p.nextPartOfs = chunk + j * stripe + stripe
  le_dataOfs : chunk + j * stripe ≤ p.dataOfs
  dataOfs_le : p.dataOfs ≤ chunk + j * stripe + stripe
  cut : chunk ∣ p.dataOfs - (chunk + j * stripe) ∨ p.dataOfs = chunk + j * stripe + stripe
  dataOfs_le_taken : p.dataOfs ≤ taken
  pendingData : p.pendingData = between body p.dataOfs taken
  objLen : p.objLen = p.dataOfs
  firstChunk : p.firstChunk = between body 0 chunk
  hash : p.hash = between body 0 p.dataOfs
  written : Writes head objPrefix chunk stripe body chunk p.dataOfs p.written
  taken_le : taken ≤ body.length

variable {body : Bytes} {taken j : Nat} {p : AtomicProcessor}

/-- One more piece, where the last one ended. -/
theorem Writes.append {ws : List Write} (h : Writes head objPrefix chunk stripe body a b ws)
    {w : Write}
    (hofs : w.absOfs = b) (hw : w.Placed head objPrefix chunk stripe body) :
    Writes head objPrefix chunk stripe body a (b + w.data.length) (ws ++ [w]) := by
  constructor
  · intro v hv
    cases mem_append.mp hv with
    | inl hv => exact h.placed v hv
    | inr hv =>
      rw [mem_singleton.mp hv]
      exact hw
  · intro v hv
    cases mem_append.mp hv with
    | inl hv => exact (h.le v hv).trans (Nat.le_add_right _ _)
    | inr hv => rw [mem_singleton.mp hv, hofs]
  · intro o ho hlt
    by_cases hob : o < b
    · obtain ⟨v, hv, hcovers⟩ := h.covers o ho hob
      exact ⟨v, mem_append_left _ hv, hcovers⟩
    · refine ⟨w, mem_append_right _ (mem_singleton_self w), ?_⟩
      rw [Write.Covers, hofs]
      exact ⟨Nat.not_lt.mp hob, hlt⟩

theorem placed_stripe (hle : chunk + j * stripe ≤ a) (hab : a ≤ b)
    (hfit : b ≤ chunk + j * stripe + stripe)
    (hb : b ≤ body.length) :
    Write.Placed head objPrefix chunk stripe body
      ⟨partLocation objPrefix 0 (j + 1), a - (chunk + j * stripe), a, between body a b⟩ := by
  have hlen : (between body a b).length = b - a := by rw [length_between, Nat.min_eq_left hb]
  constructor
  · dsimp only
    rw [hlen, Nat.add_sub_cancel' hab]
  · dsimp only
    intro i hi
    have hofs : a + i = chunk + j * stripe + (a - (chunk + j * stripe) + i) := by omega
    rw [hofs, place_stripe (by omega)]

def room (p : AtomicProcessor) : Nat := min p.maxChunkSize (p.nextPartOfs - p.dataOfs)

def feed (p : AtomicProcessor) (bl : Bytes) : AtomicProcessor :=
  { p with pendingData := p.pendingData ++ bl }

theorem feed_nil (p : AtomicProcessor) : feed p [] = p := by
  rw [feed, append_nil]

theorem handleData_feed (p : AtomicProcessor) (bl : Bytes) :
    p.handleData bl = (feed p bl).handleData [] := by
  rw [handleData, handleData, feed]
  rw [append_nil]

theorem handleData_wait (h : p.pendingData.length < room p) : p.handleData [] = .ok (p, false) := by
  rw [room] at h
  rw [handleData]
  rw [append_nil, if_pos h]

/-- The first chunk goes to the head, and the next part is prepared. -/
theorem handleData_first (hmax : p.maxChunkSize = chunk) (h : room p ≤ p.pendingData.length)
    (hofs : p.dataOfs = 0) :
    p.handleData [] = (prepareNextPart
        { p with
          pendingData := p.pendingData.drop (room p),
          firstChunk := p.pendingData.take (room p),
          objLen := (p.pendingData.take (room p)).length,
          hash := p.hash ++ p.pendingData.take (room p) }
        (p.pendingData.take (room p)).length).map
      fun q => ({ q with dataOfs := q.objLen },
        decide (chunk ≤ (p.pendingData.drop (room p)).length)) := by
  obtain rfl := hmax
  rw [room] at h ⊢
  rw [handleData]
  rw [append_nil, if_neg (Nat.not_lt.mpr h), if_pos hofs]

theorem handleData_write (hmax : p.maxChunkSize = chunk) (h : room p ≤ p.pendingData.length)
    (hofs : p.dataOfs ≠ 0) :
    p.handleData [] = (writeData
        { p with
          pendingData := p.pendingData.drop (room p),
          dataOfs := p.dataOfs + (p.pendingData.take (room p)).length }
        (p.pendingData.take (room p)) p.dataOfs).map
      fun q => ({ q with hash := q.hash ++ p.pendingData.take (room p) },
        decide (chunk ≤ (p.pendingData.drop (room p)).length)) := by
  obtain rfl := hmax
  rw [room] at h ⊢
  rw [handleData]
  rw [append_nil, if_neg (Nat.not_lt.mpr h), if_neg hofs]

/-- The first chunk is kept for the head. -/
theorem Fresh.turn (hchunk : 0 < chunk) (hstripe : chunk ≤ stripe)
    (h : Fresh head objPrefix chunk stripe body taken p) (hle : chunk ≤ taken) :
    ∃ q, p.handleData [] = .ok (q, decide (chunk ≤ taken - q.dataOfs))
      ∧ AtStripe head objPrefix chunk stripe body taken 0 q ∧ q.dataOfs = chunk := by
  have hroom : room p = chunk := by
    rw [room, h.prepared.maxChunkSize, h.nextPartOfs, h.dataOfs, Nat.sub_zero,
      Nat.min_eq_left hstripe]
  have hlen : p.pendingData.length = taken := by
    rw [h.pendingData, length_between, Nat.min_eq_left h.taken_le, Nat.sub_zero]
  have htake : p.pendingData.take chunk = between body 0 chunk := by
    rw [h.pendingData, take_between _ (by omega), zero_add]
  have hdrop : p.pendingData.drop chunk = between body chunk taken := by
    rw [h.pendingData, drop_between, zero_add]
  have hfirst : (between body 0 chunk).length = chunk := by
    rw [length_between, Nat.min_eq_left (hle.trans h.taken_le), Nat.sub_zero]
  have hrest : (between body chunk taken).length = taken - chunk := by
    rw [length_between, Nat.min_eq_left h.taken_le]
  rw [handleData_first h.prepared.maxChunkSize (by omega) h.dataOfs, hroom, htake, hdrop, hfirst,
    hrest, h.hash,
    nil_append]
  have hprepared : Prepared head objPrefix chunk stripe
      { p with
        pendingData := between body chunk taken,
        firstChunk := between body 0 chunk,
        objLen := chunk,
        hash := between body 0 chunk } :=
    { h.prepared with }
  obtain ⟨g, m, hnext, heq⟩ :=
    prepareNextPart_spec hchunk hprepared chunk (h.lastOfs ▸ Nat.zero_le chunk)
  have hstart : chunk + 0 * stripe = chunk := by rw [zero_mul, add_zero]
  rw [heq]
  refine ⟨_, rfl, ?_, rfl⟩
  constructor
  · exact ⟨h.prepared.maxChunkSize, h.prepared.headObj, hnext.striped, hnext.rule, hnext.curPartId⟩
  · rw [hstart]
    exact hnext.lastOfs
  · rw [hstart]
    exact hnext.sized
  · rw [hnext.curObj (Nat.le_refl chunk), Nat.sub_self, Nat.zero_div]
  · rw [hstart]
  · rw [hstart]
    rw [hnext.curStripeSize (Nat.le_refl chunk)]
  · exact hstart.le
  · rw [hstart]
    exact Nat.le_add_right chunk stripe
  · left
    rw [hstart]
    rw [Nat.sub_self]
    exact Nat.dvd_zero chunk
  · exact hle
  · rfl
  · rfl
  · rfl
  · rfl
  · rw [h.written]
    exact ⟨forall_mem_nil _, forall_mem_nil _, fun o ho hlt => absurd hlt (Nat.not_lt.mpr ho)⟩
  · exact h.taken_le

section

variable (h : AtStripe head objPrefix chunk stripe body taken j p)
include h

theorem AtStripe.length_pendingData : p.pendingData.length = taken - p.dataOfs := by
  rw [h.pendingData, length_between, Nat.min_eq_left h.taken_le]

theorem AtStripe.room_eq : room p = min chunk (chunk + j * stripe + stripe - p.dataOfs) := by
  rw [room, h.prepared.maxChunkSize, h.nextPartOfs]

theorem AtStripe.cut_next (hlt : p.dataOfs < chunk + j * stripe + stripe) :
    chunk ∣ p.dataOfs + room p - (chunk + j * stripe) ∨
    p.dataOfs + room p = chunk + j * stripe + stripe := by
  have hdvd : chunk ∣ p.dataOfs - (chunk + j * stripe) := h.cut.resolve_right (Nat.ne_of_lt hlt)
  have hge := h.le_dataOfs
  rw [h.room_eq]
  by_cases hle : chunk ≤ chunk + j * stripe + stripe - p.dataOfs
  · left
    rw [Nat.min_eq_left hle, Nat.sub_add_comm hge]
    exact Nat.dvd_add hdvd (Nat.dvd_refl chunk)
  · omega

/-- A piece inside of a stripe. -/
theorem AtStripe.turn_write (hchunk : 0 < chunk)
    (hlt : p.dataOfs < chunk + j * stripe + stripe) (hle : room p ≤ taken - p.dataOfs) :
    ∃ q, p.handleData [] = .ok (q, decide (chunk ≤ taken - q.dataOfs))
      ∧ AtStripe head objPrefix chunk stripe body taken j q ∧ q.dataOfs = p.dataOfs + room p := by
  have hge := h.le_dataOfs
  have htaken := h.dataOfs_le_taken
  have hend : p.dataOfs + room p ≤ taken := by omega
  have hfit : p.dataOfs + room p ≤ chunk + j * stripe + stripe := by
    rw [h.room_eq]
    omega
  have hbody : p.dataOfs + room p ≤ body.length := hend.trans h.taken_le
  have htake : p.pendingData.take (room p) = between body p.dataOfs (p.dataOfs + room p) := by
    rw [h.pendingData, take_between _ hend]
  have hdrop : p.pendingData.drop (room p) = between body (p.dataOfs + room p) taken := by
    rw [h.pendingData, drop_between]
  have hpiece : (between body p.dataOfs (p.dataOfs + room p)).length = room p := by
    rw [length_between, Nat.min_eq_left hbody, Nat.add_sub_cancel_left]
  have hrest : (between body (p.dataOfs + room p) taken).length = taken - (p.dataOfs + room p) := by
    rw [length_between, Nat.min_eq_left h.taken_le]
  rw [handleData_write h.prepared.maxChunkSize (h.length_pendingData ▸ hle) (by omega), htake,
    hdrop, hpiece, hrest,
    writeData, if_neg (by dsimp only; rw [h.nextPartOfs]; omega)]
  refine ⟨_, rfl, ?_, rfl⟩
  dsimp only [handleObjData]
  constructor
  · exact { h.prepared with }
  · exact h.lastOfs
  · exact h.sized
  · exact h.curObj
  · exact h.curPartOfs
  · exact h.nextPartOfs
  · exact hge.trans (Nat.le_add_right _ _)
  · exact hfit
  · exact h.cut_next hlt
  · exact hend
  · rfl
  · rw [hpiece, h.objLen, Nat.max_eq_right (Nat.le_add_right _ _)]
  · exact h.firstChunk
  · rw [h.hash, between_append _ (Nat.zero_le _) (Nat.le_add_right _ _)]
  · have hw := h.written.append (w := ⟨p.curObj, p.dataOfs - p.curPartOfs, p.dataOfs, _⟩) rfl
      (by rw [h.curObj, h.curPartOfs]; exact placed_stripe hge (Nat.le_add_right _ _) hfit hbody)
    rw [hpiece] at hw
    exact hw
  · exact h.taken_le

/-- A full stripe is followed by the next one. -/
theorem AtStripe.turn_next (hchunk : 0 < chunk) (hpos : 0 < stripe)
    (heq : p.dataOfs = chunk + j * stripe + stripe) :
    ∃ q, p.handleData [] = .ok (q, decide (chunk ≤ taken - q.dataOfs))
      ∧ AtStripe head objPrefix chunk stripe body taken (j + 1) q ∧ q.dataOfs = p.dataOfs := by
  have hroom : room p = 0 := by
    rw [h.room_eq, heq, Nat.sub_self, Nat.min_zero]
  have hstart : p.dataOfs = chunk + (j + 1) * stripe := by
    rw [heq, Nat.succ_mul, add_assoc]
  rw [handleData_write h.prepared.maxChunkSize (hroom ▸ Nat.zero_le _) (by omega), hroom, take_zero,
    drop_zero,
    h.length_pendingData, writeData, if_pos (by dsimp only; rw [h.nextPartOfs, heq])]
  have hprepared : Prepared head objPrefix chunk stripe
      { p with
        dataOfs := p.dataOfs + ([] : Bytes).length } :=
    { h.prepared with }
  have hlast : p.manifestGen.lastOfs ≤ p.dataOfs := by
    rw [h.lastOfs]
    exact h.le_dataOfs
  obtain ⟨g, m, hnext, hpart⟩ := prepareNextPart_spec hchunk hprepared p.dataOfs hlast
  have hge : chunk ≤ p.dataOfs := by omega
  rw [hpart]
  refine ⟨_, rfl, ?_, rfl⟩
  dsimp only [handleObjData]
  constructor
  · exact ⟨h.prepared.maxChunkSize, h.prepared.headObj, hnext.striped, hnext.rule, hnext.curPartId⟩
  · exact hnext.lastOfs.trans hstart
  · exact hstart ▸ hnext.sized
  · rw [hnext.curObj hge, hstart, Nat.add_sub_cancel_left, Nat.mul_div_cancel _ hpos]
  · exact hstart
  · rw [hnext.curStripeSize hge, hstart]
  · exact hstart.ge
  · exact hstart.le.trans (Nat.le_add_right _ _)
  · left
    dsimp only
    rw [hstart, length_nil, add_zero, Nat.sub_self]
    exact Nat.dvd_zero chunk
  · exact h.dataOfs_le_taken
  · exact h.pendingData
  · rw [h.objLen, Nat.max_eq_right (Nat.le_add_right _ _)]
  · exact h.firstChunk
  · rw [append_nil]
    exact h.hash
  · have hplaced : Write.Placed head objPrefix chunk stripe body ⟨g.curObj, p.dataOfs - p.dataOfs,
        p.dataOfs, []⟩ := by
      constructor
      · exact (eq_nil_of_length_eq_zero
          (by rw [length_between]; dsimp only [length_nil]; omega)).symm
      · exact fun i hi => absurd hi (Nat.not_lt_zero i)
    exact h.written.append rfl hplaced
  · exact h.taken_le

end

def Holds (head : Location) (objPrefix : Bytes) (chunk stripe : Nat) (body : Bytes) (taken : Nat)
    (p : AtomicProcessor) : Prop :=
  Fresh head objPrefix chunk stripe body taken p ∨ ∃ j,
    AtStripe head objPrefix chunk stripe body taken j p

section

variable (h : Holds head objPrefix chunk stripe body taken p)
include h

theorem Holds.prepared : Prepared head objPrefix chunk stripe p := by
  cases h with
  | inl h => exact h.prepared
  | inr h => exact h.choose_spec.prepared

theorem Holds.dataOfs_le : p.dataOfs ≤ taken := by
  cases h with
  | inl h => exact h.dataOfs ▸ Nat.zero_le taken
  | inr h => exact h.choose_spec.dataOfs_le_taken

theorem Holds.length_pendingData : p.pendingData.length = taken - p.dataOfs := by
  cases h with
  | inl h => rw [h.pendingData, length_between, Nat.min_eq_left h.taken_le, h.dataOfs]
  | inr h => exact h.choose_spec.length_pendingData

theorem Holds.room_le : room p ≤ chunk := h.prepared.maxChunkSize ▸ Nat.min_le_left _ _

theorem Holds.feed (hk : taken + k ≤ body.length) :
    Holds head objPrefix chunk stripe body (taken + k)
    (feed p (between body taken (taken + k))) := by
  cases h with
  | inl h =>
    left
    exact { h with
      prepared := { h.prepared with }
      taken_le := hk
      pendingData := by
        rw [PutProcessor.feed, h.pendingData]
        exact between_append _ (Nat.zero_le _) (Nat.le_add_right _ _) }
  | inr h =>
    obtain ⟨j, h⟩ := h
    right
    exact ⟨j, { h with
      prepared := { h.prepared with }
      dataOfs_le_taken := h.dataOfs_le_taken.trans (Nat.le_add_right _ _)
      taken_le := hk
      pendingData := by
        rw [PutProcessor.feed, h.pendingData]
        exact between_append _ h.dataOfs_le_taken (Nat.le_add_right _ _) }⟩

end

def lastCut (chunk stripe j : Nat) : Nat := chunk + j * stripe + (stripe - stripe % chunk)

section

variable (hchunk : 0 < chunk) (hstripe : chunk ≤ stripe)
  (h : Holds head objPrefix chunk stripe body taken p)
include hchunk hstripe h

theorem Holds.cut {i : Nat} (hlt : p.dataOfs < lastCut chunk stripe i) :
    p.dataOfs + chunk ≤ lastCut chunk stripe i := by
  have hmod := Nat.mod_lt stripe hchunk
  have hdvd : chunk ∣ stripe - stripe % chunk := Nat.dvd_sub_mod stripe
  have hchunk_le : chunk ≤ stripe - stripe % chunk := Nat.le_of_dvd (by omega) hdvd
  rw [lastCut] at hlt ⊢
  cases h with
  | inl h =>
    rw [h.dataOfs]
    omega
  | inr h =>
    obtain ⟨j, h⟩ := h
    have hge := h.le_dataOfs
    have hle := h.dataOfs_le
    obtain hij | rfl | hij := Nat.lt_trichotomy i j
    · have hmul : (i + 1) * stripe ≤ j * stripe := Nat.mul_le_mul_right stripe hij
      rw [Nat.succ_mul] at hmul
      omega
    · by_cases hend : p.dataOfs = chunk + i * stripe + stripe
      · omega
      · have hdata := h.cut.resolve_right hend
        have hdiff := Nat.dvd_sub hdvd hdata
        have := Nat.le_of_dvd (by omega) hdiff
        omega
    · have hmul : (j + 1) * stripe ≤ i * stripe := Nat.mul_le_mul_right stripe hij
      rw [Nat.succ_mul] at hmul
      omega

/-- A turn waits for more bytes, or writes a piece at its place. -/
theorem Holds.turn : (taken - p.dataOfs < room p ∧ p.handleData [] = .ok (p, false)) ∨
      room p ≤ taken - p.dataOfs ∧ ∃ q,
        p.handleData [] = .ok (q, decide (chunk ≤ taken - q.dataOfs))
        ∧ Holds head objPrefix chunk stripe body taken q ∧ q.dataOfs = p.dataOfs + room p
        ∧ (room p = 0 → p.nextPartOfs ≤ p.dataOfs ∧ q.dataOfs < q.nextPartOfs) := by
  by_cases hwait : taken - p.dataOfs < room p
  · left
    exact ⟨hwait, handleData_wait (h.length_pendingData ▸ hwait)⟩
  · right
    have hle := Nat.not_lt.mp hwait
    refine ⟨hle, ?_⟩
    cases h with
    | inl h =>
      have hroom : room p = chunk := by
        rw [room, h.prepared.maxChunkSize, h.nextPartOfs, h.dataOfs, Nat.sub_zero,
          Nat.min_eq_left hstripe]
      rw [hroom, h.dataOfs, Nat.sub_zero] at hle
      obtain ⟨q, hq, hat, hofs⟩ := h.turn hchunk hstripe hle
      refine ⟨q, hq, Or.inr ⟨0, hat⟩, ?_, fun h0 => ?_⟩
      · rw [hofs, h.dataOfs, hroom, zero_add]
      · omega
    | inr h =>
      obtain ⟨j, h⟩ := h
      have hroom := h.room_eq
      by_cases hlt : p.dataOfs < chunk + j * stripe + stripe
      · obtain ⟨q, hq, hat, hofs⟩ := h.turn_write hchunk hlt hle
        refine ⟨q, hq, Or.inr ⟨j, hat⟩, hofs, fun h0 => ?_⟩
        omega
      · have heq := Nat.le_antisymm h.dataOfs_le (Nat.not_lt.mp hlt)
        obtain ⟨q, hq, hat, hofs⟩ := h.turn_next hchunk (hchunk.trans_le hstripe) heq
        have hnext := hat.nextPartOfs
        have hsucc : (j + 1) * stripe = j * stripe + stripe := Nat.succ_mul j stripe
        refine ⟨q, hq, Or.inr ⟨j + 1, hat⟩, by omega, fun _ => ⟨?_, by omega⟩⟩
        rw [h.nextPartOfs, heq]

end

/-- What a call of `put_data_and_throttle` leaves: less than a chunk is pending. It goes at least as
far as its first turn, and not beyond where less than a chunk is left. -/
structure Called (head : Location) (objPrefix : Bytes) (chunk stripe : Nat) (body : Bytes)
    (taken : Nat)
    (p q : AtomicProcessor) : Prop where
  holds : Holds head objPrefix chunk stripe body taken q
  rest : taken < q.dataOfs + chunk
  le : p.dataOfs ≤ q.dataOfs
  progress : room p ≤ taken - p.dataOfs → p.dataOfs + room p ≤ q.dataOfs
  stop : ∀ i, p.dataOfs < lastCut chunk stripe i → taken < lastCut chunk stripe i + chunk →
    q.dataOfs ≤ lastCut chunk stripe i

structure Calling (head : Location) (objPrefix : Bytes) (chunk stripe : Nat) (body : Bytes)
    (taken : Nat)
    (p : AtomicProcessor) (s : AtomicProcessor × Bytes) : Prop where
  holds : Holds head objPrefix chunk stripe body taken (feed s.1 s.2)
  moved : feed s.1 s.2 = p ∨ p.dataOfs + room p ≤ s.1.dataOfs
  le : p.dataOfs ≤ s.1.dataOfs
  stop : ∀ i, p.dataOfs < lastCut chunk stripe i → taken < lastCut chunk stripe i + chunk →
    s.1.dataOfs < lastCut chunk stripe i

/-- The loop over one call ends and keeps its place. -/
theorem keeps_putTurn (hchunk : 0 < chunk) (hstripe : chunk ≤ stripe) (p : AtomicProcessor) :
    Loop.Keeps putTurn (Calling head objPrefix chunk stripe body taken p)
      (fun result => ∃ q, result = .ok q ∧ Called head objPrefix chunk stripe body taken p q)
      (fun s => 2 * (taken - s.1.dataOfs) + if s.1.dataOfs < s.1.nextPartOfs then 0 else 1) := by
  rintro ⟨s, bl⟩ h
  have hroom := h.holds.room_le
  rw [putTurn, handleData_feed]
  cases h.holds.turn hchunk hstripe with
  | inl hwait =>
    right
    rw [hwait.2]
    refine ⟨_, rfl, _, rfl, h.holds, ?_, h.le, fun hle => ?_, fun i hi htaken =>
      (h.stop i hi htaken).le⟩
    · omega
    · refine h.moved.resolve_left fun heq => ?_
      rw [heq] at hwait
      exact absurd hle (Nat.not_le.mpr hwait.1)
  | inr hwrite =>
    obtain ⟨hle, q, hq, hholds, hofs, hnext⟩ := hwrite
    have hmono : s.dataOfs ≤ q.dataOfs := hofs ▸ Nat.le_add_right _ _
    have hp : p.dataOfs ≤ q.dataOfs := h.le.trans hmono
    have hmoved : p.dataOfs + room p ≤ q.dataOfs := by
      cases h.moved with
      | inl heq => rw [hofs, heq]
      | inr hge => exact hge.trans hmono
    rw [hq]
    by_cases hagain : chunk ≤ taken - q.dataOfs
    · left
      rw [decide_eq_true hagain]
      refine ⟨_, rfl, ⟨(feed_nil q).symm ▸ hholds, Or.inr hmoved, hp, fun i _ htaken => ?_⟩, ?_⟩
      · dsimp only
        omega
      · change q.dataOfs = s.dataOfs + room (feed s bl) at hofs
        dsimp only
        by_cases h0 : room (feed s bl) = 0
        · obtain ⟨hend, hlt⟩ := hnext h0
          change s.nextPartOfs ≤ s.dataOfs at hend
          rw [if_pos hlt, if_neg (Nat.not_lt.mpr hend), hofs, h0]
          exact Nat.lt_succ_self _
        · split_ifs <;> omega
    · right
      rw [decide_eq_false hagain]
      refine ⟨_, rfl, _, rfl, hholds, by omega, hp, fun _ => hmoved, fun i hi htaken => ?_⟩
      have hcut := h.holds.cut hchunk hstripe (h.stop i hi htaken)
      omega

theorem gives_putData (hchunk : 0 < chunk) (hstripe : chunk ≤ stripe)
    (h : Holds head objPrefix chunk stripe body taken p) (hk : taken + k ≤ body.length) {bl : Bytes}
    (hbl : bl = between body taken (taken + k)) :
    ∃ q, Loop.Gives (fun fuel => (putData fuel p bl).run) (.ok q)
      ∧ Called head objPrefix chunk stripe body (taken + k) (feed p bl) q := by
  have hstart : Calling head objPrefix chunk stripe body (taken + k) (feed p bl) (p, bl) :=
    ⟨hbl ▸ h.feed hk, Or.inl rfl, Nat.le_refl _, fun i hi _ => hi⟩
  obtain ⟨result, hgives, q, rfl, hq⟩ :=
    (keeps_putTurn hchunk hstripe (feed p bl)).exists_gives hstart
  exact ⟨q, hgives, hq⟩

end Writer

end RadosGateway.PutProcessor
