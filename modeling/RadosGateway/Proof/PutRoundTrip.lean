import RadosGateway.Proof.PutProcessor

/-!
# The end of an object

When the body is complete, what is pending is written with one more piece, and the manifest gets its
size. The object can be read if the piece fits in the stripe. It is too large for it only if the
last call brought the position to the last cut of a stripe, with more behind it than the stripe has
room for. -/

namespace RadosGateway.PutProcessor

open Text Manifest Pieces AtomicProcessor
open List hiding Chain

def stripePrefix (rand : Bytes) : Bytes := ascii "." ++ rand ++ ascii "_"

section Calls

variable {head : Location} {objPrefix : Bytes} {chunk stripe : Nat} {body : Bytes}
  {p q : AtomicProcessor}

theorem prepare_spec (chunk stripe : Nat) (head : Location) (rand body : Bytes) :
    ∃ p, prepare chunk stripe head rand = .ok p ∧
    Fresh head (stripePrefix rand) chunk stripe body 0 p := by
  have hm : Striped head (stripePrefix rand) chunk stripe
      { ({} : ObjManifest).setTrivialRule chunk
        stripe with headObj := head, objPrefix := stripePrefix rand } :=
    ⟨rfl, rfl, rfl, rfl, rfl⟩
  refine ⟨_, rfl, ⟨rfl, rfl, hm.updateIterators, rfl, rfl⟩, rfl, hm.sized_updateIterators ?_, rfl,
    rfl, rfl, ?_, rfl, rfl,
    Nat.zero_le _⟩
  · exact (Nat.min_zero chunk).symm
  · exact (eq_nil_of_length_eq_zero (by rw [length_between, Nat.zero_min])).symm

theorem between_flatten (l rest bl : Bytes) :
    between (l ++ bl ++ rest) l.length (l.length + bl.length) = bl := by
  rw [between, append_assoc, take_length_add_append, drop_left, take_left]

structure Rests (head : Location) (objPrefix : Bytes) (chunk stripe : Nat) (body : Bytes)
    (taken : Nat)
    (p : AtomicProcessor) : Prop where
  holds : Holds head objPrefix chunk stripe body taken p
  rest : taken < p.dataOfs + chunk

/-- One call takes its bytes. -/
theorem gives_call (hchunk : 0 < chunk) (hstripe : chunk ≤ stripe) {calls : List Bytes}
    {bl rest : Bytes}
    (hbody : body = calls.flatten ++ bl ++ rest)
    (hcalls : Loop.Gives (fun fuel => (calls.foldlM (putData fuel) p).run) (.ok q))
    (hq : Rests head objPrefix chunk stripe body calls.flatten.length q) :
    ∃ r, Loop.Gives (fun fuel => ((calls ++ [bl]).foldlM (putData fuel) p).run) (.ok r)
      ∧ Called head objPrefix chunk stripe body (calls ++ [bl]).flatten.length (feed q bl) r := by
  have hflatten : (calls ++ [bl]).flatten.length = calls.flatten.length + bl.length := by
    rw [flatten_append, flatten_singleton, length_append]
  have hle : calls.flatten.length + bl.length ≤ body.length := by
    rw [hbody, length_append, length_append]
    exact Nat.le_add_right _ _
  obtain ⟨r, hr, hcalled⟩ := gives_putData hchunk hstripe hq.holds hle
    (show bl = _ by rw [hbody, between_flatten])
  refine ⟨r, ?_, hflatten ▸ hcalled⟩
  have hsingle : Loop.Gives (fun fuel => (List.foldlM (putData fuel) q [bl]).run) (.ok r) := by
    simp only [foldlM_cons, foldlM_nil, bind_pure]
    exact hr
  simp only [foldlM_append]
  exact hcalls.bind hsingle

theorem gives_calls (hchunk : 0 < chunk) (hstripe : chunk ≤ stripe)
    (hp : Fresh head objPrefix chunk stripe body 0 p) (calls : List Bytes) (rest : Bytes)
    (hbody : body = calls.flatten ++ rest) :
    ∃ q, Loop.Gives (fun fuel => (calls.foldlM (putData fuel) p).run) (.ok q)
      ∧ Rests head objPrefix chunk stripe body calls.flatten.length q := by
  induction calls using List.reverseRecOn generalizing rest with
  | nil => exact ⟨p, Loop.gives_const _, Or.inl hp, by rw [hp.dataOfs, zero_add]; exact hchunk⟩
  | append_singleton calls bl ih =>
    rw [flatten_append, flatten_singleton] at hbody
    obtain ⟨q, hq, hrests⟩ := ih (bl ++ rest) (by rw [hbody, append_assoc])
    obtain ⟨r, hr, hcalled⟩ := gives_call hchunk hstripe hbody hq hrests
    exact ⟨r, hr, hcalled.holds, hcalled.rest⟩

def Overruns (chunk stripe : Nat) (calls : List Bytes) : Prop :=
  stripe % chunk ≠ 0 ∧ ∃ j, calls.dropLast.flatten.length < lastCut chunk stripe j
    ∧ chunk + j * stripe + stripe < calls.flatten.length
    ∧ calls.flatten.length < lastCut chunk stripe j + chunk

def Overfull (head : Location) (objPrefix : Bytes) (chunk stripe : Nat) (body : Bytes) (size : Nat)
    (p : AtomicProcessor) : Prop :=
  ∃ j, AtStripe head objPrefix chunk stripe body size j p ∧ p.dataOfs < chunk + j * stripe + stripe
    ∧ chunk + j * stripe + stripe < size

theorem AtStripe.index_eq {taken i j : Nat}
    (h : AtStripe head objPrefix chunk stripe body taken i p)
    (hchunk : 0 < chunk) (hstripe : chunk ≤ stripe) (hmod : stripe % chunk ≠ 0)
    (heq : p.dataOfs = lastCut chunk stripe j) : i = j := by
  have hlt := Nat.mod_lt stripe hchunk
  have hge := h.le_dataOfs
  have hle := h.dataOfs_le
  rw [lastCut] at heq
  obtain hij | hij | hij := Nat.lt_trichotomy i j
  · have hmul : (i + 1) * stripe ≤ j * stripe := Nat.mul_le_mul_right stripe hij
    rw [Nat.succ_mul] at hmul
    omega
  · exact hij
  · have hmul : (j + 1) * stripe ≤ i * stripe := Nat.mul_le_mul_right stripe hij
    rw [Nat.succ_mul] at hmul
    omega

theorem Holds.exists_atStripe {taken : Nat} (h : Holds head objPrefix chunk stripe body taken p)
    (hpos : 0 < p.dataOfs) : ∃ j, AtStripe head objPrefix chunk stripe body taken j p :=
  h.resolve_left fun hfresh => Nat.ne_of_gt hpos hfresh.dataOfs

section Last

variable {calls : List Bytes} {bl : Bytes} {size : Nat}

theorem Rests.lastCut_le {taken j : Nat} (hchunk : 0 < chunk) (hstripe : chunk ≤ stripe)
    (h : Rests head objPrefix chunk stripe body taken p) (hle : lastCut chunk stripe j ≤ taken) :
    lastCut chunk stripe j ≤ p.dataOfs := by
  by_contra hlt
  have hcut := h.holds.cut hchunk hstripe (Nat.not_le.mp hlt)
  have hrest := h.rest
  omega

theorem AtStripe.dataOfs_eq {j : Nat} (h : AtStripe head objPrefix chunk stripe body size j p)
    (hchunk : 0 < chunk)
    (hstripe : chunk ≤ stripe) (hrest : size < p.dataOfs + chunk)
    (hlt : p.dataOfs < chunk + j * stripe + stripe)
    (hover : chunk + j * stripe + stripe < size) : p.dataOfs = lastCut chunk stripe j ∧
    stripe % chunk ≠ 0 := by
  have hmod := Nat.mod_lt stripe hchunk
  have hge : lastCut chunk stripe j ≤ p.dataOfs := by
    refine Rests.lastCut_le hchunk hstripe ⟨Or.inr ⟨j, h⟩, hrest⟩ ?_
    rw [lastCut]
    omega
  have hdvd : chunk ∣ p.dataOfs - lastCut chunk stripe j := by
    have hdata := h.cut.resolve_right (Nat.ne_of_lt hlt)
    have hsub :=
      Nat.dvd_sub hdata (show chunk ∣ stripe - stripe % chunk from Nat.dvd_sub_mod stripe)
    rwa [Nat.sub_sub] at hsub
  have hzero := Nat.eq_zero_of_dvd_of_lt hdvd (by rw [lastCut] at hge ⊢; omega)
  rw [lastCut] at hge hzero ⊢
  constructor <;> omega

theorem Called.lt_lastCut {taken j : Nat} (hchunk : 0 < chunk) (hstripe : chunk ≤ stripe)
    (hq : Rests head objPrefix chunk stripe body taken q)
    (hcalled : Called head objPrefix chunk stripe body size (feed q bl) p)
    (hmod : stripe % chunk ≠ 0) (heq : p.dataOfs = lastCut chunk stripe j)
    (hover : chunk + j * stripe + stripe < size) : taken < lastCut chunk stripe j := by
  by_contra hle
  have hge := hq.lastCut_le hchunk hstripe (Nat.not_lt.mp hle)
  have hqeq : q.dataOfs = lastCut chunk stripe j := Nat.le_antisymm (heq ▸ hcalled.le) hge
  have hpos : 0 < q.dataOfs := by
    rw [hqeq, lastCut]
    omega
  obtain ⟨i, hi⟩ := hq.holds.exists_atStripe hpos
  obtain rfl := hi.index_eq hchunk hstripe hmod hqeq
  have hlt := Nat.mod_lt stripe hchunk
  have hroom : room (feed q bl) = stripe % chunk := by
    have := hi.room_eq
    rw [hqeq, lastCut] at this
    change room q = _
    omega
  have hprogress := hcalled.progress
  change _ ≤ size - q.dataOfs → q.dataOfs + _ ≤ p.dataOfs at hprogress
  rw [hqeq, heq, lastCut] at hprogress
  omega

/-- The last piece overruns its stripe by the sizes alone. -/
theorem overfull_iff (hchunk : 0 < chunk) (hstripe : chunk ≤ stripe)
    (hq : Rests head objPrefix chunk stripe body calls.flatten.length q)
    (hcalled : Called head objPrefix chunk stripe body (calls ++
      [bl]).flatten.length (feed q bl) p) :
    Overfull head objPrefix chunk stripe body (calls ++ [bl]).flatten.length p
      ↔ Overruns chunk stripe (calls ++ [bl]) := by
  have hrests : Rests head objPrefix chunk stripe body (calls ++ [bl]).flatten.length p :=
    ⟨hcalled.holds, hcalled.rest⟩
  rw [Overruns, dropLast_concat]
  constructor
  · rintro ⟨j, hj, hlt, hover⟩
    obtain ⟨heq, hmod⟩ := hj.dataOfs_eq hchunk hstripe hcalled.rest hlt hover
    exact ⟨hmod, j, hcalled.lt_lastCut hchunk hstripe hq hmod heq hover, hover, heq ▸ hcalled.rest⟩
  · rintro ⟨hmod, j, hlt, hover, hrest⟩
    have hge : lastCut chunk stripe j ≤ p.dataOfs := by
      refine hrests.lastCut_le hchunk hstripe ?_
      rw [lastCut]
      omega
    have hle : p.dataOfs ≤ lastCut chunk stripe j :=
      hcalled.stop j (hq.holds.dataOfs_le.trans_lt hlt) hrest
    have heq := Nat.le_antisymm hle hge
    obtain ⟨i, hi⟩ := hcalled.holds.exists_atStripe (by rw [heq, lastCut]; omega)
    obtain rfl := hi.index_eq hchunk hstripe hmod heq
    exact ⟨i, hi, by rw [heq, lastCut]; omega, hover⟩

end Last

section Completion

variable {size j : Nat}

structure Ended (head : Location) (objPrefix : Bytes) (chunk stripe : Nat) (p q : AtomicProcessor) :
    Prop where
  striped : Striped head objPrefix chunk stripe q.manifest
  sized : Sized chunk p.objLen q.manifest
  headObj : q.headObj = p.headObj
  firstChunk : q.firstChunk = p.firstChunk
  hash : q.hash = p.hash
  written : q.written = p.written

theorem completeParts_spec (hchunk : 0 < chunk) (h : Prepared head objPrefix chunk stripe p)
    (hle : p.manifestGen.lastOfs ≤ p.objLen)
    (hsized : ¬ p.curPartOfs < p.objLen → Sized chunk p.objLen p.manifest) :
    ∃ q, p.completeParts = .ok q ∧ Ended head objPrefix chunk stripe p q := by
  rw [completeParts]
  by_cases hlt : p.curPartOfs < p.objLen
  · obtain ⟨g, m, hnext, heq⟩ := prepareNextPart_spec hchunk h p.objLen hle
    rw [if_pos hlt, heq]
    exact ⟨_, rfl, hnext.striped, hnext.sized, rfl, rfl, rfl, rfl⟩
  · rw [if_neg hlt]
    exact ⟨p, rfl, h.striped, hsized hlt, rfl, rfl, rfl, rfl⟩

structure RestWritten (head : Location) (objPrefix : Bytes) (chunk stripe : Nat) (body : Bytes)
    (j : Nat)
    (p q : AtomicProcessor) (w : Write) : Prop where
  prepared : Prepared head objPrefix chunk stripe q
  lastOfs : q.manifestGen.lastOfs ≤ body.length
  curPartOfs : q.curPartOfs < body.length
  objLen : q.objLen = body.length
  firstChunk : q.firstChunk = p.firstChunk
  hash : q.hash = p.hash
  written : q.written = p.written ++ [w]
  absOfs : w.absOfs = p.dataOfs
  data : w.data = between body p.dataOfs body.length
  placed : ¬ (p.dataOfs < chunk + j * stripe + stripe ∧ chunk + j * stripe + stripe < body.length) →
    w.Placed head objPrefix chunk stripe body
  obj : p.dataOfs < chunk + j * stripe + stripe →
    w.obj = partLocation objPrefix 0 (j + 1) ∧ w.ofs = p.dataOfs - (chunk + j * stripe)

theorem AtStripe.writeRest (h : AtStripe head objPrefix chunk stripe body body.length j p)
    (hchunk : 0 < chunk)
    (hstripe : chunk ≤ stripe) (hrest : body.length < p.dataOfs + chunk)
    (hlt : p.dataOfs < body.length) :
    ∃ q w, p.completeHash.writeData p.pendingData p.dataOfs = .ok q
      ∧ RestWritten head objPrefix chunk stripe body j p.completeHash q w := by
  have hge := h.le_dataOfs
  have hlen : (between body p.dataOfs body.length).length = body.length - p.dataOfs := by
    rw [length_between, Nat.min_self]
  have hobjLen : max p.objLen (p.dataOfs + (body.length - p.dataOfs)) = body.length := by
    rw [h.objLen]
    omega
  have hprepared : Prepared head objPrefix chunk stripe p.completeHash :=
    { h.prepared with }
  rw [h.pendingData]
  by_cases hin : p.dataOfs < chunk + j * stripe + stripe
  · rw [writeData, if_neg (by change ¬ p.nextPartOfs ≤ _; rw [h.nextPartOfs]; omega)]
    refine ⟨_, ⟨p.curObj, p.dataOfs - p.curPartOfs, p.dataOfs, between body p.dataOfs body.length⟩,
      rfl, ?_⟩
    dsimp only [handleObjData, completeHash]
    constructor
    · exact { h.prepared with }
    · rw [h.lastOfs]
      omega
    · rw [h.curPartOfs]
      omega
    · rw [hlen, hobjLen]
    · rfl
    · rfl
    · rfl
    · rfl
    · rfl
    · intro hfit
      rw [h.curObj, h.curPartOfs]
      exact placed_stripe hge hlt.le (Nat.not_lt.mp fun hover => hfit ⟨hin, hover⟩) (Nat.le_refl _)
    · intro _
      rw [h.curObj, h.curPartOfs]
      exact ⟨rfl, rfl⟩
  · have heq := Nat.le_antisymm h.dataOfs_le (Nat.not_lt.mp hin)
    have hstart : p.dataOfs = chunk + (j + 1) * stripe := by
      rw [heq, Nat.succ_mul, add_assoc]
    have hlast : p.manifestGen.lastOfs ≤ p.dataOfs := h.lastOfs ▸ hge
    obtain ⟨g, m, hnext, hpart⟩ := prepareNextPart_spec hchunk hprepared p.dataOfs hlast
    rw [writeData, if_pos (by change p.nextPartOfs ≤ _; rw [h.nextPartOfs, heq]), hpart]
    refine ⟨_, ⟨g.curObj, p.dataOfs - p.dataOfs, p.dataOfs, between body p.dataOfs body.length⟩,
      rfl, ?_⟩
    dsimp only [handleObjData, completeHash]
    constructor
    · exact ⟨h.prepared.maxChunkSize, h.prepared.headObj, hnext.striped, hnext.rule,
        hnext.curPartId⟩
    · rw [hnext.lastOfs]
      exact hlt.le
    · exact hlt
    · rw [hlen, hobjLen]
    · rfl
    · rfl
    · rfl
    · rfl
    · rfl
    · intro _
      have hobj : g.curObj = partLocation objPrefix 0 (j + 1 + 1) := by
        rw [hnext.curObj (by omega), hstart, Nat.add_sub_cancel_left,
          Nat.mul_div_cancel _ (hchunk.trans_le hstripe)]
      have hplaced : Write.Placed head objPrefix chunk stripe body
          ⟨partLocation objPrefix 0 (j + 1 + 1), p.dataOfs - (chunk + (j + 1) * stripe), p.dataOfs,
            between body p.dataOfs body.length⟩ :=
        placed_stripe hstart.ge hlt.le (by omega) (Nat.le_refl _)
      rw [hobj]
      rw [← hstart] at hplaced
      exact hplaced
    · exact fun hlt' => absurd hlt' hin

structure Done (head : Location) (objPrefix : Bytes) (chunk stripe : Nat) (body : Bytes)
    (q : AtomicProcessor) :
    Prop where
  hash : q.hash = body
  striped : Striped head objPrefix chunk stripe q.manifest
  sized : Sized chunk body.length q.manifest

def Misplaced (head : Location) (objPrefix : Bytes) (chunk stripe : Nat) (body : Bytes)
    (q : AtomicProcessor) : Prop :=
  ∃ o < body.length, ∀ w ∈ q.written, w.Covers o →
    place head objPrefix chunk stripe o ≠ (w.obj, w.ofs + (o - w.absOfs))

theorem placed_head {n : Nat} (hn : n ≤ chunk) (hbody : n ≤ body.length) :
    Write.Placed head objPrefix chunk stripe body ⟨head, 0, 0, between body 0 n⟩ := by
  have hlen : (between body 0 n).length = n := by
    rw [length_between, Nat.min_eq_left hbody, Nat.sub_zero]
  constructor
  · rw [hlen, zero_add]
  · intro i hi
    dsimp only at hi ⊢
    exact place_head (by omega)

theorem Writes.append_head {ws : List Write} {n b : Nat}
    (h : Writes head objPrefix chunk stripe body n b ws)
    (hn : n ≤ chunk) (hnb : n ≤ b) (hb : b ≤ body.length) :
    Writes head objPrefix chunk stripe body 0 b (ws ++ [⟨head, 0, 0, between body 0 n⟩]) := by
  have hlen : (between body 0 n).length = n := by
    rw [length_between, Nat.min_eq_left (hnb.trans hb), Nat.sub_zero]
  have hhead : Write.Placed head objPrefix chunk stripe body ⟨head, 0, 0, between body 0 n⟩ :=
    placed_head hn (hnb.trans hb)
  constructor
  · intro w hw
    cases mem_append.mp hw with
    | inl hw => exact h.placed w hw
    | inr hw =>
      rw [mem_singleton.mp hw]
      exact hhead
  · intro w hw
    cases mem_append.mp hw with
    | inl hw => exact h.le w hw
    | inr hw =>
      rw [mem_singleton.mp hw]
      rw [hlen, zero_add]
      exact hnb
  · intro o _ ho
    by_cases hon : o < n
    · refine ⟨_, mem_append_right _ (mem_singleton_self _), Nat.zero_le o, ?_⟩
      rw [hlen, zero_add]
      exact hon
    · obtain ⟨w, hw, hcovers⟩ := h.covers o (Nat.not_lt.mp hon) ho
      exact ⟨w, mem_append_left _ hw, hcovers⟩

theorem between_all (body : Bytes) : between body 0 body.length = body := by
  rw [between, take_length, drop_zero]

theorem doComplete_spec {p₁ : AtomicProcessor} (hwriting : p.completeWritingData = .ok q)
    (hended : Ended head objPrefix chunk stripe p₁ q) (hhead : p₁.headObj = head)
    (hhash : p₁.hash = body)
    (hlen : p₁.objLen = body.length) : ∃ r, p.doComplete = .ok r ∧
    Done head objPrefix chunk stripe body r
      ∧ r.written = p₁.written ++ [⟨head, 0, 0, p₁.firstChunk⟩] := by
  rw [doComplete, hwriting]
  refine ⟨_, rfl, ⟨hended.hash.trans hhash, hended.striped, hlen ▸ hended.sized⟩, ?_⟩
  dsimp only
  rw [hended.written, hended.headObj, hended.firstChunk, hhead]

theorem Fresh.complete (hchunk : 0 < chunk)
    (h : Fresh head objPrefix chunk stripe body body.length p)
    (hlt : body.length < chunk) : ∃ q, p.completeHash.doComplete = .ok q ∧
    Done head objPrefix chunk stripe body q
      ∧ Writes head objPrefix chunk stripe body 0 body.length q.written := by
  have hprepared : Prepared head objPrefix chunk stripe
      { p.completeHash with
        firstChunk := p.pendingData,
        objLen := p.pendingData.length,
        pendingData := [] } :=
    { h.prepared with }
  have hpending : p.pendingData = body := by rw [h.pendingData, between_all]
  have hsized : ¬ p.curPartOfs < p.pendingData.length →
      Sized chunk p.pendingData.length p.manifest := by
    intro hle
    have hzero : p.pendingData.length = 0 := Nat.eq_zero_of_not_pos (h.curPartOfs ▸ hle)
    rw [hzero]
    exact h.sized
  have hlast : p.manifestGen.lastOfs ≤ p.pendingData.length := h.lastOfs ▸ Nat.zero_le _
  obtain ⟨q, hq, hended⟩ := completeParts_spec hchunk hprepared hlast hsized
  have hwriting : p.completeHash.completeWritingData = .ok q := by
    rw [completeWritingData, if_pos (show p.completeHash.dataOfs = 0 from h.dataOfs)]
    exact hq
  have hhash : p.hash ++ p.pendingData = body := by rw [h.hash, nil_append, hpending]
  obtain ⟨r, hr, hdone, hwritten⟩ :=
    doComplete_spec hwriting hended h.prepared.headObj hhash (congrArg List.length hpending)
  refine ⟨r, hr, hdone, ?_⟩
  rw [hwritten]
  change Writes _ _ _ _ _ _ _ (p.written ++ [⟨head, 0, 0, p.pendingData⟩])
  rw [h.written, h.pendingData]
  exact Writes.append_head ⟨forall_mem_nil _, forall_mem_nil _,
    fun o ho ho' => absurd ho' (Nat.not_lt.mpr ho)⟩ hlt.le (Nat.le_refl _) (Nat.le_refl _)

section

variable (h : AtStripe head objPrefix chunk stripe body body.length j p) (hchunk : 0 < chunk)
include h hchunk

/-- Nothing is left to write. -/
theorem AtStripe.complete_exact (heq : p.dataOfs = body.length) :
    ∃ q, p.completeHash.doComplete = .ok q ∧ Done head objPrefix chunk stripe body q
      ∧ Writes head objPrefix chunk stripe body 0 body.length q.written := by
  have hge := h.le_dataOfs
  have hpending : p.pendingData = [] :=
    eq_nil_of_length_eq_zero (by rw [h.length_pendingData, heq, Nat.sub_self])
  have hprepared : Prepared head objPrefix chunk stripe p.completeHash :=
    { h.prepared with }
  have hlast : p.manifestGen.lastOfs ≤ p.objLen := by
    rw [h.lastOfs, h.objLen]
    exact hge
  have hsized : ¬ p.curPartOfs < p.objLen → Sized chunk p.objLen p.manifest := by
    intro hle
    rw [h.curPartOfs, h.objLen] at hle
    rw [h.objLen, Nat.le_antisymm (Nat.not_lt.mp hle) hge]
    exact h.sized
  obtain ⟨q, hq, hended⟩ := completeParts_spec hchunk hprepared hlast hsized
  have hwriting : p.completeHash.completeWritingData = .ok q := by
    rw [completeWritingData,
      if_neg (show p.completeHash.dataOfs ≠ 0 from by change p.dataOfs ≠ 0; omega),
      if_pos (by change p.pendingData.isEmpty = true; rw [hpending]; rfl)]
    exact hq
  have hhash : p.hash ++ p.pendingData = body := by
    rw [h.hash, hpending, append_nil, heq, between_all]
  obtain ⟨r, hr, hdone, hwritten⟩ :=
    doComplete_spec hwriting hended h.prepared.headObj hhash (h.objLen.trans heq)
  refine ⟨r, hr, hdone, ?_⟩
  rw [hwritten]
  change Writes _ _ _ _ _ _ _ (p.written ++ [⟨head, 0, 0, p.firstChunk⟩])
  rw [h.firstChunk]
  exact (heq ▸ h.written).append_head (Nat.le_refl _) (by omega) (Nat.le_refl _)

/-- The rest is written as one piece. -/
theorem AtStripe.complete_rest (hstripe : chunk ≤ stripe) (hrest : body.length < p.dataOfs + chunk)
    (hlt : p.dataOfs < body.length) :
    ∃ q p₁ w, p.completeHash.doComplete = .ok q ∧ Done head objPrefix chunk stripe body q
      ∧ RestWritten head objPrefix chunk stripe body j p.completeHash p₁ w
      ∧ q.written = p.written ++ [w] ++ [⟨head, 0, 0, between body 0 chunk⟩] := by
  have hge := h.le_dataOfs
  obtain ⟨p₁, w, hp₁, hw⟩ := h.writeRest hchunk hstripe hrest hlt
  obtain ⟨q, hq, hended⟩ := completeParts_spec hchunk hw.prepared (hw.objLen ▸ hw.lastOfs)
    (fun hle => absurd (hw.objLen ▸ hw.curPartOfs) hle)
  have hempty : ¬ p.pendingData.isEmpty = true := by
    rw [isEmpty_iff_length_eq_zero, h.length_pendingData]
    omega
  have hwriting : p.completeHash.completeWritingData = .ok q := by
    rw [completeWritingData,
      if_neg (show p.completeHash.dataOfs ≠ 0 from by change p.dataOfs ≠ 0; omega),
      if_neg (by exact hempty)]
    change Except.bind (p.completeHash.writeData p.pendingData p.dataOfs) completeParts = _
    rw [hp₁]
    exact hq
  have hhash : p₁.hash = body := by
    rw [hw.hash]
    change p.hash ++ p.pendingData = body
    rw [h.hash, h.pendingData, between_append _ (Nat.zero_le _) hlt.le, between_all]
  obtain ⟨r, hr, hdone, hwritten⟩ :=
    doComplete_spec hwriting hended hw.prepared.headObj hhash hw.objLen
  refine ⟨r, p₁, w, hr, hdone, hw, ?_⟩
  rw [hwritten, hw.written, hw.firstChunk]
  change p.written ++ [w] ++ [⟨head, 0, 0, p.firstChunk⟩] = _
  rw [h.firstChunk]

end

/-- A rest that overruns its stripe is written behind its end. -/
theorem complete_overfull (hchunk : 0 < chunk) (hstripe : chunk ≤ stripe)
    (hrest : body.length < p.dataOfs + chunk)
    (h : Overfull head objPrefix chunk stripe body body.length p) :
    ∃ q, p.completeHash.doComplete = .ok q ∧ Done head objPrefix chunk stripe body q
      ∧ Misplaced head objPrefix chunk stripe body q := by
  obtain ⟨j, hj, hin, hover⟩ := h
  obtain ⟨q, p₁, w, hq, hdone, hw, hwritten⟩ :=
    hj.complete_rest hchunk hstripe hrest (hin.trans hover)
  have hpos : 0 < stripe := hchunk.trans_le hstripe
  have hplace : place head objPrefix chunk stripe (chunk + j * stripe + stripe)
      = (partLocation objPrefix 0 (j + 1 + 1), 0) := by
    rw [add_assoc, ← Nat.succ_mul, ← add_zero (chunk + _)]
    exact place_stripe hpos
  refine ⟨q, hq, hdone, chunk + j * stripe + stripe, hover, fun v hv hcovers heq => ?_⟩
  rw [hwritten, mem_append, mem_append, mem_singleton, mem_singleton] at hv
  obtain ⟨hle, hlt⟩ := hcovers
  obtain (hv | rfl) | rfl := hv
  · have hbefore := hj.written.le v hv
    omega
  · -- the rest went to this stripe, behind its end
    have hofs := (hw.obj hin).2
    rw [hplace, Prod.mk.injEq] at heq
    have hge := hj.le_dataOfs
    have habs : v.absOfs = p.dataOfs := hw.absOfs
    omega
  · rw [length_between] at hlt
    dsimp only at hlt
    omega

theorem Rests.complete (hchunk : 0 < chunk) (hstripe : chunk ≤ stripe)
    (h : Rests head objPrefix chunk stripe body body.length p)
    (hfit : ¬ Overfull head objPrefix chunk stripe body body.length p) :
    ∃ q, p.completeHash.doComplete = .ok q ∧ Done head objPrefix chunk stripe body q
      ∧ Writes head objPrefix chunk stripe body 0 body.length q.written := by
  have hrest := h.rest
  cases h.holds with
  | inl hfresh =>
    rw [hfresh.dataOfs, zero_add] at hrest
    exact hfresh.complete hchunk hrest
  | inr hat =>
    obtain ⟨j, hj⟩ := hat
    by_cases hlt : p.dataOfs < body.length
    · obtain ⟨q, p₁, w, hq, hdone, hw, hwritten⟩ := hj.complete_rest hchunk hstripe hrest hlt
      have hplaced := hw.placed fun hover => hfit ⟨j, hj, hover⟩
      have hwrites := hj.written.append hw.absOfs hplaced
      have hend : p.dataOfs + w.data.length = body.length := by
        rw [hw.data, length_between, Nat.min_self]
        exact Nat.add_sub_cancel' hlt.le
      have hge := hj.le_dataOfs
      refine ⟨q, hq, hdone, ?_⟩
      rw [hend] at hwrites
      rw [hwritten]
      exact hwrites.append_head (Nat.le_refl _) (by omega) (Nat.le_refl _)
    · exact hj.complete_exact hchunk (Nat.le_antisymm hj.dataOfs_le_taken (Nat.not_lt.mp hlt))

end Completion

end Calls

def Write.Has (w : Write) (body : Bytes) (o : Nat) (there : Location × Nat) : Prop :=
  w.Covers o ∧ there = (w.obj, w.ofs + (o - w.absOfs)) ∧ w.data[o - w.absOfs]? = body[o]?

def RoundTrips (chunk stripe : Nat) (head : Location) (rand : Bytes) (calls : List Bytes)
    (maxChunk : Nat) : Prop :=
  ∃ p, Loop.Gives (fun fuel => (putObj fuel chunk stripe head rand calls).run) (.ok p) ∧
    p.hash = calls.flatten
    ∧ ∀ ofs last, ofs ≤ last → last < calls.flatten.length →
      ∃ reads, Loop.Gives (fun fuel => iterateObj fuel p.manifest maxChunk ofs last) (some reads)
        ∧ Chain ofs (reads.map Read.piece) ∧ ofs + total (reads.map Read.piece) = last + 1
        ∧ ∀ r ∈ reads, ∀ i < r.len, ∃ w ∈ p.written,
          w.Has calls.flatten (r.ofs + i) (r.obj, r.readOfs + i)

section RoundTrip

variable {head : Location} {rand body : Bytes} {chunk stripe maxChunk : Nat} {calls : List Bytes}
  {p q : AtomicProcessor}

theorem gives_putObj {p₀ : AtomicProcessor} (hprepare : prepare chunk stripe head rand = .ok p₀)
    (hcalls : Loop.Gives (fun fuel => (calls.foldlM (putData fuel) p₀).run) (.ok p))
    (hcomplete : p.completeHash.doComplete = .ok q) :
    Loop.Gives (fun fuel => (putObj fuel chunk stripe head rand calls).run) (.ok q) := by
  unfold putObj
  rw [hprepare]
  apply hcalls.bind
  rw [hcomplete]
  exact Loop.gives_const _

/-- Pieces at their places are read back. -/
theorem roundTrips_of_writes (hchunk : 0 < chunk) (hstripe : chunk ≤ stripe) (hmax : 0 < maxChunk)
    (hput : Loop.Gives (fun fuel => (putObj fuel chunk stripe head rand calls).run) (.ok q))
    (hdone : Done head (stripePrefix rand) chunk stripe calls.flatten q)
    (hwrites : Writes head (stripePrefix rand) chunk stripe calls.flatten 0 calls.flatten.length
      q.written) :
    RoundTrips chunk stripe head rand calls maxChunk := by
  refine ⟨q, hput, hdone.hash, fun ofs last hofs hlast => ?_⟩
  obtain ⟨reads, hgives, hreads⟩ :=
    gives_iterateObj hdone.striped hdone.sized hchunk (hchunk.trans_le hstripe) hmax hofs hlast
  refine ⟨reads, hgives, hreads.chain, hreads.total_eq, fun r hr i hi => ?_⟩
  have hend : r.ofs + r.len ≤ last + 1 :=
    hreads.total_eq ▸ hreads.chain.add_le_of_mem r.piece (mem_map_of_mem hr)
  obtain ⟨w, hw, hcovers⟩ := hwrites.covers (r.ofs + i) (Nat.zero_le _) (by omega)
  have hplaced := hwrites.placed w hw
  have hofs : w.absOfs + (r.ofs + i - w.absOfs) = r.ofs + i := Nat.add_sub_cancel' hcovers.1
  have hin : r.ofs + i - w.absOfs < w.data.length := by
    have := hcovers.2
    omega
  refine ⟨w, hw, hcovers, ?_, ?_⟩
  · rw [← hreads.placed r hr i hi, ← hplaced.place_eq _ hin, hofs]
  · rw [hplaced.data, getElem?_between _ (Nat.add_lt_add_left hin _), hofs]

/-- A piece behind the end of its stripe is not found. -/
theorem not_roundTrips_of_misplaced (hchunk : 0 < chunk) (hstripe : chunk ≤ stripe)
    (hmax : 0 < maxChunk)
    (hput : Loop.Gives (fun fuel => (putObj fuel chunk stripe head rand calls).run) (.ok q))
    (hdone : Done head (stripePrefix rand) chunk stripe calls.flatten q)
    (hmisplaced : Misplaced head (stripePrefix rand) chunk stripe calls.flatten q) :
    ¬ RoundTrips chunk stripe head rand calls maxChunk := by
  rintro ⟨p, hp, -, hranges⟩
  obtain rfl := Except.ok.inj (hp.unique hput)
  obtain ⟨o, ho, hnot⟩ := hmisplaced
  -- the byte is read alone
  obtain ⟨reads, hgives, hchain, htotal, hhas⟩ := hranges o o (Nat.le_refl o) ho
  obtain ⟨reads', hgives', hreads⟩ :=
    gives_iterateObj hdone.striped hdone.sized hchunk (hchunk.trans_le hstripe) hmax
      (Nat.le_refl o) ho
  obtain rfl := Option.some.inj (hgives.unique hgives')
  cases reads with
  | nil => exact absurd htotal (Nat.ne_of_lt (Nat.lt_succ_self o))
  | cons r reads =>
    obtain ⟨hofs, hlen, -⟩ := hchain
    have hzero : r.ofs + 0 = o := hofs
    have hplace := hreads.placed r mem_cons_self 0 hlen
    obtain ⟨w, hw, hcovers, hthere, -⟩ := hhas r mem_cons_self 0 hlen
    rw [hzero] at hcovers hthere hplace
    exact hnot w hw hcovers (hplace.trans hthere)

theorem not_overruns_nil (chunk stripe : Nat) : ¬ Overruns chunk stripe [] := by
  rintro ⟨-, j, -, hlt, -⟩
  exact Nat.not_lt_zero _ hlt

/-- All calls take the body. -/
theorem gives_all (hchunk : 0 < chunk) (hstripe : chunk ≤ stripe) {p₀ : AtomicProcessor}
    {objPrefix : Bytes}
    (hp : Fresh head objPrefix chunk stripe calls.flatten 0 p₀) :
    ∃ q, Loop.Gives (fun fuel => (calls.foldlM (putData fuel) p₀).run) (.ok q)
      ∧ Rests head objPrefix chunk stripe calls.flatten calls.flatten.length q
      ∧ (Overfull head objPrefix chunk stripe calls.flatten calls.flatten.length q ↔
        Overruns chunk stripe calls) := by
  obtain rfl | ⟨init, bl, rfl⟩ := eq_nil_or_concat' calls
  · obtain ⟨q, hq, hrests⟩ := gives_calls hchunk hstripe hp [] [] rfl
    refine ⟨q, hq, hrests, ?_⟩
    refine iff_of_false ?_ (not_overruns_nil chunk stripe)
    rintro ⟨j, -, -, hlt⟩
    exact Nat.not_lt_zero _ hlt
  · have hflatten : (init ++ [bl]).flatten = init.flatten ++ bl ++ [] := by
      rw [flatten_append, flatten_singleton, append_nil]
    obtain ⟨q, hq, hrests⟩ := gives_calls hchunk hstripe hp init bl (by rw [hflatten, append_nil])
    obtain ⟨r, hr, hcalled⟩ := gives_call hchunk hstripe hflatten hq hrests
    exact ⟨r, hr, ⟨hcalled.holds, hcalled.rest⟩, overfull_iff hchunk hstripe hrests hcalled⟩

theorem not_roundTrips_of_overruns (rand : Bytes) (head : Location) (hchunk : 0 < chunk)
    (hstripe : chunk ≤ stripe)
    (hmax : 0 < maxChunk) (h : Overruns chunk stripe calls) :
    ¬ RoundTrips chunk stripe head rand calls maxChunk := by
  obtain ⟨p₀, hprepare, hfresh⟩ := prepare_spec chunk stripe head rand calls.flatten
  obtain ⟨p, hp, hrests, hiff⟩ := gives_all hchunk hstripe hfresh
  obtain ⟨q, hq, hdone, hmisplaced⟩ := complete_overfull hchunk hstripe hrests.rest (hiff.mpr h)
  exact not_roundTrips_of_misplaced hchunk hstripe hmax (gives_putObj hprepare hp hq) hdone
    hmisplaced

/-- Objects are read back unless the last piece overruns its stripe. -/
theorem roundTrips_iff_not_overruns (chunk stripe : Nat) (head : Location) (rand : Bytes)
    (calls : List Bytes)
    (maxChunk : Nat) (hchunk : 0 < chunk) (hstripe : chunk ≤ stripe) (hmax : 0 < maxChunk) :
    RoundTrips chunk stripe head rand calls maxChunk ↔ ¬ Overruns chunk stripe calls := by
  constructor
  · exact fun h hover => not_roundTrips_of_overruns rand head hchunk hstripe hmax hover h
  · intro hnot
    obtain ⟨p₀, hprepare, hfresh⟩ := prepare_spec chunk stripe head rand calls.flatten
    obtain ⟨p, hp, hrests, hiff⟩ := gives_all hchunk hstripe hfresh
    obtain ⟨q, hq, hdone, hwrites⟩ :=
      hrests.complete hchunk hstripe (fun hover => hnot (hiff.mp hover))
    exact roundTrips_of_writes hchunk hstripe hmax (gives_putObj hprepare hp hq) hdone hwrites

/-- Eleven bytes, with chunks of four and stripes of six: they come in two calls, so that the piece
at the end of the stripe is written when the second one starts. -/
theorem eleven_bytes_in_two_calls : RoundTrips 4 6 ⟨[], ascii "o"⟩ (ascii "r")
    [ascii "01234567", ascii "89a"] 4 :=
  (roundTrips_iff_not_overruns 4 6 ⟨[], ascii "o"⟩ (ascii "r") [ascii "01234567",
    ascii "89a"] 4 (by decide) (by decide)
    (by decide)).mpr (by
      rintro ⟨-, j, hlt, hover, -⟩
      rw [lastCut] at hlt
      have hfirst : ([ascii "01234567", ascii "89a"].dropLast.flatten).length = 8 := by decide
      have hall : ([ascii "01234567", ascii "89a"].flatten).length = 11 := by decide
      rw [hfirst] at hlt
      rw [hall] at hover
      omega)

/-- In one call, the last byte is written behind the end of the first stripe and read from the
second one. -/
theorem eleven_bytes_in_one_call_overrun : ¬ RoundTrips 4 6 ⟨[], ascii "o"⟩ (ascii "r")
    [ascii "0123456789a"] 4 :=
  not_roundTrips_of_overruns (ascii "r") ⟨[], ascii "o"⟩ (by decide) (by decide) (by decide)
    ⟨by decide, 0, by decide, by decide, by decide⟩

end RoundTrip

end RadosGateway.PutProcessor
