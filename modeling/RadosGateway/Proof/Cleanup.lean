import RadosGateway.Base.Run
import RadosGateway.Cleanup

/-!
# What is removed, and when

The garbage collector keeps a tag when an object of its chain was not removed, but not when the
object's pool could not be opened. The expirer trims all hints of a round behind the first chunk,
whatever has become of their objects. -/

namespace RadosGateway.Cleanup

open Text Transition List

def Removed (events : List Event) (tag : Bytes) (obj : Obj) : Prop :=
  ∃ ctx ret, .sent ctx tag obj ret ∈ events ∧ (0 ≤ ret ∨ ret = -ENOENT)

def Covered (infos : List Info) (events : List Event) (tag : Bytes) : Prop :=
  ∃ info ∈ infos, info.tag = tag ∧ ∀ r ∈ info.chain, Removed events tag r.toObj

def Allowed (infos : List Info) (before : List Event) : Event → Prop
  | .sent ctx _ obj _ => ctx = some obj.pool
  | .removed tags => ∀ tag ∈ tags, Covered infos before tag

structure Gc.Sound (infos : List Info) (g : Gc) : Prop where
  recorded : Recorded (Allowed infos) g.events
  tags : ∀ tag ∈ g.removeTags, Covered infos g.events tag
  ctx : g.lastPool = [] ∨ g.ctx = some g.lastPool

/-- In a chain that is processed with `lastPool` open, every pool has a name, and every call of
`ioctx_create` that is made succeeds. -/
def ChainOpens : Bytes → List Removal → Prop
  | _, [] => True
  | lastPool, r :: chain => r.pool ≠ [] ∧ (r.pool ≠ lastPool → 0 ≤ r.openRet) ∧
    (r.goingDown = false → ChainOpens r.pool chain)

/-- The same for the entries that `process` comes to from the state `g`. -/
def EntriesOpen : List Info → Gc → Prop
  | [], _ => True
  | info :: entries, g => info.late = false → ChainOpens g.lastPool info.chain ∧
    ((removeChain info.tag info.chain g true).2.2 = false →
      EntriesOpen entries (if (removeChain info.tag info.chain g true).2.1 then
        pushTag info.tag (removeChain info.tag info.chain g true).1
      else (removeChain info.tag info.chain g true).1))

def PagesOpen : List Page → Gc → Prop
  | [], _ => True
  | page :: pages, g => 0 ≤ page.ret → EntriesOpen page.entries { g with lastPool := [] } ∧
    ((processEntries page.entries { g with lastPool := [] }).2 = false → page.truncated = true →
      PagesOpen pages (processEntries page.entries { g with lastPool := [] }).1)

variable {infos entries : List Info} {g : Gc} {tag : Bytes} {events events' : List Event}

theorem Removed.mono {obj : Obj} (h : Removed events tag obj) (hle : events ⊆ events') :
    Removed events' tag obj := by
  obtain ⟨ctx, ret, hmem, hret⟩ := h
  exact ⟨ctx, ret, hle hmem, hret⟩

theorem Covered.mono (h : Covered infos events tag) (hle : events ⊆ events') :
    Covered infos events' tag := by
  obtain ⟨info, hinfo, htag, hchain⟩ := h
  exact ⟨info, hinfo, htag, fun r hr => (hchain r hr).mono hle⟩

section

variable (h : g.Sound infos)
include h

theorem Gc.Sound.send (tag : Bytes) (obj : Obj) (ret : Int) : Gc.Sound infos { g with
      ctx := some obj.pool
      lastPool := obj.pool
      events := g.events ++ [.sent (some obj.pool) tag obj ret] } where
  recorded := h.recorded.concat rfl
  tags t ht := (h.tags t ht).mono (subset_append_left _ _)
  ctx := .inr rfl

/-- The loop over one chain: removals go to the pool of their object. -/
theorem Gc.Sound.removeChain (tag : Bytes) {chain : List Removal} (removeTag : Bool)
    (hopens : ChainOpens g.lastPool chain) :
    let (g', removeTag', done) := removeChain tag chain g removeTag
    g'.Sound infos ∧ g.events ⊆ g'.events ∧ (removeTag' = true → removeTag = true) ∧
      (done = false → removeTag' = true → ∀ r ∈ chain, Removed g'.events tag r.toObj) := by
  induction chain generalizing g removeTag with
  | nil => exact ⟨h, List.Subset.refl _, id, fun _ _ => forall_mem_nil _⟩
  | cons r chain ih =>
    obtain ⟨hpool, hopen, hopens⟩ := hopens
    have hctx : (if r.pool ≠ g.lastPool then { g with ctx := some r.pool, lastPool := r.pool }
      else g : Gc) =
        { g with ctx := some r.pool, lastPool := r.pool } := by
      by_cases hne : r.pool = g.lastPool
      · rw [if_neg (not_not.mpr hne)]
        have hopened := h.ctx.resolve_left (hne ▸ hpool)
        rw [hne, ← hopened]
      · exact if_pos hne
    have hsend := h.send tag r.toObj r.opRet
    have hsent : Event.sent (some r.pool) tag r.toObj r.opRet ∈ g.events ++
      [.sent (some r.pool) tag r.toObj r.opRet] :=
      mem_append_right _ mem_cons_self
    have hret : (if (if r.opRet = -ENOENT then 0 else r.opRet) < 0 then false else removeTag) =
      true →
        removeTag = true ∧ (0 ≤ r.opRet ∨ r.opRet = -ENOENT) := by
      split_ifs <;> grind
    rw [Cleanup.removeChain, if_neg (fun hbad => absurd (hopen hbad.1) (by omega))]
    dsimp only
    rw [hctx]
    by_cases hdown : r.goingDown = true
    · rw [if_pos hdown]
      exact ⟨hsend, subset_append_left _ _, fun htrue => (hret htrue).1, fun hdone => nomatch hdone⟩
    · rw [if_neg hdown]
      obtain ⟨hsound, hle, htag, hall⟩ :=
        ih hsend (if (if r.opRet = -ENOENT then 0 else r.opRet) < 0 then false
          else removeTag) (hopens (Bool.eq_false_iff.mpr hdown))
      refine ⟨hsound, fun e he => hle (mem_append_left _ he), fun htrue =>
        (hret (htag htrue)).1, ?_⟩
      intro hdone htrue
      exact forall_mem_cons.mpr ⟨⟨_, _, hle hsent, (hret (htag htrue)).2⟩, hall hdone htrue⟩

theorem Gc.Sound.pushTag (htag : Covered infos g.events tag) : (pushTag tag g).Sound infos := by
  have htags : ∀ t ∈ g.removeTags ++ [tag], Covered infos g.events t := by
    intro t ht
    rcases mem_append.mp ht with hold | hnew
    · exact h.tags t hold
    · exact mem_singleton.mp hnew ▸ htag
  rw [Cleanup.pushTag]
  split_ifs
  · exact ⟨h.recorded.concat htags, forall_mem_nil _, h.ctx⟩
  · exact ⟨h.recorded, htags, h.ctx⟩

/-- The loop over the entries of a page. -/
theorem Gc.Sound.processEntries (hentries : ∀ info ∈ entries, info ∈ infos)
    (hopens : EntriesOpen entries g) : (processEntries entries g).1.Sound infos := by
  induction entries generalizing g with
  | nil => exact h
  | cons info entries ih =>
    obtain ⟨hinfo, hentries⟩ := forall_mem_cons.mp hentries
    rw [Cleanup.processEntries]
    split_ifs with hlate
    · exact h
    · obtain ⟨hchain, hrest⟩ := hopens (Bool.eq_false_iff.mpr hlate)
      obtain ⟨hsound, -, -, hall⟩ := h.removeChain info.tag true hchain
      dsimp only
      split_ifs with hdone htag
      · exact hsound
      · have hdone := Bool.eq_false_iff.mpr hdone
        have hrest := hrest hdone
        rw [if_pos htag] at hrest
        exact ih (hsound.pushTag ⟨info, hinfo, rfl, hall hdone htag⟩) hentries hrest
      · have hrest := hrest (Bool.eq_false_iff.mpr hdone)
        rw [if_neg htag] at hrest
        exact ih hsound hentries hrest

/-- The loop over pages. -/
theorem Gc.Sound.processPages {pages : List Page}
    (hpages : ∀ page ∈ pages, ∀ info ∈ page.entries, info ∈ infos) (hopens : PagesOpen pages g) :
    (processPages pages g).Sound infos := by
  induction pages generalizing g with
  | nil => exact h
  | cons page pages ih =>
    obtain ⟨hpage, hpages⟩ := forall_mem_cons.mp hpages
    rw [Cleanup.processPages]
    by_cases hret : page.ret < 0
    · rw [if_pos hret]
      exact h
    · rw [if_neg hret]
      obtain ⟨hentries, hrest⟩ := hopens (Int.not_lt.mp hret)
      have hsound := Gc.Sound.processEntries (g := { g with lastPool := [] })
        ⟨h.recorded, h.tags, .inl rfl⟩ hpage hentries
      dsimp only
      split_ifs with hdone htruncated
      · exact hsound
      · exact ih hsound hpages (hrest (Bool.eq_false_iff.mpr hdone) htruncated)
      · exact hsound

end

/-- Where every pool has a name and every call of `ioctx_create` succeeds, tags are removed behind
all objects of their chains, and every removal is sent to the object's pool. -/
theorem tags_removed_behind_chains (maxSecs lockRet : Int) (pages : List Page)
    (hopens : PagesOpen pages {}) :
    Recorded (Allowed (pages.flatMap Page.entries)) (process maxSecs lockRet pages).2 := by
  rw [process]
  split_ifs
  · exact recorded_nil
  · exact recorded_nil
  · exact recorded_nil
  · have hfresh : Gc.Sound (pages.flatMap Page.entries) {} :=
      ⟨recorded_nil, forall_mem_nil _, .inl rfl⟩
    have hsound := hfresh.processPages
      (fun page hpage info hinfo => mem_flatMap.mpr ⟨page, hpage, hinfo⟩) hopens
    dsimp only
    split_ifs
    · exact hsound.recorded
    · exact hsound.recorded.concat hsound.tags

def Sample.twoPools : Info :=
  ⟨[116], [{ pool := [97], name := [49] }, { pool := [98], name := [50] }], false⟩

/-- A chain of two objects in two pools. -/
theorem tag_of_two_pools : Recorded (Allowed [Sample.twoPools])
    (process 1 0 [{ entries := [Sample.twoPools] }]).2 :=
  tags_removed_behind_chains 1 0 [{ entries := [Sample.twoPools] }]
    (by simp [PagesOpen, EntriesOpen, ChainOpens, Sample.twoPools])

def Sample.noPool : Info := ⟨[116], [{ pool := [97], name := [49], openRet := -2 }], false⟩

/-- The pool cannot be opened, nothing is sent, and the tag is removed. -/
theorem tag_removed_before_chain :
    ¬ Recorded (Allowed [Sample.noPool]) (process 1 0 [{ entries := [Sample.noPool] }]).2 := by
  intro h
  obtain ⟨info, hinfo, -, hchain⟩ := h [] (.removed [[116]]) [] rfl [116] mem_cons_self
  rw [mem_singleton.mp hinfo] at hchain
  obtain ⟨ctx, ret, hmem, -⟩ := hchain _ mem_cons_self
  cases hmem

def ERR_PRECONDITION_FAILED : Int := 2015

def Hint.Settled (hint : Hint) : Prop := 0 ≤ hint.garbage ∨ hint.garbage = -ERR_PRECONDITION_FAILED

def HintAllowed (before : List HintEvent) : HintEvent → Prop
  | .garbage _ _ => True
  | .trim hints => ∀ hint ∈ hints, ∃ ret, .garbage hint ret ∈ before ∧
    (0 ≤ ret ∨ ret = -ERR_PRECONDITION_FAILED)

section Hints

variable {σ μ : Type} {index : HintIndex σ μ} {numEntries : Nat} {s : σ}

/-- What the expirer may expect of the index: a page from the beginning has the first hints, any
page has hints of the index and no more than it was asked for, and trimming removes all hints of the
interval. -/
structure HintIndex.Lawful (index : HintIndex σ μ) : Prop where
  first : ∀ s n, (index.hintList s n index.start).entries = (index.hints s).take n
  listed : ∀ s n marker, (index.hintList s n marker).entries ⊆ index.hints s
  length_le : ∀ s n marker, (index.hintList s n marker).entries.length ≤ n
  trimmed : ∀ s, index.hints (index.hintTrim s) = []

variable (hlaw : index.Lawful) (rounds : List Round)
include hlaw

theorem shardLoop_empty (hs : index.hints s = []) (marker : μ) (truncated : Bool) :
    shardLoop index numEntries rounds s marker truncated = [] := by
  induction rounds generalizing marker truncated with
  | nil => rfl
  | cons round rounds ih =>
    have hentries := hlaw.listed s numEntries marker
    rw [hs, subset_nil] at hentries
    rw [shardLoop]
    simp [garbageChunk, hentries, ih]

theorem shardLoop_zero (marker : μ) (truncated : Bool) :
    shardLoop index 0 rounds s marker truncated = [] := by
  induction rounds generalizing marker truncated with
  | nil => rfl
  | cons round rounds ih =>
    have hentries := eq_nil_of_length_eq_zero (Nat.le_zero.mp (hlaw.length_le s 0 marker))
    rw [shardLoop]
    simp [garbageChunk, hentries, ih]

theorem shardLoop_first {round : Round} (hlist : ¬ round.listRet < 0) (hpos : 0 < numEntries)
    (hne : index.hints s ≠ []) : shardLoop index numEntries (round :: rounds) s index.start false =
      (((index.hints s).take numEntries).map fun hint => .garbage hint hint.garbage) ++
        [.trim (index.hints s)] := by
  have hchunk : ((index.hints s).take numEntries).isEmpty = false := by
    rw [isEmpty_eq_false_iff, Ne, take_eq_nil_iff]
    exact fun h => h.elim (by omega) hne
  rw [shardLoop, if_neg hlist]
  simp [garbageChunk, hlaw.first, hchunk, hlaw.trimmed,
    shardLoop_empty hlaw rounds (hlaw.trimmed s)]

omit hlaw

/-- Hints are trimmed behind their garbage exactly if all of them were in the chunk and are settled.
-/
theorem recorded_chunk (entries : List Hint) {hints : List Hint} : Recorded HintAllowed
      ((entries.map fun hint => .garbage hint hint.garbage) ++ [.trim hints]) ↔
    ∀ hint ∈ hints, hint ∈ entries ∧ hint.Settled := by
  have hgarbage : Recorded HintAllowed (entries.map fun hint => .garbage hint hint.garbage) := by
    intro before e behind heq
    obtain ⟨hint, -, rfl⟩ := mem_map.mp (heq ▸ mem_append_right before mem_cons_self)
    trivial
  constructor
  · intro h hint hhint
    obtain ⟨ret, hmem, hret⟩ := h _ _ [] rfl hint hhint
    obtain ⟨hint', hentry, heq⟩ := mem_map.mp hmem
    cases heq
    exact ⟨hentry, hret⟩
  · intro h
    refine hgarbage.concat fun hint hhint => ?_
    obtain ⟨hentry, hsettled⟩ := h hint hhint
    exact ⟨_, mem_map_of_mem hentry, hsettled⟩

end Hints

/-- An index whose state is the list of its hints and whose markers are positions. -/
def Sample.index : HintIndex (List Hint) Nat where
  hints := id
  start := 0
  hintList s n marker := ⟨(s.drop marker).take n, marker + n, n < (s.drop marker).length⟩
  hintTrim _ := []

theorem Sample.index_lawful : Sample.index.Lawful where
  first _ _ := rfl
  listed _ _ _ := fun _ h => mem_of_mem_drop (mem_of_mem_take h)
  length_le _ n _ := length_take_le n _
  trimmed _ := rfl

def AioCall.objects : AioCall → List AioObj
  | .handleObjData obj => [obj]
  | _ => []

def AioCall.handles : AioCall → List Nat
  | .throttleData handle _ _ => handle.toList
  | _ => []

/-- Before an object is deleted all writes were waited for, and before one that is not of the
multipart namespace none of that namespace is deleted. -/
def Orderly (handles : List Nat) (before : List AioEvent) : AioEvent → Prop
  | .deleted obj => (∀ handle ∈ handles, .waited handle ∈ before) ∧
      (obj.ns ≠ multipartNs → ∀ obj', .deleted obj' ∈ before → obj'.ns ≠ multipartNs)
  | _ => True

/-- What has happened when a processor that was given the calls is destroyed before its upload is
complete. -/
def aborted (calls : List AioCall) : List AioEvent := destroy false (calls.foldl Processor.call {})

def WaitsInOrder (calls : List AioCall) : Prop :=
  Recorded (Orderly (calls.flatMap AioCall.handles)) (aborted calls) ∧
    ∀ handle ∈ calls.flatMap AioCall.handles, .waited handle ∈ aborted calls

def DeletesAll (calls : List AioCall) : Prop :=
  ∀ obj ∈ calls.flatMap AioCall.objects, .deleted obj ∈ aborted calls

/-- What a processor knows of its handles and of the objects it wrote. The object last written
starts out default-constructed, so that writes to such an object at the beginning are not recorded.
-/
structure Processor.Knows (p : Processor) (handles : List Nat) (objs : List AioObj) : Prop where
  held : ∀ handle ∈ handles, handle ∈ p.pending ∨ .waited handle ∈ p.events
  undeleted : ∀ obj, .deleted obj ∉ p.events
  written : ∀ obj, obj ∈ p.writtenObjs ↔ obj ∈ objs.dropWhile (· = {})
  last : p.lastWrittenObj = {} ∧ p.writtenObjs = [] ∨ p.lastWrittenObj ∈ p.writtenObjs

variable {p : Processor} {handles : List Nat} {objs : List AioObj}

section

variable (h : p.Knows handles objs)
include h

theorem Processor.Knows.wait : (waitPendingFront p).Knows handles objs := by
  rw [waitPendingFront]
  split
  · exact h
  case h_2 front pending hpending =>
    refine ⟨fun handle hhandle => ?_, fun obj => ?_, h.written, h.last⟩
    · have hheld := h.held handle hhandle
      rw [hpending] at hheld
      simp only [mem_cons, mem_append] at hheld ⊢
      grind
    · simpa using h.undeleted obj

theorem Processor.Knows.drainCompleted (completed : List Int) :
    (drainCompleted completed p).1.Knows handles objs := by
  induction completed generalizing p with
  | nil => exact h
  | cons r completed ih =>
    rw [Cleanup.drainCompleted]
    split_ifs
    · exact h
    · exact h.wait
    · exact ih h.wait

theorem Processor.Knows.resize (n : Nat) : Knows { p with maxChunks := n } handles objs :=
  { h with }

theorem Processor.Knows.throttleData (handle : Option Nat) (needToWait : Bool)
    (completed : List Int) :
    (throttleData p handle needToWait completed).Knows (handles ++ handle.toList) objs := by
  have hpushed : Knows { p with pending := p.pending ++ handle.toList } (handles ++
      handle.toList) objs := by
    refine ⟨fun handle' hhandle => ?_, h.undeleted, h.written, h.last⟩
    rcases mem_append.mp hhandle with hold | hnew
    · exact (h.held handle' hold).imp_left (mem_append_left _)
    · exact .inl (mem_append_right _ hnew)
  have hdrained := hpushed.drainCompleted completed
  rw [Cleanup.throttleData]
  dsimp only
  split_ifs
  · exact hdrained
  · exact (hdrained.resize _).wait
  · exact hdrained.resize _
  · exact hdrained.wait
  · exact hdrained

end

theorem mem_dropWhile_concat (q : AioObj → Bool) (obj obj' : AioObj) :
    obj' ∈ (objs ++ [obj]).dropWhile q ↔
      obj' ∈ objs.dropWhile q ∨ obj' = obj ∧ (objs.dropWhile q ≠ [] ∨ q obj = false) := by
  rw [dropWhile_append]
  split
  · cases hobj : q obj <;> grind [dropWhile_cons, dropWhile_nil]
  · grind

/-- The processor knows the object before it is written. -/
theorem Processor.Knows.handleObjData (h : p.Knows handles objs) (obj : AioObj) :
    (handleObjData p obj).Knows handles (objs ++ [obj]) := by
  have hempty : objs.dropWhile (· = {}) = [] ↔ p.writtenObjs = [] := by
    simp only [eq_nil_iff_forall_not_mem, h.written]
  have hlast := h.last
  rw [Cleanup.handleObjData]
  refine ⟨fun handle hhandle => ?_, fun obj' => ?_, fun obj' => ?_, ?_⟩
  · have hheld := h.held handle hhandle
    split_ifs <;> simpa using hheld
  · have hundeleted := h.undeleted obj'
    split_ifs <;> simpa using hundeleted
  · have hwritten := h.written obj'
    rw [mem_dropWhile_concat, ← hwritten, ne_eq, hempty]
    split_ifs <;> grind
  · split_ifs <;> grind

theorem knows_run (calls : List AioCall) : (calls.foldl Processor.call {}).Knows
    (calls.flatMap AioCall.handles) (calls.flatMap AioCall.objects) := by
  induction calls using List.reverseRecOn with
  | nil => exact ⟨by simp, by simp, by simp, .inl ⟨rfl, rfl⟩⟩
  | append_singleton calls call ih =>
    rw [foldl_append, flatMap_append, flatMap_append]
    cases call with
    | handleObjData obj =>
      simpa [Processor.call, AioCall.handles, AioCall.objects] using ih.handleObjData obj
    | throttleData handle needToWait completed =>
        simpa [Processor.call, AioCall.handles,
          AioCall.objects] using ih.throttleData handle needToWait completed

theorem Processor.Knows.drain (h : p.Knows handles objs) : (drainPending p).Knows handles objs ∧
    (drainPending p).pending = [] := by
  have hloop : ∀ (pending : List Nat) (p : Processor), p.Knows handles objs → p.pending = pending →
      (pending.foldl (fun p _ => waitPendingFront p) p).Knows handles objs ∧
        (pending.foldl (fun p _ => waitPendingFront p) p).pending = [] := by
    intro pending
    induction pending with
    | nil => exact fun p h hp => ⟨h, hp⟩
    | cons handle pending ih =>
      intro p h hp
      apply ih _ h.wait
      rw [waitPendingFront, hp]
  exact hloop p.pending p h rfl

theorem deleted_mem_deleteWritten (obj : AioObj) (multipartObj : Option AioObj) :
    .deleted obj ∈ deleteWritten objs multipartObj ↔ obj ∈ objs ∧ obj.ns ≠ multipartNs ∨
      (objs.filter (·.ns = multipartNs)).getLast?.or multipartObj = some obj := by
  induction objs generalizing multipartObj with
  | nil => cases multipartObj <;> simp [deleteWritten, eq_comm]
  | cons obj' objs ih =>
    rw [deleteWritten]
    split_ifs with hns
    · rw [ih, filter_cons_of_pos (by simpa using hns), getLast?_cons]
      cases (objs.filter (·.ns = multipartNs)).getLast? <;> grind
    · rw [mem_cons, ih, filter_cons_of_neg (by simpa using hns)]
      grind

/-- Written objects are deleted behind all pending writes. -/
theorem recorded_deleteWritten {before : List AioEvent}
    (hwaited : ∀ handle ∈ handles, .waited handle ∈ before)
    (hns : ∀ obj, .deleted obj ∈ before → obj.ns ≠ multipartNs)
    (h : Recorded (Orderly handles) before)
    (multipartObj : Option AioObj) (hmultipart : ∀ obj ∈ multipartObj, obj.ns = multipartNs) :
    Recorded (Orderly handles) (before ++ deleteWritten objs multipartObj) := by
  induction objs generalizing before multipartObj with
  | nil =>
    cases multipartObj with
    | none => simpa [deleteWritten] using h
    | some obj => exact h.concat ⟨hwaited, fun hne => absurd (hmultipart obj rfl) hne⟩
  | cons obj objs ih =>
    rw [deleteWritten]
    split_ifs with hobj
    · exact ih hwaited hns h (some obj) (by simpa using hobj)
    · rw [← singleton_append, ← append_assoc]
      have hdelete : Orderly handles before (.deleted obj) := ⟨hwaited, fun _ => hns⟩
      apply ih (fun handle hhandle => mem_append_left _ (hwaited handle hhandle)) _
        (h.concat hdelete) multipartObj hmultipart
      intro obj' hmem
      rcases mem_append.mp hmem with hold | hnew
      · exact hns obj' hold
      · simp only [mem_singleton, AioEvent.deleted.injEq] at hnew
        rwa [hnew]

theorem Processor.Knows.waited (h : p.Knows handles objs) :
    ∀ handle ∈ handles, .waited handle ∈ (drainPending p).events := by
  obtain ⟨hdrained, hpending⟩ := h.drain
  intro handle hhandle
  simpa [hpending] using hdrained.held handle hhandle

theorem Processor.Knows.orderly (h : p.Knows handles objs) : Recorded (Orderly handles)
    (destroy false p) := by
  obtain ⟨hdrained, -⟩ := h.drain
  apply recorded_deleteWritten h.waited _ _ none (by simp)
  · exact fun obj hmem => absurd hmem (hdrained.undeleted obj)
  · intro before e behind heq
    cases e with
    | deleted obj => exact absurd (heq ▸ by simp) (hdrained.undeleted obj)
    | issued obj => trivial
    | waited handle => trivial

theorem Processor.Knows.deleted_iff (h : p.Knows handles objs) (obj : AioObj) :
    .deleted obj ∈ destroy false p ↔
    obj ∈ objs.dropWhile (· = {}) ∧ obj.ns ≠ multipartNs ∨
      ((drainPending p).writtenObjs.filter (·.ns = multipartNs)).getLast? = some obj := by
  obtain ⟨hdrained, -⟩ := h.drain
  rw [destroy, if_neg (by simp), mem_append, deleted_mem_deleteWritten, hdrained.written,
    Option.or_none]
  exact or_iff_right (hdrained.undeleted obj)

/-- An aborted upload waits for all its writes before it deletes anything, and deletes what is of
the multipart namespace last. It leaves nothing behind just when it wrote to one object of that
namespace at most, and to the object with nothing set, which counts as written before anything is,
not only at its beginning. -/
theorem aborted_upload_cleans_up_iff (calls : List AioCall) : WaitsInOrder calls ∧
    (DeletesAll calls ↔
    (∀ obj ∈ calls.flatMap AioCall.objects, ∀ obj' ∈ calls.flatMap AioCall.objects,
      obj.ns = multipartNs → obj'.ns = multipartNs → obj = obj') ∧
    ({} ∈ calls.flatMap AioCall.objects →
      {} ∈ (calls.flatMap AioCall.objects).dropWhile (· = {}))) := by
  have hknows := knows_run calls
  refine ⟨⟨hknows.orderly, fun handle hhandle => mem_append_left _ (hknows.waited handle hhandle)⟩,
    ?_⟩
  simp only [DeletesAll, aborted, hknows.deleted_iff]
  obtain ⟨hdrained, -⟩ := hknows.drain
  generalize calls.flatMap AioCall.objects = objs at *
  generalize (drainPending (calls.foldl Processor.call {})) = p at *
  constructor
  · intro hdeleted
    have hlast : ∀ obj ∈ objs, obj.ns = multipartNs →
        (p.writtenObjs.filter (·.ns = multipartNs)).getLast? = some obj :=
      fun obj hmem hns => (hdeleted obj hmem).resolve_left fun h => h.2 hns
    refine ⟨fun obj hobj obj' hobj' hns hns' => ?_, fun hmem => ?_⟩
    · exact Option.some.inj ((hlast obj hobj hns).symm.trans (hlast obj' hobj' hns'))
    · have hns : ({} : AioObj).ns ≠ multipartNs := by decide
      refine ((hdeleted {} hmem).resolve_right fun h => hns ?_).1
      simpa using (mem_filter.mp (mem_of_getLast? h)).2
  · rintro ⟨hone, hdefault⟩ obj hmem
    have hkept : obj ∈ objs.dropWhile (· = {}) := by
      have hsplit := hmem
      rw [← takeWhile_append_dropWhile (p := (· = {})) (l := objs), mem_append] at hsplit
      rcases hsplit with hdropped | hkept
      · obtain rfl : obj = {} := by simpa using mem_takeWhile_imp hdropped
        exact hdefault hmem
      · exact hkept
    by_cases hns : obj.ns = multipartNs
    · right
      cases hlast : (p.writtenObjs.filter (·.ns = multipartNs)).getLast? with
      | none =>
        have hempty := filter_eq_nil_iff.mp (getLast?_eq_none_iff.mp hlast) obj
          ((hdrained.written obj).mpr hkept)
        exact absurd hns (by simpa using hempty)
      | some obj' =>
        obtain ⟨hmem', hns'⟩ := mem_filter.mp (mem_of_getLast? hlast)
        have hobjs' := (dropWhile_sublist _).subset ((hdrained.written obj').mp hmem')
        rw [hone obj' hobjs' obj hmem (by simpa using hns') hns]
    · exact .inl ⟨hkept, hns⟩

/-- Of two objects of the multipart namespace only the last one is deleted. -/
theorem written_part_left_behind :
    ¬ DeletesAll [.handleObjData { object := [49], ns := multipartNs },
      .handleObjData { object := [50], ns := multipartNs }] := by
  intro hdeleted
  exact absurd (hdeleted { object := [49], ns := multipartNs } (by decide)) (by decide)

end RadosGateway.Cleanup
