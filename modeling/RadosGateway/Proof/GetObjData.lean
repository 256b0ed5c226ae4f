import RadosGateway.GetObjData

/-!
# Reads are delivered in order

Of the reads issued, in the order of their offsets, those whose data has left `io_map` are the first
ones, and so are those whose completion has left `completion_map`; a completion leaves only when its
callback is over.
-/

namespace RadosGateway.GetObjData

open Text Pieces Transition Option
open List hiding Chain le_refl span

variable {r : Int} {c : Callback} {pos : Nat}

def Aio.piece (a : Aio) : Nat × Nat := (a.ofs, a.len)

def Aio.Failed (a : Aio) : Prop := ∃ r, a.completion = .complete r ∧ r < 0

def Aio.Succeeded (a : Aio) : Prop := ∃ r, a.completion = .complete r ∧ 0 ≤ r

def Callback.Over : Callback → Prop
  | .failing _ => True
  | .finished => True
  | _ => False

def Aio.Called (a : Aio) : Prop :=
  match a.callback with
  | .idle => True
  | .called | .entering => a.Succeeded
  | .failing _ | .finished => a.Succeeded ∨ a.Failed

def Aio.bytes (body : Nat → UInt8) (a : Aio) : Bytes :=
  match a.completion with
  | .complete r => if r < 0 then [] else span body a.ofs a.len
  | _ => []

def Aio.entry (body : Nat → UInt8) (a : Aio) : Nat × Bytes := (a.ofs, a.bytes body)

def Aio.key (a : Aio) : Nat × Unit := (a.ofs, ())

theorem Aio.bytes_of_succeeded {body : Nat → UInt8} {a : Aio} (h : a.Succeeded) :
    a.bytes body = span body a.ofs a.len := by
  obtain ⟨r, hr, hpos⟩ := h
  unfold Aio.bytes
  rw [hr]
  exact if_neg (by omega)

theorem Aio.not_failed_of_succeeded {a : Aio} (h : a.Succeeded) : ¬ a.Failed := by
  rintro ⟨r, hr, hneg⟩
  obtain ⟨r', hr', hpos⟩ := h
  rw [hr] at hr'
  cases hr'
  omega

theorem Aio.called_of_over {a : Aio} (h : a.Succeeded ∨ a.Failed) (hc : c.Over) :
    ({ a with callback := c } : Aio).Called := by
  cases c with
  | idle | called | entering => exact hc.elim
  | failing r | finished => exact h

variable {aios : List Aio} {base : Nat}

theorem lt_of_chain_append {a b : Aio} {l l' : List Aio}
    (h : Chain base ((l ++ l').map Aio.piece)) (ha : a ∈ l) (hb : b ∈ l') : a.ofs < b.ofs := by
  have hpair := h.pairwise
  rw [List.map_map, map_append, pairwise_append] at hpair
  exact hpair.2.2 _ (List.mem_map_of_mem ha) _ (List.mem_map_of_mem hb)

theorem nodup_of_chain (h : Chain base (aios.map Aio.piece)) : (aios.map Aio.ofs).Nodup := by
  have hpair := h.pairwise
  rw [List.map_map] at hpair
  exact hpair.imp fun hlt => Nat.ne_of_lt hlt

theorem eq_of_chain (h : Chain base (aios.map Aio.piece)) {a b : Aio} (ha : a ∈ aios)
    (hb : b ∈ aios)
    (heq : a.ofs = b.ofs) : a = b :=
  inj_on_of_nodup_map (nodup_of_chain h) ha hb heq

theorem find_eq_some {s : State} {a : Aio} {ofs : Nat} (h : s.find ofs = some a) :
    a ∈ s.aioData ∧ a.ofs = ofs := by
  refine ⟨mem_of_find?_eq_some h, ?_⟩
  have := find?_some h
  exact of_decide_eq_true this

theorem find_of_mem {s : State} (h : Chain base (s.aioData.map Aio.piece)) {a : Aio}
    (ha : a ∈ s.aioData) :
    s.find a.ofs = some a := by
  have hsome : (s.find a.ofs).isSome := find?_isSome.mpr ⟨a, ha, decide_eq_true rfl⟩
  obtain ⟨b, hb⟩ := isSome_iff_exists.mp hsome
  obtain ⟨hmem, hofs⟩ := find_eq_some hb
  rw [hb, eq_of_chain h hmem ha hofs]

variable {find : Nat → Option Aio} {i i' : Issuer} {count : Int} {caller : Caller} {curOfs : Nat}

/-- What is taken is a front of reads that all succeeded. -/
theorem takeComplete_spec (body : Nat → UInt8) (hfind : ∀ a ∈ aios, find a.ofs = some a) :
    ∃ taken rest, aios = taken ++ rest ∧ (∀ a ∈ taken, a.Succeeded) ∧
      ∃ err, takeComplete find (aios.map Aio.key) (aios.map (Aio.entry body)) =
          (err, taken.map (Aio.bytes body), rest.map (Aio.entry body)) ∧
        (err = none ∧ (∀ a ∈ rest.head?, ¬ a.Succeeded ∧ ¬ a.Failed) ∨
          ∃ r, err = some r ∧ ∃ a ∈ rest.head?, a.Failed) := by
  induction aios with
  | nil => exact ⟨[], [], rfl, forall_mem_nil _, none, rfl, .inl ⟨rfl, by simp⟩⟩
  | cons a aios ih =>
    obtain ⟨ha, htail⟩ := forall_mem_cons.mp hfind
    obtain ⟨ofs, len, completion, callback⟩ := a
    cases completion with
    | created | inFlight =>
      refine ⟨[], _, rfl, forall_mem_nil _, none, ?_, .inl ⟨rfl, ?_⟩⟩
      · simp only [map_cons, Aio.key, takeComplete, ha, map_nil]
      · simp [Aio.Succeeded, Aio.Failed]
    | complete r =>
      by_cases hneg : r < 0
      · refine ⟨[], _, rfl, forall_mem_nil _, some r, ?_, .inr ⟨r, rfl, _, rfl, r, rfl, hneg⟩⟩
        simp only [map_cons, Aio.key, Aio.entry, takeComplete, ha, if_pos hneg, map_nil]
      · obtain ⟨taken, rest, heq, hsucc, err, htake, herr⟩ := ih htail
        refine ⟨⟨ofs, len, .complete r, callback⟩ :: taken, rest, ?_, ?_, err, ?_, herr⟩
        · rw [heq, cons_append]
        · exact forall_mem_cons.mpr ⟨⟨r, rfl, by omega⟩, hsucc⟩
        · simp only [map_cons, Aio.key, Aio.entry, takeComplete, ha, if_neg hneg]
          rw [htake]

def Issuer.hand : Issuer → List Bytes
  | .handle l _ _ => l
  | _ => []

def Job.finish (job : Job) : Nat := job.ofs + total (job.requests.map Request.piece)

variable {job : Job} {s s' : State} {p n m : Nat}

structure Left (job : Job) (pos : Nat) (rest : List Request) : Prop where
  chain : Chain pos (rest.map Request.piece)
  finish : pos + total (rest.map Request.piece) = job.finish
  head : ∀ q ∈ rest, q.ofs < job.data.length → q.isHead = true

def State.issued (s : State) (base : Nat) : Nat := base + total (s.aioData.map Aio.piece)

structure Reaches (cancelled : Bool) (issued pos : Nat) : Prop where
  le : issued ≤ pos
  eq : cancelled = false → issued = pos

structure Fresh (aioData : List Aio) (readList : List Bytes) (base pos : Nat) : Prop where
  aioData : aioData = []
  readList : readList = []
  base_eq : base = pos

def At (job : Job) (s : State) (base : Nat) : Issuer → Prop
  | .request rest =>
    ∃ pos, Left job pos rest ∧ Reaches s.cancelled (s.issued base) pos ∧
      (pos < job.data.length → Fresh s.aioData s.readList base pos)
  | .direct ofs len rest =>
    Left job ofs (⟨ofs, len, true⟩ :: rest) ∧ ofs < job.data.length ∧
      Fresh s.aioData s.readList base ofs
  | .throttle ofs len rest | .check ofs len rest =>
    Left job ofs (⟨ofs, len, true⟩ :: rest) ∧ job.data.length ≤ ofs ∧
      Reaches s.cancelled (s.issued base) ofs
  | .addIo ofs len rest =>
    Left job ofs (⟨ofs, len, true⟩ :: rest) ∧ job.data.length ≤ ofs ∧ s.issued base = ofs
  | .operate ofs rest =>
    Left job (s.issued base) rest ∧ job.data.length ≤ s.issued base ∧
      ∃ a ∈ s.aioData, a.ofs = ofs ∧ a.completion = .created
  | .flush (.issue rest) | .handle _ _ (.issue rest) =>
    ∃ pos, Left job pos rest ∧ Reaches s.cancelled (s.issued base) pos ∧ job.data.length ≤ pos
  | .flush (.wait done) => Reaches s.cancelled (s.issued base) job.finish ∧
    (done = true → s.completionMap = [])
  | .handle _ _ (.wait done) =>
    Reaches s.cancelled (s.issued base) job.finish ∧
      (done = true → s.completionMap = [] ∧ s.readList = [])
  | .waitNext => Reaches s.cancelled (s.issued base) job.finish
  | .waiting curOfs => Reaches s.cancelled (s.issued base) job.finish ∧ ∃ tail,
    s.completionMap = (curOfs, ()) :: tail
  | .returned _ => False

/-- The first `n` reads have left `io_map`, the first `m` have left `completion_map`, and the data
of the first `p` was passed on. These are fewer than `n` only when the loop of `get_complete_ios`
has met an error. -/
structure Live (job : Job) (s : State) (base p n m : Nat) : Prop where
  base_ge : job.ofs ≤ base
  chain : Chain base (s.aioData.map Aio.piece)
  passed_le : p ≤ n
  taken_le : n ≤ s.aioData.length
  erased_le : m ≤ s.aioData.length
  ioMap : s.ioMap = (s.aioData.drop n).map (Aio.entry job.body)
  completionMap : s.completionMap = (s.aioData.drop m).map Aio.key
  erased : ∀ a ∈ s.aioData.take m, a.callback = .finished
  called : ∀ a ∈ s.aioData, a.Called
  stopped : p = n ∨ ∃ a, s.aioData[n]? = some a ∧ a.Failed
  first : ∀ a, s.aioData[n]? = some a → a.callback.Over → s.cancelled = true
  passed : s.delivered ++ (s.issuer.hand ++ s.readList).flatten =
    span job.body job.ofs (base + total ((s.aioData.take p).map Aio.piece) - job.ofs)
  position : At job s base s.issuer

theorem live_of_fresh (hbase : job.ofs ≤ base) (haioData : s.aioData = []) (hioMap : s.ioMap = [])
    (hcompletionMap : s.completionMap = []) (hreadList : s.readList = [])
    (hhand : s.issuer.hand = [])
    (hdelivered : s.delivered = span job.body job.ofs (base - job.ofs))
    (hposition : At job s base s.issuer) :
    Live job s base 0 0 0 where
  base_ge := hbase
  chain := by
    rw [haioData]
    trivial
  passed_le := le_refl _
  taken_le := Nat.zero_le _
  erased_le := Nat.zero_le _
  ioMap := by
    rw [hioMap, haioData]
    rfl
  completionMap := by
    rw [hcompletionMap, haioData]
    rfl
  erased := forall_mem_nil _
  called := by
    rw [haioData]
    exact forall_mem_nil _
  stopped := .inl rfl
  first := by
    rw [haioData]
    exact fun a ha => nomatch ha
  passed := by
    rw [hdelivered, hhand, hreadList]
    exact append_nil _
  position := hposition

theorem live_init (job : Job) : Live job (init job) job.ofs 0 0 0 := by
  apply live_of_fresh (le_refl _) rfl rfl rfl rfl rfl
  · rw [Nat.sub_self]
    rfl
  · exact ⟨job.ofs, ⟨job.adjacent, rfl, job.head⟩, ⟨le_refl _, fun _ => rfl⟩, fun _ =>
      ⟨rfl, rfl, rfl⟩⟩

theorem Left.le_finish {rest : List Request} (h : Left job pos rest) : pos ≤ job.finish := by
  have := h.finish
  omega

theorem Fresh.issued (h : Fresh s.aioData s.readList base pos) : s.issued base = pos := by
  unfold State.issued
  rw [h.aioData, h.base_eq]
  rfl

/-- No read is issued behind the end of the range. -/
theorem At.issued_le (h : At job s base i) : s.issued base ≤ job.finish := by
  cases i with
  | request rest =>
    obtain ⟨pos, hleft, hreaches, -⟩ := h
    exact hreaches.le.trans hleft.le_finish
  | direct ofs len rest => exact h.2.2.issued.le.trans h.1.le_finish
  | throttle ofs len rest | check ofs len rest | addIo ofs len rest =>
    exact h.2.2.le.trans h.1.le_finish
  | operate ofs rest => exact h.1.le_finish
  | flush caller | handle l r caller =>
    cases caller with
    | issue rest =>
      obtain ⟨pos, hleft, hreaches, -⟩ := h
      exact hreaches.le.trans hleft.le_finish
    | wait done => exact h.1.le
  | waitNext => exact h.le
  | waiting curOfs => exact h.1.le
  | returned r => exact h.elim

theorem total_take_le (l : List (Nat × Nat)) (k : Nat) : total (l.take k) ≤ total l := by
  conv_rhs => rw [← take_append_drop k l]
  rw [total_append]
  exact Nat.le_add_right _ _

theorem Live.beginning (h : Live job s base p n m) :
    s.delivered ++ (s.issuer.hand ++ s.readList).flatten <+: job.range := by
  have hissued := h.position.issued_le
  have htake := total_take_le (s.aioData.map Aio.piece) p
  unfold State.issued at hissued
  unfold Job.finish at hissued
  rw [h.passed]
  apply span_mono
  rw [map_take]
  omega

/-- The place of the issuer is kept by what others do. -/
theorem At.mono (h : At job s base i) (hissued : s'.issued base = s.issued base)
    (hcancelled : s.cancelled = true → s'.cancelled = true)
    (hcompletionMap : s'.completionMap = s.completionMap) (hne : s.aioData ≠ [])
    (hreadList : s.completionMap = [] → s.readList = [] → s'.readList = [])
    (hcreated : ∀ ofs rest, i = .operate ofs rest →
      (∃ a ∈ s.aioData, a.ofs = ofs ∧ a.completion = .created) →
        ∃ a ∈ s'.aioData, a.ofs = ofs ∧ a.completion = .created) : At job s' base i := by
  have hreaches : ∀ {pos}, Reaches s.cancelled (s.issued base) pos →
  Reaches s'.cancelled (s'.issued base) pos := by
    intro pos hr
    refine ⟨hissued.le.trans hr.le, fun hfalse => hissued.trans (hr.eq ?_)⟩
    apply Bool.eq_false_iff.mpr
    intro htrue
    rw [hcancelled htrue] at hfalse
    cases hfalse
  have hfresh : ∀ {pos}, Fresh s.aioData s.readList base pos →
      Fresh s'.aioData s'.readList base pos := fun hf => absurd hf.aioData hne
  cases i with
  | request rest =>
    obtain ⟨pos, hleft, hr, hf⟩ := h
    exact ⟨pos, hleft, hreaches hr, fun hlt => hfresh (hf hlt)⟩
  | direct ofs len rest => exact ⟨h.1, h.2.1, hfresh h.2.2⟩
  | throttle ofs len rest | check ofs len rest => exact ⟨h.1, h.2.1, hreaches h.2.2⟩
  | addIo ofs len rest => exact ⟨h.1, h.2.1, hissued.trans h.2.2⟩
  | operate ofs rest =>
    obtain ⟨hleft, hle, hat⟩ := h
    rw [← hissued] at hleft hle
    exact ⟨hleft, hle, hcreated ofs rest rfl hat⟩
  | flush caller =>
    cases caller with
    | issue rest =>
      obtain ⟨pos, hleft, hr, hle⟩ := h
      exact ⟨pos, hleft, hreaches hr, hle⟩
    | wait done => exact ⟨hreaches h.1, fun hdone => hcompletionMap.trans (h.2 hdone)⟩
  | handle l r caller =>
    cases caller with
    | issue rest =>
      obtain ⟨pos, hleft, hr, hle⟩ := h
      exact ⟨pos, hleft, hreaches hr, hle⟩
    | wait done =>
      refine ⟨hreaches h.1, fun hdone => ?_⟩
      obtain ⟨hempty, hlist⟩ := h.2 hdone
      exact ⟨hcompletionMap.trans hempty, hreadList hempty hlist⟩
  | waitNext => exact hreaches h
  | waiting curOfs =>
    obtain ⟨hr, tail, htail⟩ := h
    exact ⟨hreaches hr, tail, hcompletionMap.trans htail⟩
  | returned r => exact h.elim

variable {ofs : Nat} {a : Aio} {f : Aio → Aio}

theorem map_map_update {β : Type*} {g : Aio → β} (hg : ∀ b, g (f b) = g b) (l : List Aio) :
    (l.map fun b => if b.ofs = ofs then f b else b).map g = l.map g := by
  rw [List.map_map]
  apply map_congr_left
  intro b _
  change g (if b.ofs = ofs then f b else b) = g b
  split_ifs
  · exact hg b
  · rfl

theorem Live.update_cases (h : Live job s base p n m) (hfind : s.find ofs = some a) {b : Aio}
    (hb : b ∈ s.aioData) :
    b = a ∧ (if b.ofs = ofs then f b else b) = f a ∨ (if b.ofs = ofs then f b else b) = b := by
  obtain ⟨ha, hofs⟩ := find_eq_some hfind
  by_cases heq : b.ofs = ofs
  · have hba := eq_of_chain h.chain hb ha (heq.trans hofs.symm)
    rw [if_pos heq, hba]
    exact .inl ⟨rfl, rfl⟩
  · rw [if_neg heq]
    exact .inr rfl

structure Unmoved (s s' : State) : Prop where
  completionMap : s'.completionMap = s.completionMap
  issuer : s'.issuer = s.issuer
  delivered : s'.delivered = s.delivered

section

variable (h : Live job s base p n m)
include h

theorem Live.update (hfind : s.find ofs = some a) (hpiece : ∀ b, (f b).piece = b.piece)
    (haioData : s'.aioData = (s.update ofs f).aioData)
    (hioMap : s'.ioMap = (s'.aioData.drop n).map (Aio.entry job.body))
    (hunmoved : Unmoved s s') (hreadList : s'.readList = s.readList)
    (hcancelled : s.cancelled = true → s'.cancelled = true)
    (hfinished : a.callback = .finished → (f a).callback = .finished) (hcalled : (f a).Called)
    (hfailed : a.Failed → (f a).Failed)
    (hcreated : ∀ rest, s.issuer = .operate ofs rest → a.completion = .created →
      (f a).completion = .created)
    (hfirst : s.aioData[n]? = some a → (f a).callback.Over → s'.cancelled = true) :
    Live job s' base p n m := by
  obtain ⟨ha, hofs⟩ := find_eq_some hfind
  have hpieces : s'.aioData.map Aio.piece = s.aioData.map Aio.piece := by
    rw [haioData]
    exact map_map_update hpiece _
  have hissued : s'.issued base = s.issued base := by
    unfold State.issued
    rw [hpieces]
  refine
    { base_ge := h.base_ge
      chain := by
        rw [hpieces]
        exact h.chain
      passed_le := h.passed_le
      taken_le := by
        rw [haioData]
        exact h.taken_le.trans (length_map _).ge
      erased_le := by
        rw [haioData]
        exact h.erased_le.trans (length_map _).ge
      ioMap := hioMap
      completionMap := ?_
      erased := ?_
      called := ?_
      stopped := ?_
      first := ?_
      passed := ?_
      position := ?_ }
  · rw [hunmoved.completionMap, h.completionMap, haioData, map_drop, map_drop]
    have hkey : ∀ b, (f b).key = b.key := fun b => congrArg (fun q => (q.1, ())) (hpiece b)
    exact congrArg (List.drop m) (map_map_update hkey _).symm
  · rw [haioData]
    intro b hb
    obtain ⟨b₀, hb₀, rfl⟩ := List.mem_map.mp (map_take ▸ hb)
    have hdone := h.erased b₀ hb₀
    rcases h.update_cases (f := f) hfind (mem_of_mem_take hb₀) with ⟨rfl, heq⟩ | heq
    · rw [heq]
      exact hfinished hdone
    · rw [heq]
      exact hdone
  · rw [haioData]
    intro b hb
    obtain ⟨b₀, hb₀, rfl⟩ := List.mem_map.mp hb
    rcases h.update_cases (f := f) hfind hb₀ with ⟨rfl, heq⟩ | heq
    · rw [heq]
      exact hcalled
    · rw [heq]
      exact h.called b₀ hb₀
  · rcases h.stopped with heq | ⟨b, hb, hbad⟩
    · exact .inl heq
    · refine .inr ⟨if b.ofs = ofs then f b else b, ?_, ?_⟩
      · rw [haioData]
        change (s.aioData.map _)[n]? = _
        rw [getElem?_map, hb]
        rfl
      · rcases h.update_cases (f := f) hfind (mem_of_getElem? hb) with ⟨rfl, heq⟩ | heq
        · rw [heq]
          exact hfailed hbad
        · rw [heq]
          exact hbad
  · intro b hb hover
    rw [haioData] at hb
    change (s.aioData.map _)[n]? = _ at hb
    rw [getElem?_map] at hb
    obtain ⟨b₀, hb₀, rfl⟩ := map_eq_some_iff.mp hb
    rcases h.update_cases (f := f) hfind (mem_of_getElem? hb₀) with ⟨rfl, heq⟩ | heq
    · rw [heq] at hover
      exact hfirst hb₀ hover
    · rw [heq] at hover
      exact hcancelled (h.first b₀ hb₀ hover)
  · rw [hunmoved.delivered, hunmoved.issuer, hreadList, h.passed, map_take, map_take, hpieces]
  · rw [hunmoved.issuer]
    apply h.position.mono hissued hcancelled hunmoved.completionMap (ne_nil_of_mem ha)
    · exact fun _ hempty => hreadList.trans hempty
    · rintro ofs' rest hissuer' ⟨b, hb, hofs', hb'⟩
      refine ⟨if b.ofs = ofs then f b else b, ?_, ?_⟩
      · rw [haioData]
        exact List.mem_map_of_mem hb
      · rcases h.update_cases (f := f) hfind hb with ⟨rfl, heq⟩ | heq
        · rw [heq]
          rw [← hofs', hofs] at hissuer'
          have hsame : (f b).ofs = b.ofs := congrArg Prod.fst (hpiece b)
          exact ⟨hsame.trans hofs', hcreated rest hissuer' hb'⟩
        · rw [heq]
          exact ⟨hofs', hb'⟩

theorem Live.setCallback (hfind : s.find ofs = some a)
    (hat : a.callback ≠ .finished) (hcalled : ({ a with callback := c } : Aio).Called)
    (haioData : s'.aioData = (s.setCallback ofs c).aioData) (hioMap : s'.ioMap = s.ioMap)
    (hunmoved : Unmoved s s') (hreadList : s'.readList = s.readList)
    (hcancelled : s.cancelled = true → s'.cancelled = true)
    (hfirst : s.aioData[n]? = some a → c.Over → s'.cancelled = true) : Live job s' base p n m := by
  have hentries : s'.ioMap = (s'.aioData.drop n).map (Aio.entry job.body) := by
    rw [hioMap, h.ioMap, haioData, map_drop, map_drop]
    exact congrArg (List.drop n) (map_map_update (f := fun b => { b with callback := c }) (fun _ =>
      rfl) _).symm
  exact h.update (f := fun b => { b with callback := c }) hfind (fun _ =>
    rfl) haioData hentries hunmoved hreadList hcancelled
    (fun hfinished => absurd hfinished hat) hcalled id (fun _ _ => id) hfirst

/-- A read is complete: its bytes are in the map. -/
theorem Live.setComplete {len : Nat} (hfind : s.find ofs = some ⟨ofs, len, .inFlight, c⟩)
    (haioData : s'.aioData = (s.setCompletion ofs (.complete r)).aioData)
    (hioMap : s'.ioMap = s.ioMap.map fun e =>
      if e.1 = ofs then (e.1, e.2 ++ Aio.bytes job.body ⟨ofs, len, .complete r, c⟩) else e)
    (hunmoved : Unmoved s s') (hreadList : s'.readList = s.readList)
    (hcancelled : s'.cancelled = s.cancelled) : Live job s' base p n m := by
  obtain ⟨ha, -⟩ := find_eq_some hfind
  have hidle : c = .idle := by
    have := h.called _ ha
    cases c <;> simp_all [Aio.Called, Aio.Succeeded, Aio.Failed]
  subst hidle
  apply h.update (f := fun b => { b with completion := .complete r }) hfind (fun _ =>
    rfl) haioData ?_
    hunmoved hreadList (fun htrue => hcancelled.trans htrue) id trivial
  · rintro ⟨r, hr, -⟩
    cases hr
  · intro _ _ hcreated
    cases hcreated
  · exact fun _ hover => hover.elim
  · rw [hioMap, h.ioMap, haioData]
    change _ = ((s.aioData.map _).drop n).map _
    rw [← map_drop, List.map_map, List.map_map]
    apply map_congr_left
    intro b hb
    rcases h.update_cases (f := fun b =>
      { b with completion := .complete r }) hfind (mem_of_mem_drop hb)
      with ⟨rfl, heq⟩ | heq
    · simp [Aio.entry, Aio.bytes]
    · by_cases hofs : b.ofs = ofs
      · rw [if_pos hofs] at heq
        have hb' := eq_of_chain h.chain (mem_of_mem_drop hb) ha hofs
        rw [hb'] at heq
        cases heq
      · simp [Aio.entry, hofs]

/-- Step lemma of reads that are complete. -/
theorem Live.complete (hstep : complete job s ofs r = some s') : Live job s' base p n m := by
  unfold GetObjData.complete at hstep
  split at hstep
  case h_2 => cases hstep
  case h_1 ofs' len c hfind =>
      obtain rfl : ofs' = ofs := (find_eq_some hfind).2
      by_cases hneg : r < 0
      · rw [if_pos hneg] at hstep
        cases hstep
        refine h.setComplete hfind rfl ?_ ⟨rfl, rfl, rfl⟩ rfl rfl
        simp only [Aio.bytes, if_pos hneg, append_nil]
        simp [State.setCompletion, State.update]
      · rw [if_neg hneg] at hstep
        split_ifs at hstep with hlen
        cases hstep
        refine h.setComplete hfind rfl ?_ ⟨rfl, rfl, rfl⟩ rfl rfl
        simp only [Aio.bytes, if_neg hneg]

end

theorem Live.completionMap_ne_nil (h : Live job s base p n m) (ha : a ∈ s.aioData)
    (hat : a.callback ≠ .finished) : s.completionMap ≠ [] := by
  intro hempty
  rw [h.completionMap, map_eq_nil_iff, drop_eq_nil_iff] at hempty
  have := h.erased a
  rw [take_of_length_le hempty] at this
  exact hat (this ha)

theorem Live.dropWhile_completionMap (h : Live job s base p n m) (ha : s.aioData[n]? = some a)
    (hat : a.callback ≠ .finished) :
    s.completionMap.dropWhile (·.1 ≠ a.ofs) = (s.aioData.drop n).map Aio.key := by
  obtain ⟨hlt, hget⟩ := List.getElem?_eq_some_iff.mp ha
  have hm : m ≤ n := by
    by_contra hlt'
    apply hat
    apply h.erased
    exact mem_take_iff_getElem.mpr ⟨n, by omega, hget⟩
  have hsplit : s.aioData.drop m = (s.aioData.drop m).take (n - m) ++ s.aioData.drop n := by
    conv_lhs => rw [← take_append_drop (n - m) (s.aioData.drop m)]
    rw [drop_drop, Nat.add_sub_cancel' hm]
  have hchain := h.chain
  rw [← take_append_drop n s.aioData] at hchain
  have hdrop : s.aioData.drop n = a :: s.aioData.drop (n + 1) := by
    rw [drop_eq_getElem_cons hlt, hget]
  rw [h.completionMap, hsplit, map_append, dropWhile_append_of_pos]
  · rw [hdrop, map_cons]
    exact dropWhile_cons_of_neg (by simp [Aio.key])
  · intro e he
    obtain ⟨b, hb, rfl⟩ := List.mem_map.mp he
    have hb' : b ∈ s.aioData.take n := by
      rw [take_drop, Nat.add_sub_cancel' hm] at hb
      exact mem_of_mem_drop hb
    have hlt := lt_of_chain_append hchain hb' (hdrop ▸ mem_cons_self)
    exact decide_eq_true (Nat.ne_of_lt hlt)

theorem total_take_add {taken rest : List Aio} (h : aios.drop n = taken ++ rest) :
    total ((aios.take (n + taken.length)).map Aio.piece) =
      total ((aios.take n).map Aio.piece) + total (taken.map Aio.piece) := by
  rw [take_add, h, take_left, map_append, total_append]

theorem drop_add_length {taken rest : List Aio} (h : aios.drop n = taken ++ rest) :
    aios.drop (n + taken.length) = rest := by
  rw [← drop_drop, h, drop_left]

section

variable (h : Live job s base p n m)
include h

/-- A callback moves the successful front to the list of reads. -/
theorem Live.push (ha : a ∈ s.aioData) (hat : a.callback ≠ .finished)
    {taken rest : List Aio} (hsplit : s.aioData.drop n = taken ++ rest) (hp : p = n)
    (htaken : ∀ b ∈ taken, b.Succeeded) (hrest : ∀ b ∈ rest.head?, ¬ b.Succeeded ∧ ¬ b.Failed) :
    Live job { s with
        ioMap := rest.map (Aio.entry job.body),
        readList := s.readList ++ taken.map (Aio.bytes job.body) } base (n + taken.length) (n +
          taken.length) m := by
  subst hp
  have hlength := congrArg List.length hsplit
  rw [length_drop, length_append] at hlength
  have hle := h.taken_le
  refine
    { h with
      passed_le := le_refl _
      taken_le := ?_
      ioMap := ?_
      stopped := .inl rfl
      first := ?_
      passed := ?_
      position := ?_ }
  · dsimp only
    omega
  · exact congrArg _ (drop_add_length hsplit).symm
  · intro b hb hover
    rw [← head?_drop, drop_add_length hsplit] at hb
    obtain ⟨hnot, hnot'⟩ := hrest b hb
    have hcalled := h.called b (mem_of_mem_drop (hsplit ▸ mem_append_right _ (mem_of_head? hb)))
    unfold Aio.Called at hcalled
    cases hc : b.callback <;> rw [hc] at hover hcalled
    · exact hover.elim
    · exact hover.elim
    · exact hover.elim
    · exact (hcalled.elim hnot hnot').elim
    · exact (hcalled.elim hnot hnot').elim
  · have hchain := h.chain
    rw [← take_append_drop p s.aioData, map_append, chain_append, hsplit, map_append,
      chain_append] at hchain
    have hbytes : (taken.map (Aio.bytes job.body)).flatten =
        (taken.map Aio.piece).flatMap fun q => span job.body q.1 q.2 := by
      rw [flatMap_map, ← flatMap_def]
      exact flatMap_congr fun b hb => Aio.bytes_of_succeeded (htaken b hb)
    rw [← append_assoc s.issuer.hand, flatten_append, ← append_assoc, h.passed, hbytes,
      hchain.2.1.flatMap_span, total_take_add hsplit,
        span_append_sub _ _ (h.base_ge.trans (Nat.le_add_right _ _)),
      add_assoc]
  · refine h.position.mono rfl id rfl (ne_nil_of_mem ha) ?_ ?_
    · exact fun hempty => absurd hempty (h.completionMap_ne_nil ha hat)
    · exact fun _ _ _ => id

/-- A callback stops at a read that failed. -/
theorem Live.drop (ha : a ∈ s.aioData)
    {taken rest : List Aio} (hsplit : s.aioData.drop n = taken ++ rest) (hp : p = n)
    (hrest : ∃ b ∈ rest.head?, b.Failed) : Live job { s with
        ioMap := rest.map (Aio.entry job.body),
        cancelled := true } base p (n + taken.length) m := by
  have hlength := congrArg List.length hsplit
  rw [length_drop, length_append] at hlength
  have hle := h.taken_le
  refine
    { h with
      passed_le := hp.le.trans (Nat.le_add_right _ _)
      taken_le := ?_
      ioMap := ?_
      stopped := .inr ?_
      first := fun _ _ _ => rfl
      position := ?_ }
  · dsimp only
    omega
  · exact congrArg _ (drop_add_length hsplit).symm
  · obtain ⟨b, hb, hfailed⟩ := hrest
    refine ⟨b, ?_, hfailed⟩
    rw [← head?_drop, drop_add_length hsplit]
    exact hb
  · refine h.position.mono rfl (fun _ => rfl) rfl (ne_nil_of_mem ha) ?_ ?_
    · exact fun _ => id
    · exact fun _ _ _ => id

theorem Live.getCompleteIos_of_first (hfind : s.find ofs = some a)
    (hat : a.callback = .entering) (hfirst : s.aioData[n]? = some a) : getCompleteIos s ofs =
      takeComplete s.find ((s.aioData.drop n).map Aio.key)
    ((s.aioData.drop n).map (Aio.entry job.body)) := by
  obtain ⟨ha, rfl⟩ := find_eq_some hfind
  obtain ⟨hlt, hget⟩ := List.getElem?_eq_some_iff.mp hfirst
  have hcalled := h.called a ha
  unfold Aio.Called at hcalled
  rw [hat] at hcalled
  obtain ⟨r, hr, hpos⟩ := hcalled
  have hio : s.ioMap =
      Aio.entry job.body a :: (s.aioData.drop (n + 1)).map (Aio.entry job.body) := by
    rw [h.ioMap, drop_eq_getElem_cons hlt, hget, map_cons]
  have hvalue : ¬ (a.ofs ≠ a.ofs ∨ a.completion.returnValue < 0) := by
    rw [hr]
    change ¬ (a.ofs ≠ a.ofs ∨ r < 0)
    omega
  rw [← h.dropWhile_completionMap hfirst (by simp [hat]), ← h.ioMap]
  unfold getCompleteIos
  rw [hfind, hio]
  exact if_neg hvalue

/-- The callback of a read that is not the first one passes nothing on. -/
theorem Live.getCompleteIos_of_not_first (hfind : s.find ofs = some a)
    (hfirst : s.aioData[n]? ≠ some a) : getCompleteIos s ofs = (none, [], s.ioMap) := by
  obtain ⟨ha, rfl⟩ := find_eq_some hfind
  unfold getCompleteIos
  rw [hfind]
  cases hdrop : s.aioData.drop n with
  | nil =>
    have hio : s.ioMap = [] := by rw [h.ioMap, hdrop, map_nil]
    rw [hio]
  | cons b rest =>
    have hio : s.ioMap = Aio.entry job.body b :: rest.map (Aio.entry job.body) := by
      rw [h.ioMap, hdrop, map_cons]
    have hb : s.aioData[n]? = some b := by rw [← head?_drop, hdrop, head?_cons]
    have hne : b.ofs ≠ a.ofs := by
      intro heq
      rw [eq_of_chain h.chain (mem_of_getElem? hb) ha heq] at hb
      exact hfirst hb
    rw [hio]
    exact if_pos (.inl hne)

theorem Live.enter (hfind : s.find a.ofs = some a) (hat : a.callback = .entering)
    (hstep : stepCallback s a = some s') : ∃ p' n', Live job s' base p' n' m := by
  obtain ⟨ha, -⟩ := find_eq_some hfind
  have hne : a.callback ≠ .finished := by simp [hat]
  have hsucceeded : a.Succeeded := by
    have := h.called a ha
    unfold Aio.Called at this
    rwa [hat] at this
  have hover : ∀ c : Callback, c.Over → ({ a with callback := c } : Aio).Called :=
    fun _ => Aio.called_of_over (.inl hsucceeded)
  unfold stepCallback at hstep
  rw [hat] at hstep
  by_cases hfirst : s.aioData[n]? = some a
  · rw [h.getCompleteIos_of_first hfind hat hfirst] at hstep
    have hp : p = n := by
      rcases h.stopped with hp | ⟨b, hb, hfailed⟩
      · exact hp
      · rw [hfirst] at hb
        cases hb
        exact absurd hfailed (Aio.not_failed_of_succeeded hsucceeded)
    obtain ⟨taken, rest, hsplit, htaken, err, htake, herr⟩ :=
      takeComplete_spec job.body fun b hb => find_of_mem h.chain (mem_of_mem_drop hb)
    rw [htake] at hstep
    rcases herr with ⟨rfl, hrest⟩ | ⟨r, rfl, hrest⟩
    · cases hstep
      have hpush := h.push ha hne hsplit hp htaken hrest
      refine ⟨_, _, hpush.setCallback hfind hne (hover .finished trivial) rfl rfl ⟨rfl, rfl,
        rfl⟩ rfl id ?_⟩
      intro hlast
      rw [← head?_drop, drop_add_length hsplit] at hlast
      exact absurd hsucceeded (hrest a hlast).1
    · cases hstep
      have hdrop := h.drop ha hsplit hp hrest
      exact ⟨_, _, hdrop.setCallback hfind hne (hover (.failing r) trivial) rfl rfl ⟨rfl, rfl,
        rfl⟩ rfl id fun _ _ => rfl⟩
  · rw [h.getCompleteIos_of_not_first hfind hfirst] at hstep
    cases hstep
    refine ⟨p, n, h.setCallback hfind hne (hover .finished trivial) rfl rfl ⟨rfl, rfl,
      rfl⟩ ?_ id ?_⟩
    · exact append_nil _
    · exact fun hfirst' => absurd hfirst' hfirst

/-- Step lemma of callbacks. -/
theorem Live.callback (hcallback : callback s ofs = some s') :
    ∃ p' n', Live job s' base p' n' m := by
  obtain ⟨a, hfind, hstep⟩ := bind_eq_some_iff.mp hcallback
  obtain ⟨ha, rfl⟩ := find_eq_some hfind
  have hcalled := h.called a ha
  unfold Aio.Called at hcalled
  cases hat : a.callback with
  | idle =>
    unfold stepCallback at hstep
    rw [hat] at hstep
    dsimp only at hstep
    cases hr : a.completion with
    | created | inFlight =>
      rw [hr] at hstep
      cases hstep
    | complete r =>
      rw [hr] at hstep
      dsimp only at hstep
      by_cases hneg : r < 0
      · rw [if_pos hneg] at hstep
        cases hstep
        have hfailing := Aio.called_of_over (c := .failing r) (.inr ⟨r, hr, hneg⟩) trivial
        exact ⟨p, n, h.setCallback hfind (by simp [hat]) hfailing rfl rfl ⟨rfl, rfl,
          rfl⟩ rfl (fun _ => rfl)
          fun _ _ => rfl⟩
      · rw [if_neg hneg] at hstep
        cases hstep
        have hsucceeded : ({ a with callback := .called } : Aio).Called := ⟨r, hr, by omega⟩
        exact ⟨p, n, h.setCallback hfind (by simp [hat]) hsucceeded rfl rfl ⟨rfl, rfl, rfl⟩ rfl id
          fun _ hover => hover.elim⟩
  | called =>
    unfold stepCallback at hstep
    rw [hat] at hstep hcalled
    cases hstep
    refine ⟨p, n, h.setCallback hfind (by simp [hat]) ?_ rfl rfl ⟨rfl, rfl, rfl⟩ rfl id ?_⟩
    · split_ifs
      · exact Aio.called_of_over (.inl hcalled) trivial
      · exact hcalled
    · intro _ hover
      change s.cancelled = true
      by_contra hcancelled
      rw [if_neg hcancelled] at hover
      exact hover
  | entering => exact h.enter hfind hat hstep
  | failing r =>
    unfold stepCallback at hstep
    rw [hat] at hstep hcalled
    cases hstep
    have hfinished := Aio.called_of_over (c := .finished) hcalled trivial
    refine ⟨p, n, h.setCallback hfind (by simp [hat]) hfinished rfl rfl ⟨rfl, rfl, rfl⟩ rfl id ?_⟩
    intro hfirst _
    exact h.first a hfirst (by simp [hat, Callback.Over])
  | finished =>
    unfold stepCallback at hstep
    rw [hat] at hstep
    cases hstep

end

structure Clean (s : State) : Prop where
  cancelled : s.cancelled = false
  succeeded : ∀ a ∈ s.aioData, ¬ a.Failed

structure Returns (job : Job) (s : State) (answer : Int) (s' : State) : Prop where
  issuer : ∃ r, s'.issuer = .returned r
  beginning : s'.delivered <+: job.range
  all : 0 ≤ answer → Clean s → s'.delivered = job.range

theorem Live.delivered (h : Live job s base p n m) : s.delivered <+: job.range :=
  (prefix_append _ _).trans h.beginning

theorem Live.returns_of_neg (h : Live job s base p n m) {answer : Int} (hneg : answer < 0)
    (hissuer : ∃ r, s'.issuer = .returned r) (hdelivered : s'.delivered = s.delivered) :
    Returns job s answer s' where
  issuer := hissuer
  beginning := by
    rw [hdelivered]
    exact h.delivered
  all := fun hpos => absurd hneg (by omega)

theorem Live.move (h : Live job s base p n m) (hat : s.issuer = i)
    (hhand : i'.hand = i.hand) (hposition : At job s base i') : Live job { s with
        count := count,
        issuer := i' } base p n m :=
  { h with
    passed := by
      change s.delivered ++ (i'.hand ++ s.readList).flatten = _
      rw [hhand, ← hat]
      exact h.passed
    position := hposition }

def Continues (job : Job) (s : State) (answer : Int) (s' : State) : Prop :=
  (∃ base p n m, Live job s' base p n m) ∨ Returns job s answer s'

variable {answer : Int} {len : Nat} {rest : List Request}

theorem Live.continues (h : Live job s base p n m) (hat : s.issuer = i)
    (hhand : i'.hand = i.hand) (hposition : At job s base i') : Continues job s answer { s with
        count := count,
        issuer := i' } :=
  .inl ⟨base, p, n, m, h.move hat hhand hposition⟩

theorem Left.cons {q : Request} (h : Left job pos (q :: rest)) :
    q.ofs = pos ∧ 0 < q.len ∧ Left job (pos + q.len) rest := by
  obtain ⟨⟨hofs, hpos, hchain⟩, hfinish, hhead⟩ := h
  refine ⟨hofs, hpos, hchain, ?_, (forall_mem_cons.mp hhead).2⟩
  rw [map_cons, total_cons] at hfinish
  change pos + (q.len + _) = _ at hfinish
  omega

theorem Left.of_cons {pos len : Nat} {b : Bool} (hpos : 0 < len)
    (hb : pos < job.data.length → b = true)
    (h : Left job (pos + len) rest) : Left job pos (⟨pos, len, b⟩ :: rest) := by
  refine ⟨⟨rfl, hpos, h.chain⟩, ?_, forall_mem_cons.mpr ⟨hb, h.head⟩⟩
  have := h.finish
  rw [map_cons, total_cons]
  change pos + (len + _) = _
  omega

theorem Live.request (h : Live job s base p n m) {left : List Request}
    (hat : s.issuer = .request left)
    (hstep : issue job s answer = some s') : Continues job s answer s' := by
  have hposition := h.position
  unfold issue at hstep
  rw [hat] at hposition hstep
  obtain ⟨pos, hleft, hreaches, hfresh⟩ := hposition
  cases left with
  | nil =>
    cases hstep
    have hpos : pos = job.finish := hleft.finish
    rw [hpos] at hreaches
    exact h.continues hat rfl hreaches
  | cons q rest =>
    obtain ⟨rfl, hlen, hrest⟩ := hleft.cons
    have hleft' : Left job q.ofs (⟨q.ofs, q.len, true⟩ :: rest) := hrest.of_cons hlen fun _ => rfl
    dsimp only at hstep
    split_ifs at hstep with hhead hneg hdata
    · cases hstep
      exact .inr (h.returns_of_neg hneg ⟨_, rfl⟩ rfl)
    · cases hstep
      exact h.continues hat rfl ⟨hleft', hdata, hfresh hdata⟩
    · cases hstep
      exact h.continues hat rfl ⟨hleft', by omega, hreaches⟩
    · cases hstep
      have hdata : job.data.length ≤ q.ofs := by
        by_contra hlt
        exact hhead (hleft.head q mem_cons_self (by omega))
      exact h.continues hat rfl ⟨hleft', hdata, hreaches⟩

theorem Job.drop_take_data {k : Nat} (h : ofs + k ≤ job.data.length) :
    (job.data.drop ofs).take k = span job.body ofs k := by
  obtain ⟨d, hd⟩ := Nat.exists_eq_add_of_le h
  rw [job.data_eq, hd, add_assoc, drop_span, take_span, zero_add]

section

variable (h : Live job s base p n m)
include h

theorem Live.direct (hat : s.issuer = .direct ofs len rest)
    (hstep : issue job s answer = some s') : Continues job s answer s' := by
  have hposition := h.position
  unfold issue at hstep
  rw [hat] at hposition hstep
  obtain ⟨hleft, hdata, haios, hread, rfl⟩ := hposition
  obtain ⟨-, hlen, hrest⟩ := hleft.cons
  obtain ⟨chunk, hchunk⟩ : ∃ k, k = min (job.data.length - base) len := ⟨_, rfl⟩
  have hbase := h.base_ge
  have hle := hrest.le_finish
  have hioMap : s.ioMap = [] := by rw [h.ioMap, haios, drop_nil, map_nil]
  have hcompletionMap : s.completionMap = [] := by rw [h.completionMap, haios, drop_nil, map_nil]
  have hdelivered : s.delivered ++ (job.data.drop base).take chunk =
      span job.body job.ofs (base + chunk - job.ofs) := by
    have hpassed := h.passed
    rw [hat, hread, haios, take_nil] at hpassed
    change s.delivered ++ [] = span job.body job.ofs (base - job.ofs) at hpassed
    rw [append_nil] at hpassed
    rw [hpassed, Job.drop_take_data (by omega), span_append_sub _ _ hbase]
  dsimp only at hstep hle
  rw [← hchunk, hdelivered] at hstep
  split_ifs at hstep with hneg hall
  · cases hstep
    refine .inr ⟨⟨_, rfl⟩, ?_, fun hpos => absurd hneg (by omega)⟩
    apply span_mono
    unfold Job.finish at hle
    omega
  · cases hstep
    have hfull : chunk = len := by omega
    refine .inl ⟨base + chunk, 0, 0, 0,
      live_of_fresh (by omega) haios hioMap hcompletionMap hread rfl rfl ?_⟩
    refine ⟨base + len, hrest, ⟨?_, fun _ => ?_⟩, fun _ => ⟨haios, hread, by rw [hfull]⟩⟩
    · simp [State.issued, haios, hfull]
    · simp [State.issued, haios, hfull]
  · cases hstep
    have hend : job.data.length = base + chunk := by omega
    refine .inl ⟨base + chunk, 0, 0, 0,
      live_of_fresh (by omega) haios hioMap hcompletionMap hread rfl rfl ?_⟩
    refine ⟨Left.of_cons (by omega) (fun _ => rfl) ?_, hend.le, ⟨?_, fun _ => ?_⟩⟩
    · have hsum : base + chunk + (len - chunk) = base + len := by omega
      rw [hsum]
      exact hrest
    · simp [State.issued, haios]
    · simp [State.issued, haios]

theorem Live.append (hissued : s.issued base = ofs) (hlen : 0 < len)
    (haioData : s'.aioData = s.aioData ++ [⟨ofs, len, .created, .idle⟩])
    (hioMap : s'.ioMap = SortedMap.insert ofs [] s.ioMap)
    (hcompletionMap : s'.completionMap = SortedMap.insert ofs () s.completionMap)
    (hcancelled : s'.cancelled = s.cancelled) (hreadList : s'.readList = s.readList)
    (hhand : s'.issuer.hand = s.issuer.hand) (hdelivered : s'.delivered = s.delivered)
    (hposition : At job s' base s'.issuer) : Live job s' base p n m := by
  have hlt : ∀ a ∈ s.aioData, ¬ ofs < a.ofs ∧ ofs ≠ a.ofs := by
    intro a ha
    have hlt : a.ofs < s.issued base := h.chain.lt_of_mem _ (List.mem_map_of_mem ha)
    omega
  have hn := h.taken_le
  have hm := h.erased_le
  have hp := h.passed_le
  refine
    { base_ge := h.base_ge
      chain := ?_
      passed_le := hp
      taken_le := ?_
      erased_le := ?_
      ioMap := ?_
      completionMap := ?_
      erased := ?_
      called := ?_
      stopped := ?_
      first := ?_
      passed := ?_
      position := hposition }
  · rw [haioData, map_append, chain_append]
    exact ⟨h.chain, hissued.symm, hlen, trivial⟩
  · rw [haioData, length_append]
    omega
  · rw [haioData, length_append]
    omega
  · rw [hioMap, haioData, SortedMap.insert_eq_append, drop_append_of_le_length hn, map_append,
      h.ioMap]
    · rfl
    · rw [h.ioMap, SortedMap.keys, List.map_map, List.forall_mem_map]
      exact fun a ha => hlt a (mem_of_mem_drop ha)
  · rw [hcompletionMap, haioData, SortedMap.insert_eq_append, drop_append_of_le_length hm,
      map_append,
      h.completionMap]
    · rfl
    · rw [h.completionMap, SortedMap.keys, List.map_map, List.forall_mem_map]
      exact fun a ha => hlt a (mem_of_mem_drop ha)
  · rw [haioData, take_append_of_le_length hm]
    exact h.erased
  · rw [haioData]
    intro a ha
    rcases mem_append.mp ha with hold | hnew
    · exact h.called a hold
    · obtain rfl := mem_singleton.mp hnew
      trivial
  · rcases h.stopped with heq | ⟨a, ha, hfailed⟩
    · exact .inl heq
    · obtain ⟨hlt', -⟩ := List.getElem?_eq_some_iff.mp ha
      rw [← getElem?_append_left hlt', ← haioData] at ha
      exact .inr ⟨a, ha, hfailed⟩
  · rw [haioData, hcancelled]
    intro a ha hover
    rcases Nat.lt_or_eq_of_le hn with hlt' | heq
    · rw [getElem?_append_left hlt'] at ha
      exact h.first a ha hover
    · rw [heq, getElem?_concat_length] at ha
      cases ha
      exact hover.elim
  · rw [hdelivered, hhand, hreadList, haioData, take_append_of_le_length (hp.trans hn)]
    exact h.passed

/-- A read is entered in the maps before it is issued. -/
theorem Live.addIo (hat : s.issuer = .addIo ofs len rest) :
    Live job { GetObjData.addIo s ofs len with issuer := .operate ofs rest } base p n m := by
  have hposition := h.position
  rw [hat] at hposition
  obtain ⟨hleft, hdata, hissued⟩ := hposition
  obtain ⟨-, hlen, hrest⟩ := hleft.cons
  have hissued' : (GetObjData.addIo s ofs len).issued base = ofs + len := by
    change base + total ((s.aioData ++ [_]).map Aio.piece) = _
    rw [map_append, total_append, ← add_assoc]
    exact congrArg (· + len) hissued
  refine h.append hissued hlen rfl rfl rfl rfl rfl (by rw [hat]; rfl) rfl ⟨?_, ?_, ?_⟩
  · rw [← hissued'] at hrest
    exact hrest
  · change _ ≤ (GetObjData.addIo s ofs len).issued base
    omega
  · exact ⟨_, mem_append_right _ (mem_singleton_self _), rfl, rfl⟩

theorem Live.operate (hat : s.issuer = .operate ofs rest) :
    Live job { s.setCompletion ofs .inFlight with issuer := .flush (.issue rest) } base p n m := by
  have hposition := h.position
  rw [hat] at hposition
  obtain ⟨hleft, hdata, a, ha, rfl, hcreated⟩ := hposition
  have hmove : Live job { s with issuer := .flush (.issue rest) } base p n m :=
    h.move hat rfl ⟨_, hleft, ⟨le_refl _, fun _ => rfl⟩, hdata⟩
  have hfind := find_of_mem h.chain ha
  have hcalled : a.Called := h.called a ha
  have hidle : a.callback = .idle := by
    unfold Aio.Called at hcalled
    cases hc : a.callback <;> rw [hc] at hcalled <;> simp_all [Aio.Succeeded, Aio.Failed]
  refine hmove.update (f := fun b => { b with completion := .inFlight }) hfind (fun _ =>
    rfl) rfl ?_ ⟨rfl, rfl, rfl⟩ rfl
    id id ?_ ?_ ?_ ?_
  · change s.ioMap = ((s.aioData.map _).drop n).map _
    rw [h.ioMap, ← map_drop, List.map_map]
    apply map_congr_left
    intro b hb
    change _ = Aio.entry job.body (if b.ofs = a.ofs then { b with completion := .inFlight } else b)
    rcases h.update_cases (f := fun b =>
      { b with completion := .inFlight }) hfind (mem_of_mem_drop hb)
      with ⟨rfl, heq⟩ | heq
    · simp [Aio.entry, Aio.bytes, hcreated]
    · rw [heq]
  · unfold Aio.Called
    rw [hidle]
    trivial
  · rintro ⟨r, hr, -⟩
    rw [hcreated] at hr
    cases hr
  · rintro rest' hissuer
    cases hissuer
  · intro _ hover
    rw [hidle] at hover
    exact hover.elim

theorem Live.check (hat : s.issuer = .check ofs len rest)
    (hstep : issue job s answer = some s') : Continues job s answer s' := by
  have hposition := h.position
  unfold issue at hstep
  rw [hat] at hposition hstep
  obtain ⟨hleft, hdata, hreaches⟩ := hposition
  obtain ⟨-, hlen, hrest⟩ := hleft.cons
  dsimp only at hstep
  split_ifs at hstep with hcancelled herr
  · cases hstep
    refine .inr ⟨⟨_, rfl⟩, h.delivered, fun _ hclean => ?_⟩
    rw [hclean.cancelled] at hcancelled
    cases hcancelled
  · cases hstep
    refine h.continues hat rfl ⟨ofs + len, hrest, ⟨?_, fun hfalse => ?_⟩, fun hlt => ?_⟩
    · exact hreaches.le.trans (Nat.le_add_right _ _)
    · rw [hfalse] at hcancelled
      cases hcancelled
    · omega
  · cases hstep
    have hissued := hreaches.eq (Bool.eq_false_iff.mpr hcancelled)
    exact h.continues hat rfl ⟨hleft, hdata, hissued⟩

theorem Live.all (hat : s.issuer = .handle [] r (.wait true)) (hclean : Clean s) :
    s.delivered = job.range := by
  have hposition := h.position
  rw [hat] at hposition
  obtain ⟨hreaches, hdone⟩ := hposition
  obtain ⟨hempty, hread⟩ := hdone rfl
  rw [h.completionMap, map_eq_nil_iff, drop_eq_nil_iff] at hempty
  have hn : n = s.aioData.length := by
    apply (Nat.lt_or_eq_of_le h.taken_le).resolve_left
    intro hlt
    have hget := getElem?_eq_getElem hlt
    have hfinished := h.erased s.aioData[n]
    rw [take_of_length_le hempty] at hfinished
    have hover : s.aioData[n].callback.Over := by
      rw [hfinished (getElem_mem hlt)]
      trivial
    have := h.first _ hget hover
    rw [hclean.cancelled] at this
    cases this
  have hp : p = n := by
    rcases h.stopped with hp | ⟨a, ha, hfailed⟩
    · exact hp
    · exact absurd hfailed (hclean.succeeded a (mem_of_getElem? ha))
  have hpassed := h.passed
  rw [hat, hread, hp, hn, take_length] at hpassed
  change s.delivered ++ [] = span job.body job.ofs (s.issued base - job.ofs) at hpassed
  rw [append_nil, hreaches.eq hclean.cancelled] at hpassed
  unfold Job.finish at hpassed
  rw [Nat.add_sub_cancel_left] at hpassed
  exact hpassed

/-- The client is passed one block. -/
theorem Live.handle {l : List Bytes}
    (hat : s.issuer = .handle l r caller) (hstep : issue job s answer = some s') :
    Continues job s answer s' := by
  have hposition := h.position
  unfold issue at hstep
  rw [hat] at hposition hstep
  cases l with
  | nil =>
    cases caller with
    | issue rest =>
      obtain ⟨pos, hleft, hreaches, hdata⟩ := hposition
      cases hstep
      exact h.continues hat rfl ⟨pos, hleft, hreaches, fun hlt => by omega⟩
    | wait done =>
      cases hstep
      cases done with
      | false => exact h.continues hat rfl hposition.1
      | true => exact .inr ⟨⟨_, rfl⟩, h.delivered, fun _ hclean => h.all hat hclean⟩
  | cons bl l =>
    have hpassed := h.passed
    rw [hat] at hpassed
    change s.delivered ++ (bl ++ (l ++ s.readList).flatten) = _ at hpassed
    rw [← append_assoc] at hpassed
    dsimp only at hstep
    by_cases hneg : answer < 0
    · rw [if_pos hneg] at hstep
      cases hstep
      refine .inr ⟨⟨_, rfl⟩, ?_, fun hpos => absurd hneg (by omega)⟩
      have hbeginning := h.beginning
      rw [h.passed, ← hpassed] at hbeginning
      exact (prefix_append _ _).trans hbeginning
    · rw [if_neg hneg] at hstep
      cases hstep
      refine .inl ⟨base, p, n, m, { h with passed := hpassed, position := ?_ }⟩
      cases caller with
      | issue rest => exact hposition
      | wait done => exact hposition

theorem Live.filter_completionMap {tail : List (Nat × Unit)}
    (htail : s.completionMap = (curOfs, ()) :: tail) : ∃ a, s.aioData[m]? = some a ∧
    a.ofs = curOfs ∧
      s.completionMap.filter (·.1 ≠ curOfs) = (s.aioData.drop (m + 1)).map Aio.key := by
  have hlt : m < s.aioData.length := by
    by_contra hle
    rw [h.completionMap, drop_eq_nil_of_le (by omega)] at htail
    cases htail
  have hdrop := drop_eq_getElem_cons hlt
  have hcompletionMap := h.completionMap
  rw [hdrop, map_cons] at hcompletionMap
  rw [hcompletionMap] at htail
  have hfirst : s.aioData[m].ofs = curOfs := congrArg Prod.fst (List.cons.inj htail).1
  refine ⟨_, getElem?_eq_getElem hlt, hfirst, ?_⟩
  have hchain := h.chain
  rw [← take_append_drop m s.aioData, map_append, chain_append, hdrop, map_cons] at hchain
  have hpair := (pairwise_cons.mp hchain.2.pairwise).1
  rw [hcompletionMap, filter_cons_of_neg (by simp [Aio.key, hfirst]), filter_eq_self]
  intro e he
  obtain ⟨b, hb, rfl⟩ := List.mem_map.mp he
  have hlt' := hpair b.ofs (List.mem_map.mpr ⟨b.piece, List.mem_map_of_mem hb, rfl⟩)
  change s.aioData[m].ofs < b.ofs at hlt'
  exact decide_eq_true (by change b.ofs ≠ curOfs; omega)

/-- The issuer waits for the first read that is not complete. -/
theorem Live.waiting (hat : s.issuer = .waiting curOfs)
    (hstep : issue job s answer = some s') : Continues job s answer s' := by
  have hposition := h.position
  unfold issue at hstep
  rw [hat] at hposition hstep
  obtain ⟨hreaches, tail, htail⟩ := hposition
  obtain ⟨b, hb, hofs, hfilter⟩ := h.filter_completionMap htail
  dsimp only at hstep
  split at hstep
  case h_2 => cases hstep
  case h_1 ofs len r hfind =>
      cases hstep
      obtain ⟨ha, hofs'⟩ := find_eq_some hfind
      have hsame := eq_of_chain h.chain (mem_of_getElem? hb) ha (hofs.trans hofs'.symm)
      obtain ⟨hlt, hget⟩ := List.getElem?_eq_some_iff.mp hb
      by_cases hneg : r < 0
      · refine .inr ⟨⟨r, if_pos hneg⟩, h.delivered, fun _ hclean => ?_⟩
        exact absurd ⟨r, rfl, hneg⟩ (hclean.succeeded _ ha)
      · refine .inl ⟨base, p, n, m + 1, ?_⟩
        rw [if_neg hneg]
        refine
          { h with
            erased_le := hlt
            completionMap := hfilter
            erased := ?_
            passed := ?_
            position := ⟨hreaches, fun hdone => List.isEmpty_iff.mp hdone⟩ }
        · intro c hc
          rw [take_succ_eq_append_getElem hlt, mem_append, mem_singleton] at hc
          rcases hc with hold | rfl
          · exact h.erased c hold
          · rw [hget, hsame]
        · have hpassed := h.passed
          rw [hat] at hpassed
          exact hpassed

theorem Live.flush (hat : s.issuer = .flush caller) : Live job { s with
        readList := [],
        issuer := .handle s.readList 0 caller } base p n m := by
  have hposition := h.position
  have hpassed := h.passed
  rw [hat] at hposition hpassed
  refine { h with passed := ?_, position := ?_ }
  · rw [append_nil]
    exact hpassed
  · cases caller with
    | issue rest => exact hposition
    | wait done => exact ⟨hposition.1, fun hdone => ⟨hposition.2 hdone, rfl⟩⟩

/-- Step lemma of the issuer. -/
theorem Live.issue (hissue : issue job s answer = some s') : Continues job s answer s' := by
  have hposition := h.position
  cases hat : s.issuer with
  | request rest => exact h.request hat hissue
  | direct ofs len rest => exact h.direct hat hissue
  | throttle ofs len rest =>
    unfold GetObjData.issue at hissue
    rw [hat] at hissue hposition
    dsimp only at hissue
    split_ifs at hissue
    cases hissue
    exact h.continues hat rfl hposition
  | check ofs len rest => exact h.check hat hissue
  | addIo ofs len rest =>
    unfold GetObjData.issue at hissue
    rw [hat] at hissue
    cases hissue
    exact .inl ⟨base, p, n, m, h.addIo hat⟩
  | operate ofs rest =>
    unfold GetObjData.issue at hissue
    rw [hat] at hissue
    dsimp only at hissue
    by_cases hneg : answer < 0
    · rw [if_pos hneg] at hissue
      cases hissue
      exact .inr (h.returns_of_neg hneg ⟨_, rfl⟩ rfl)
    · rw [if_neg hneg] at hissue
      cases hissue
      exact .inl ⟨base, p, n, m, h.operate hat⟩
  | flush caller =>
    unfold GetObjData.issue at hissue
    rw [hat] at hissue
    cases hissue
    exact .inl ⟨base, p, n, m, h.flush hat⟩
  | handle l r caller => exact h.handle hat hissue
  | waitNext =>
    unfold GetObjData.issue at hissue
    rw [hat] at hissue hposition
    dsimp only at hissue
    split at hissue
    case h_1 hempty =>
        cases hissue
        exact h.continues hat rfl ⟨hposition, fun _ => hempty⟩
    case h_2 curOfs _ tail htail =>
        cases hissue
        exact h.continues hat rfl ⟨hposition, tail, htail⟩
  | waiting curOfs => exact h.waiting hat hissue
  | returned r =>
    rw [hat] at hposition
    exact hposition.elim

end

theorem frame_complete (h : complete job s ofs r = some s') : s'.issuer = s.issuer ∧
    s'.delivered = s.delivered := by
  unfold complete at h
  split at h
  case h_2 => cases h
  case h_1 =>
      split_ifs at h
      all_goals
        cases h
        exact ⟨rfl, rfl⟩

/-- Callbacks pass nothing to the client. -/
theorem frame_callback (h : callback s ofs = some s') : s'.issuer = s.issuer ∧
    s'.delivered = s.delivered := by
  obtain ⟨a, -, hstep⟩ := bind_eq_some_iff.mp h
  unfold stepCallback at hstep
  split at hstep
  · split at hstep
    · split_ifs at hstep
      all_goals
        cases hstep
        exact ⟨rfl, rfl⟩
    · cases hstep
  · cases hstep
    exact ⟨rfl, rfl⟩
  · split at hstep
    all_goals
      cases hstep
      exact ⟨rfl, rfl⟩
  · cases hstep
    exact ⟨rfl, rfl⟩
  · cases hstep

def Serves (job : Job) (s : State) (passed : Bytes → Prop) : Prop :=
  (∃ base p n m, Live job s base p n m) ∨ (∃ r, s.issuer = .returned r) ∧ passed s.delivered

/-- Step lemma: what was passed on is a beginning of the range, in order. -/
theorem Serves.step {passed : Bytes → Prop} {i : Label} (h : Serves job s passed)
    (hreturns : ∀ answer, i = .issue answer → Returns job s answer s' → passed s'.delivered)
    (hstep : step job s i = some s') : Serves job s' passed := by
  rcases h with ⟨base, p, n, m, h⟩ | ⟨⟨r, hr⟩, hpassed⟩
  · cases i with
    | issue answer =>
      rcases h.issue hstep with hlive | hreturn
      · exact .inl hlive
      · exact .inr ⟨hreturn.issuer, hreturns answer rfl hreturn⟩
    | complete ofs r => exact .inl ⟨base, p, n, m, h.complete hstep⟩
    | callback ofs =>
      obtain ⟨p', n', h'⟩ := h.callback hstep
      exact .inl ⟨base, p', n', m, h'⟩
  · have hframe : s'.issuer = s.issuer ∧ s'.delivered = s.delivered := by
      cases i with
      | issue answer =>
        change issue job s answer = some s' at hstep
        unfold issue at hstep
        rw [hr] at hstep
        cases hstep
      | complete ofs r => exact frame_complete hstep
      | callback ofs => exact frame_callback hstep
    right
    rw [hframe.1, hframe.2]
    exact ⟨⟨r, hr⟩, hpassed⟩

theorem exists_failed_of_takeComplete {completions : List (Nat × Unit)}
    {io : List (Nat × Bytes)} (h : (takeComplete find completions io).1 = some r) :
    ∃ ofs a, find ofs = some a ∧ a.Failed := by
  induction completions generalizing io with
  | nil => cases h
  | cons e completions ih =>
    obtain ⟨ofs, ⟨⟩⟩ := e
    unfold takeComplete at h
    split at h
    case h_2 => cases h
    case h_1 ofs' len r' c k bl io' hfind =>
        by_cases hneg : r' < 0
        · exact ⟨ofs, _, hfind, r', rfl, hneg⟩
        · rw [if_neg hneg] at h
          exact ih h

section

variable (h : Clean s)
include h

theorem Clean.getCompleteIos (ofs : Nat) : (getCompleteIos s ofs).1 = none := by
  cases hr : (GetObjData.getCompleteIos s ofs).1 with
  | none => rfl
  | some r =>
    unfold GetObjData.getCompleteIos at hr
    split at hr
    · split_ifs at hr
      obtain ⟨ofs', a, hfind, hfailed⟩ := exists_failed_of_takeComplete hr
      exact absurd hfailed (h.succeeded a (find_eq_some hfind).1)
    · cases hr

theorem Clean.update (hf : ∀ b ∈ s.aioData, ¬ (f b).Failed)
    (haioData : s'.aioData = (s.update ofs f).aioData) (hcancelled : s'.cancelled = s.cancelled) :
    Clean s' := by
  refine ⟨hcancelled.trans h.cancelled, ?_⟩
  rw [haioData]
  intro b hb
  obtain ⟨b₀, hb₀, rfl⟩ := List.mem_map.mp hb
  split_ifs
  · exact hf b₀ hb₀
  · exact h.succeeded b₀ hb₀

theorem Clean.complete (hr : 0 ≤ r) (hstep : complete job s ofs r = some s') : Clean s' := by
  have hf : ∀ b ∈ s.aioData, ¬ ({ b with completion := .complete r } : Aio).Failed := by
    rintro b - ⟨r', hr', hneg⟩
    cases hr'
    omega
  unfold GetObjData.complete at hstep
  split at hstep
  case h_2 => cases hstep
  case h_1 =>
      rw [if_neg (by omega)] at hstep
      split_ifs at hstep
      cases hstep
      exact h.update hf rfl rfl

theorem Clean.setCallback (haioData : s'.aioData = (s.setCallback ofs c).aioData)
    (hcancelled : s'.cancelled = s.cancelled) : Clean s' :=
  h.update (f := fun b => { b with callback := c }) h.succeeded haioData hcancelled

theorem Clean.callback (hstep : callback s ofs = some s') : Clean s' := by
  obtain ⟨a, hfind, hcallback⟩ := bind_eq_some_iff.mp hstep
  unfold stepCallback at hcallback
  split at hcallback
  · split at hcallback
    case h_1 r hr =>
        have hpos : ¬ r < 0 := fun hneg => h.succeeded a (find_eq_some hfind).1 ⟨r, hr, hneg⟩
        rw [if_neg hpos] at hcallback
        cases hcallback
        exact h.setCallback rfl rfl
    case h_2 => cases hcallback
  · cases hcallback
    exact h.setCallback rfl rfl
  · have hnone := h.getCompleteIos a.ofs
    split at hcallback
    case h_1 r bls io hr =>
        rw [hr] at hnone
        cases hnone
    case h_2 =>
        cases hcallback
        exact h.setCallback rfl rfl
  · cases hcallback
    exact h.setCallback rfl rfl
  · cases hcallback

theorem Clean.of_eq (haioData : s'.aioData = s.aioData) (hcancelled : s'.cancelled = s.cancelled) :
    Clean s' := by
  refine ⟨hcancelled.trans h.cancelled, ?_⟩
  rw [haioData]
  exact h.succeeded

theorem Clean.issue (hpos : 0 ≤ answer) (hstep : issue job s answer = some s') : Clean s' := by
  have hneg : ¬ answer < 0 := by omega
  unfold GetObjData.issue at hstep
  split at hstep
  case h_3 =>
      rw [if_neg hneg] at hstep
      dsimp only at hstep
      split_ifs at hstep
      all_goals
        cases hstep
        exact h.of_eq rfl rfl
  case h_6 =>
      cases hstep
      refine ⟨h.cancelled, ?_⟩
      intro a ha
      rcases mem_append.mp ha with hold | hnew
      · exact h.succeeded a hold
      · obtain rfl := mem_singleton.mp hnew
        rintro ⟨r, hr, -⟩
        cases hr
  case h_7 ofs rest _ =>
      rw [if_neg hneg] at hstep
      cases hstep
      refine h.update (f := fun b => { b with completion := .inFlight }) ?_ rfl rfl
      rintro b - ⟨r, hr, -⟩
      cases hr
  case h_10 =>
      rw [if_neg hneg] at hstep
      cases hstep
      exact h.of_eq rfl rfl
  all_goals
    repeat' split at hstep
    all_goals
      first
      | cases hstep
        done
      | cases hstep
        exact h.of_eq rfl rfl

end

/-- Whatever the order in which reads complete and callbacks run, the client gets the beginning of
the range, and all of it when `iterate` returns and no read and no call has failed. -/
theorem delivered_in_order (job : Job) {labels : List Label} {s : State}
    (h : Steps (step job) (fun _ _ => True) (init job) labels s) : s.delivered <+: job.range ∧
      ((∀ i ∈ labels, i.Succeeds) → s.issuer = .returned 0 → s.delivered = job.range) := by
  constructor
  · have hserves : Serves job s (· <+: job.range) := by
      apply h.invariant
      · intro s s' i hs _ hstep
        exact hs.step (fun answer _ hreturns => hreturns.beginning) hstep
      · exact .inl ⟨_, _, _, _, live_init job⟩
    rcases hserves with ⟨base, p, n, m, hlive⟩ | ⟨-, hbeginning⟩
    · exact hlive.delivered
    · exact hbeginning
  · intro hsucceeds hreturned
    have hserves : Clean s ∧ Serves job s (· = job.range) := by
      apply (h.of_forall_mem hsucceeds).invariant
      · rintro s s' i ⟨hclean, hs⟩ ⟨-, hi⟩ hstep
        constructor
        · cases i with
          | issue answer => exact hclean.issue hi hstep
          | complete ofs r => exact hclean.complete hi hstep
          | callback ofs => exact hclean.callback hstep
        · apply hs.step _ hstep
          rintro answer rfl hreturns
          exact hreturns.all hi hclean
      · exact ⟨⟨rfl, forall_mem_nil _⟩, .inl ⟨_, _, _, _, live_init job⟩⟩
    rcases hserves with ⟨-, ⟨base, p, n, m, hlive⟩ | ⟨-, hall⟩⟩
    · have hposition := hlive.position
      rw [hreturned] at hposition
      exact hposition.elim
    · exact hall

def sampleJob : Job where
  ofs := 1
  requests := [⟨1, 2, true⟩, ⟨3, 1, false⟩]
  body := fun i => UInt8.ofNat (97 + i)
  data := [97, 98]
  window := 10
  adjacent := by simp [Request.piece, Chain]
  data_eq := by decide
  head := by decide

def sampleRun : List Label :=
  List.replicate 16 (.issue 0) ++
    [.complete 3 1, .callback 3, .callback 3, .callback 3, .complete 2 1, .callback 2, .callback 2,
      .callback 2] ++
      List.replicate 10 (.issue 0)

/-- Three reads, of which the last is complete first. -/
theorem delivered_sampleRun :
    ∃ s, Steps (step sampleJob) (fun _ _ => True) (init sampleJob) sampleRun s ∧
    s.issuer = .returned 0 ∧
      s.delivered = sampleJob.range := by
  obtain ⟨s, hs⟩ := isSome_iff_exists.mp
    (show (sampleRun.foldlM (fun s i => if True then step sampleJob s i
      else none) (init sampleJob)).isSome by decide)
  have hreturned : s.issuer = .returned 0 := by
    have hissuer : (sampleRun.foldlM (fun s i => if True then step sampleJob s i
      else none) (init sampleJob)).map
        State.issuer = some (.returned 0) := by decide
    rw [hs] at hissuer
    exact some.inj hissuer
  have hrun := Steps.of_foldlM hs
  exact ⟨s, hrun, hreturned, (delivered_in_order sampleJob hrun).2 (by decide) hreturned⟩

end RadosGateway.GetObjData
