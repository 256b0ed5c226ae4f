import RadosGateway.Proof.OlhStage

/-!
# The head of an object in step with its log

Pages begin where the log was trimmed to or before, so nothing between what has been applied and the
end of a page is missing from it. -/

namespace RadosGateway.Olh

open Text Proc VersionLog
open List hiding after le_antisymm le_trans not_le not_lt
open Option hiding max_eq_left max_eq_right max_le

variable {log page : Log} {p : Plan} {truncated : Bool} {t t' top top' : Nat}

theorem mem_entries_of_mem {e : LogEntry} {x : Nat × List LogEntry} (hx : x ∈ log) (he : e ∈ x.2) :
    e ∈ entries log :=
  mem_flatMap.mpr ⟨x, hx, he⟩

theorem Known.of_subset (h : Known log) (hsub : page ⊆ log) : Known page := by
  intro e he
  obtain ⟨x, hx, hex⟩ := mem_flatMap.mp he
  exact h e (mem_entries_of_mem (hsub hx) hex)

theorem GivesUp.of_subset {key : ObjKey} (h : GivesUp page key) (hsub : page ⊆ log) :
    GivesUp log key := by
  obtain ⟨e, he, hop⟩ := h
  obtain ⟨x, hx, hex⟩ := mem_flatMap.mp he
  exact ⟨e, mem_entries_of_mem (hsub hx) hex, hop⟩

theorem lastVer_mem (h : page ≠ []) : ∃ x ∈ page, x.1 = lastVer 0 page := by
  refine ⟨page.getLast h, getLast_mem h, ?_⟩
  simp [lastVer, getLast?_eq_getLast_of_ne_nil h]

structure Page (log : Log) (t : Nat) (page : Log) (p : Plan) (truncated : Bool) : Prop where
  ne_nil : page ≠ []
  span : ∃ a ≤ t, page = between a (lastVer 0 page) log
  plan : p.Follows (entries page)
  rest : truncated = false → ∀ x ∈ log, x.1 ≤ lastVer 0 page

namespace Page

section

variable (h : Page log t page p truncated)
include h

theorem mono (ht : t ≤ t') : Page log t' page p truncated where
  ne_nil := h.ne_nil
  span := by
    obtain ⟨a, ha, hpage⟩ := h.span
    exact ⟨a, ha.trans ht, hpage⟩
  plan := h.plan
  rest := h.rest

theorem lastVer_mem_log : ∃ x ∈ log, x.1 = lastVer 0 page := by
  obtain ⟨a, -, hpage⟩ := h.span
  obtain ⟨x, hx, hver⟩ := lastVer_mem h.ne_nil
  rw [hpage] at hx
  exact ⟨x, (mem_between.mp hx).1, hver⟩

theorem lastVerdict_upTo (hsorted : Sorted log)
    {verdict : Option OlhInfo} (hverdict : lastVerdict page = some verdict) :
    lastVerdict (upTo (lastVer 0 page) log) = some verdict := by
  obtain ⟨a, -, hpage⟩ := h.span
  have hle : a ≤ lastVer 0 page := by
    obtain ⟨x, hx, hver⟩ := lastVer_mem h.ne_nil
    rw [hpage] at hx
    rw [← hver]
    exact (mem_between.mp hx).2.1.le
  rw [upTo_eq_append hsorted hle, ← hpage, lastVerdict_append, hverdict]
  rfl

theorem lastVerdict_upTo_of_none (hsorted : Sorted log)
    (htop : t ≤ top) (hlt : top < lastVer 0 page) (hverdict : lastVerdict page = none) :
    lastVerdict (upTo (lastVer 0 page) log) = lastVerdict (upTo top log) := by
  obtain ⟨a, ha, hpage⟩ := h.span
  rw [hpage, between_eq_append hsorted (ha.trans htop) hlt.le, lastVerdict_append,
    or_eq_none_iff] at hverdict
  rw [upTo_eq_append hsorted hlt.le, lastVerdict_append, hverdict.1]
  rfl

theorem unlinks_of_trim (hsorted : Sorted log)
    (hlog : lastVerdict log = some none) (hsome : (lastVerdict (after t log)).isSome)
    (hnone : lastVerdict (after (max (lastVer 0 page) t) log) = none) :
    lastVerdict page = some none ∧ lastVerdict (after (lastVer 0 page) log) = none := by
  have hlt : t < lastVer 0 page := by
    by_contra hle
    rw [max_eq_right (not_lt.mp hle)] at hnone
    rw [hnone] at hsome
    cases hsome
  have hmax : max (lastVer 0 page) t = lastVer 0 page := max_eq_left hlt.le
  rw [hmax] at hnone
  refine ⟨?_, hnone⟩
  have hupTo : lastVerdict (upTo (lastVer 0 page) log) = some none := by
    rw [← upTo_append_after hsorted (lastVer 0 page), lastVerdict_append, hnone] at hlog
    exact hlog
  have hbetween : (lastVerdict (between t (lastVer 0 page) log)).isSome := by
    rw [← upTo_append_after (hsorted.after t) (lastVer 0 page), after_after, hmax,
      lastVerdict_append, hnone] at hsome
    exact hsome
  obtain ⟨verdict, hverdict⟩ := isSome_iff_exists.mp hbetween
  obtain ⟨a, ha, hpage⟩ := h.span
  have hword : lastVerdict page = some verdict := by
    rw [hpage, between_eq_append hsorted ha hlt.le, lastVerdict_append, hverdict]
    rfl
  rw [hword, ← h.lastVerdict_upTo hsorted hword, hupTo]

end

end Page

namespace Stage

def Ok (log : Log) (t top : Nat) : Stage → Prop
  | reading marker => marker ≤ t
  | deleting page p _ truncated => Page log t page p truncated
  | trimming page p truncated => Page log t page p truncated ∧ lastVer 0 page ≤ top
  | removing page p truncated =>
    Page log t page p truncated ∧ p.needToRemove = true ∧ lastVer 0 page ≤ t
  | clearing _ _ => False
  | finished _ => ∀ x ∈ log, x.1 ≤ t

theorem Ok.mono {st : Stage} (h : st.Ok log t top) (ht : t ≤ t') (htop : top ≤ top') :
    st.Ok log t' top' := by
  cases st with
  | reading marker => exact le_trans h ht
  | deleting page p keys truncated => exact Page.mono h ht
  | trimming page p truncated => exact ⟨h.1.mono ht, h.2.trans htop⟩
  | removing page p truncated => exact ⟨h.1.mono ht, h.2.1, h.2.2.trans ht⟩
  | clearing page truncated => exact h
  | finished ret => exact fun x hx => (h x hx).trans ht

theorem settled_ok (hpage : Page log t page p truncated) (hver : lastVer 0 page ≤ t) :
    (settled page truncated).Ok log t top := by
  cases truncated with
  | true => exact hver
  | false => exact fun x hx => (hpage.rest rfl x hx).trans hver

theorem loaded_ok (hsorted : Sorted log) (hknown : Known log) {n : Nat} (hn : 0 < n)
    (marker : Nat) :
    (loaded marker ((after t log).take n) (n < (after t log).length)).Ok log t top := by
  unfold loaded
  split
  next hpage =>
    have hnil : after t log = [] := by
      rcases take_eq_nil_iff.mp hpage with h | h
      · omega
      · exact h
    simp only [hnil, length_nil, Nat.not_lt_zero, decide_false, Bool.false_eq_true, if_false]
    intro x hx
    by_contra hlt
    have hmem : x ∈ after t log := mem_after.mpr ⟨hx, not_le.mp hlt⟩
    rw [hnil] at hmem
    cases hmem
  next hpage =>
    have hsub : (after t log).take n ⊆ log :=
      fun x hx => (mem_after.mp (mem_of_mem_take hx)).1
    obtain ⟨p, hplan, hfollows⟩ := planLog_follows (hknown.of_subset hsub)
    rw [hplan]
    have hlast : ((after t log).take n).getLast? = some (((after t log).take n).getLast hpage) :=
      getLast?_eq_getLast_of_ne_nil hpage
    have hver : lastVer 0 ((after t log).take n) = (((after t log).take n).getLast hpage).1 := by
      simp [lastVer, hlast]
    have hspan : (after t log).take n = between t (lastVer 0 ((after t log).take n)) log := by
      rw [hver]
      exact take_eq_upTo (hsorted.after t) hlast
    refine ⟨hpage, ⟨t, le_rfl, hspan⟩, hfollows, ?_⟩
    intro hrest x hx
    -- the page is all that is left of the log
    have hall : (after t log).take n = after t log :=
      take_of_length_le (not_lt.mp (of_decide_eq_false hrest))
    by_cases hxt : x.1 ≤ t
    · obtain ⟨y, hy, hyver⟩ := lastVer_mem hpage
      rw [← hyver]
      exact hxt.trans (mem_after.mp (mem_of_mem_take hy)).2.le
    · have hmem : x ∈ (after t log).take n := by
        rw [hall]
        exact mem_after.mpr ⟨hx, not_le.mp hxt⟩
      rw [hspan] at hmem
      exact (mem_between.mp hmem).2.2

end Stage

def TargetAt (log : Log) (before : Option OlhInfo) (top : Nat) (info : Option OlhInfo) : Prop :=
  match lastVerdict (upTo top log) with
  | none => info = before
  | some (some i) => info = some i
  | some none => True

def Removing (log : Log) (stages : List Stage) : Prop :=
  ∃ page p truncated, Stage.removing page p truncated ∈ stages ∧
    lastVerdict (after (lastVer 0 page) log) = none

structure Live (log : Log) (tag : Bytes) (before : Option OlhInfo) (s : Shared) (top : Nat)
    (stages : List Stage) (o : Head) (t : Nat) : Prop where
  index : s.index = some (tag, after t log)
  idTag : o.idTag = tag
  ver : ∀ x ∈ log, o.ver < x.1
  trimmed_le : t ≤ top
  target : TargetAt log before top o.info
  ok : ∀ st ∈ stages, st.Ok log t top
  duty : lastVerdict log = some none → (lastVerdict (after t log)).isSome ∨ Removing log stages

theorem mem_set_of_ne {α : Type} {l : List α} {i : Nat} {x y z : α} (hx : x ∈ l)
    (hi : l[i]? = some y)
    (hne : x ≠ y) : x ∈ l.set i z := by
  obtain ⟨j, hj, rfl⟩ := mem_iff_getElem.mp hx
  have hij : i ≠ j := by
    rintro rfl
    exact hne (some.inj ((getElem?_eq_getElem hj).symm.trans hi))
  exact mem_iff_getElem.mpr ⟨j, by simpa using hj, getElem_set_of_ne hij _ _⟩

variable {tag : Bytes} {before : Option OlhInfo} {s s' : Shared} {stages : List Stage} {o : Head}
  {i : Nat} {st st' : Stage}

theorem Removing.set (h : Removing log stages) (hi : stages[i]? = some st)
    (hst : ∀ page p truncated, st = .removing page p truncated →
      (lastVerdict (after (lastVer 0 page) log)).isSome) : Removing log (stages.set i st') := by
  obtain ⟨page, p, truncated, hmem, hlast⟩ := h
  refine ⟨page, p, truncated, mem_set_of_ne hmem hi ?_, hlast⟩
  rintro rfl
  have := hst page p truncated rfl
  rw [hlast] at this
  cases this

namespace Live

section

variable (h : Live log tag before s top stages o t)
include h

theorem replace (hindex : s'.index = s.index)
    (hi : stages[i]? = some st) (hok : st'.Ok log t top)
    (hst : ∀ page p truncated, st = .removing page p truncated →
      (lastVerdict (after (lastVer 0 page) log)).isSome) : Live log tag before s' top
        (stages.set i st') o t where
  index := hindex.trans h.index
  idTag := h.idTag
  ver := h.ver
  trimmed_le := h.trimmed_le
  target := h.target
  ok := by
    intro x hx
    rcases mem_or_eq_of_mem_set hx with hx | rfl
    · exact h.ok x hx
    · exact hok
  duty := fun hlog => (h.duty hlog).imp_right fun hremoving => hremoving.set hi hst

theorem admits (hpage : Page log t page p truncated) : o.admits tag (lastVer 0 page) = true := by
  obtain ⟨x, hx, hver⟩ := hpage.lastVer_mem_log
  have := h.ver x hx
  rw [hver] at this
  exact decide_eq_true ⟨h.idTag, this⟩

/-- A page that is not older than what was applied moves the head forward. -/
theorem target_operate (hsorted : Sorted log)
    (hpage : Page log t page p truncated) (htimely : p.info.isSome → top ≤ lastVer 0 page) :
    TargetAt log before (max top (lastVer 0 page)) (p.info.or o.info) := by
  have hinfo : p.info = (lastVerdict page).join := hpage.plan.info
  rcases le_or_gt (lastVer 0 page) top with hle | hlt
  · rw [max_eq_left hle]
    cases hp : p.info with
    | none => exact h.target
    | some info =>
      -- a copy of the newest page
      have heq : top = lastVer 0 page := le_antisymm (htimely (by rw [hp]; rfl)) hle
      have hverdict : lastVerdict page = some (some info) := by
        rw [hp] at hinfo
        exact join_eq_some_iff.mp hinfo.symm
      rw [heq, TargetAt, hpage.lastVerdict_upTo hsorted hverdict]
      rfl
  · rw [max_eq_right hlt.le]
    cases hverdict : lastVerdict page with
    | none =>
      rw [TargetAt, hpage.lastVerdict_upTo_of_none hsorted h.trimmed_le hlt hverdict, hinfo,
        hverdict]
      exact h.target
    | some verdict =>
      rw [TargetAt, hpage.lastVerdict_upTo hsorted hverdict, hinfo, hverdict]
      cases verdict with
      | none => trivial
      | some info => rfl

/-- The head is written. -/
theorem operate (hsorted : Sorted log) (hi : stages[i]? = some (.deleting page p [] truncated))
    (htimely : Timely log top (some o) ((Stage.deleting page p [] truncated).gateway tag).request) :
    Live log tag before { s with olh := some (o.operate p.tags p.info) }
      (topAfter top (some o) ((Stage.deleting page p [] truncated).gateway tag).request)
      (stages.set i (.trimming page p truncated)) (o.operate p.tags p.info) t := by
  have hpage : Page log t page p truncated := h.ok _ (mem_of_getElem? hi)
  have htop : topAfter top (some o) ((Stage.deleting page p [] truncated).gateway tag).request =
      max top (lastVer 0 page) := if_pos (h.admits hpage)
  have hnewer : p.info.isSome → top ≤ lastVer 0 page := by
    change Timely log top (some o) (some (.operate tag (lastVer 0 page) p.tags p.info)) at htimely
    cases hinfo : p.info with
    | none => exact fun hsome => by cases hsome
    | some info =>
      rw [hinfo] at htimely
      exact fun _ => htimely
  rw [htop]
  refine ⟨h.index, h.idTag, h.ver, h.trimmed_le.trans (le_max_left _ _),
    h.target_operate hsorted hpage hnewer, ?_, ?_⟩
  · intro x hx
    rcases mem_or_eq_of_mem_set hx with hx | rfl
    · exact (h.ok x hx).mono le_rfl (le_max_left _ _)
    · exact ⟨hpage, le_max_right _ _⟩
  · exact fun hlog => (h.duty hlog).imp_right fun hremoving =>
      hremoving.set hi fun _ _ _ hst => by cases hst

/-- The log is trimmed up to the page. -/
theorem trim (hsorted : Sorted log) (hi : stages[i]? = some (.trimming page p truncated))
    (hindex : s'.index = some (tag, after (max (lastVer 0 page) t) log)) :
    Live log tag before s' top
      (stages.set i (if p.needToRemove then .removing page p truncated
        else .settled page truncated)) o
      (max (lastVer 0 page) t) := by
  obtain ⟨hpage, hver⟩ := h.ok _ (mem_of_getElem? hi)
  have hpage' : Page log (max (lastVer 0 page) t) page p truncated := hpage.mono (le_max_right _ _)
  refine ⟨hindex, h.idTag, h.ver, max_le hver h.trimmed_le, h.target, ?_, ?_⟩
  · intro x hx
    rcases mem_or_eq_of_mem_set hx with hx | rfl
    · exact (h.ok x hx).mono (le_max_right _ _) le_rfl
    · split
      next hremove => exact ⟨hpage', hremove, le_max_left _ _⟩
      next => exact Stage.settled_ok hpage' (le_max_left _ _)
  · intro hlog
    rcases h.duty hlog with hleft | hremoving
    · cases hafter : lastVerdict (after (max (lastVer 0 page) t) log) with
      | some verdict => exact .inl rfl
      | none =>
        -- the last word of the log was in what has just been trimmed, so this page has it
        obtain ⟨hword, hrest⟩ := hpage.unlinks_of_trim hsorted hlog hleft hafter
        rw [if_pos (hpage.plan.needToRemove.mpr hword)]
        exact .inr ⟨page, p, truncated, mem_set (List.getElem?_eq_some_iff.mp hi).1 _, hrest⟩
    · exact .inr (hremoving.set hi fun _ _ _ hst => by cases hst)

theorem unlinks_of_remove (hsorted : Sorted log) (hmem : .removing page p truncated ∈ stages)
    (hrest : lastVerdict (after (lastVer 0 page) log) = none) : lastVerdict log = some none := by
  obtain ⟨hpage, hremove, -⟩ := h.ok _ hmem
  have hword : lastVerdict page = some none := hpage.plan.needToRemove.mp hremove
  rw [← upTo_append_after hsorted (lastVer 0 page), lastVerdict_append, hrest,
    hpage.lastVerdict_upTo hsorted hword]
  rfl

end

end Live

def HeadFollows (log : Log) (tag : Bytes) (before : Option OlhInfo) (s : Shared) (top : Nat)
    (stages : List Stage) : Prop :=
  match s.olh with
  | none => lastVerdict log = some none
  | some o => ∃ t, Live log tag before s top stages o t

inductive Effect (s : Shared) : Call → Shared → Prop
  | same (c : Call) : Effect s c s
  | delete (key : ObjKey) :
      Effect s (.deleteInstance key) { s with instances := s.instances.filter (· ≠ key) }
  | head (c : Call) (o : Head) (o' : Option Head) (h : s.olh = some o) :
      Effect s c { s with olh := o' }
  | trim (c : Call) (tag : Bytes) (l : Log) (ver : Nat) (h : s.index = some (tag, l)) :
      Effect s c { s with index := some (tag, after ver l) }
  | clear (c : Call) : Effect s c { s with index := none }

section Effect

variable {srv : Server} {c : Call}

theorem effect_withIndex {α : Type} {fail : Int → α} {f : Log → α × Shared}
    (hf : ∀ l, s.index = some (tag, l) → Effect s c (f l).2) :
    Effect s c (withIndex srv s tag fail f).2 := by
  unfold withIndex
  split
  · exact .same c
  next t l hindex =>
    split
    next htag => exact hf l (htag ▸ hindex)
    next => exact .same c

/-- What a call can change. -/
theorem effect_answer (srv : Server) (c : Call) (s : Shared) : Effect s c (answer srv c s).2 := by
  cases c with
  | readLog tag marker => exact effect_withIndex fun l _ => .same _
  | deleteInstance key =>
    simp only [answer]
    split
    · exact .delete key
    · exact .same _
  | operate tag ver tags info =>
    simp only [answer]
    split
    · exact .same _
    next o ho =>
      split
      · exact .head _ o _ ho
      · exact .same _
  | trimLog tag ver => exact effect_withIndex fun l hl => .trim _ tag l ver hl
  | remove tag ver =>
    simp only [answer]
    split
    · exact .same _
    next o ho =>
      split
      · exact .head _ o _ ho
      · exact .same _
  | clear tag => exact effect_withIndex fun l _ => .clear _

theorem Effect.olh_none (h : Effect s c s') (hs : s.olh = none) : s'.olh = none := by
  cases h with
  | head c o o' ho =>
    rw [hs] at ho
    cases ho
  | _ => exact hs

theorem Effect.index_subset (h : Effect s c s') (hs : ∀ τ l, s.index = some (τ, l) → l ⊆ log) :
    ∀ τ l, s'.index = some (τ, l) → l ⊆ log := by
  intro τ l hl
  cases h with
  | trim c tag l' ver hindex =>
    obtain ⟨-, rfl⟩ := Prod.mk.inj (some.inj hl)
    exact fun x hx => hs _ _ hindex (mem_after.mp hx).1
  | clear => cases hl
  | _ => exact hs τ l hl

theorem Effect.instances (h : Effect s c s') {key : ObjKey} (hkey : key ∈ s.instances)
    (hc : c ≠ .deleteInstance key) : key ∈ s'.instances := by
  cases h with
  | delete key' =>
    refine mem_filter.mpr ⟨hkey, decide_eq_true ?_⟩
    rintro rfl
    exact hc rfl
  | _ => exact hkey

theorem turn_request (hturn : st.turn srv tag s = some (st', s')) :
    ∃ c, (st.gateway tag).request = some c ∧ Effect s c s' := by
  cases st with
  | reading marker =>
    refine ⟨_, rfl, ?_⟩
    have heffect := effect_answer srv (.readLog tag marker) s
    simp only [Stage.turn] at hturn
    split at hturn
    all_goals
      next h =>
        obtain ⟨-, rfl⟩ := Prod.mk.inj (some.inj hturn)
        rwa [h] at heffect
  | deleting page p keys truncated =>
    cases keys <;> obtain ⟨-, rfl⟩ := Prod.mk.inj (some.inj hturn) <;>
      exact ⟨_, rfl, effect_answer srv _ s⟩
  | trimming page p truncated =>
    obtain ⟨-, rfl⟩ := Prod.mk.inj (some.inj hturn)
    exact ⟨_, rfl, effect_answer srv _ s⟩
  | removing page p truncated =>
    obtain ⟨-, rfl⟩ := Prod.mk.inj (some.inj hturn)
    exact ⟨_, rfl, effect_answer srv _ s⟩
  | clearing page truncated =>
    obtain ⟨-, rfl⟩ := Prod.mk.inj (some.inj hturn)
    exact ⟨_, rfl, effect_answer srv _ s⟩
  | finished ret => cases hturn

end Effect

section Turn

variable {srv : Server}

theorem readLog_live (h : Live log tag before s top stages o t) {marker : Nat}
    (hmarker : marker ≤ t) :
    answer srv (.readLog tag marker) s =
      (.ok ((after t log).take srv.pageSize, decide (srv.pageSize < (after t log).length)), s) := by
  have hafter : after marker (after t log) = after t log :=
    after_eq_self fun x hx => hmarker.trans_lt (mem_after.mp hx).2
  simp only [answer, withIndex, h.index, if_true, hafter]
  rfl

theorem answer_deleteInstance (srv : Server) (s : Shared) (key : ObjKey) :
    ∃ (r : Int) (s' : Shared), answer srv (.deleteInstance key) s = (r, s') ∧
      ¬(r < 0 ∧ r ≠ -Err.enoent) ∧ s'.olh = s.olh ∧ s'.index = s.index := by
  simp only [answer]
  split
  · exact ⟨0, _, rfl, fun h => absurd h.1 (by decide), rfl, rfl⟩
  · exact ⟨-Err.enoent, s, rfl, fun h => h.2 rfl, rfl, rfl⟩

section

variable (h : Live log tag before s top stages o t)
include h

theorem turn_operate (holh : s.olh = some o)
    (hpage : Page log t page p truncated) : (Stage.deleting page p [] truncated).turn srv tag s =
      some (.trimming page p truncated, { s with olh := some (o.operate p.tags p.info) }) := by
  simp only [Stage.turn, answer, holh, h.admits hpage, if_true]
  rfl

theorem turn_trim : (Stage.trimming page p truncated).turn srv tag s =
      some (if p.needToRemove then .removing page p truncated else .settled page truncated,
        { s with index := some (tag, after (max (lastVer 0 page) t) log) }) := by
  simp only [Stage.turn, answer, withIndex, h.index, if_true, after_after]
  rfl

theorem turn_remove (holh : s.olh = some o)
    (hpage : Page log t page p truncated) : (Stage.removing page p truncated).turn srv tag s =
      if o.pending = [] then some (.clearing page truncated, { s with olh := none })
      else some (.settled page truncated, s) := by
  simp only [Stage.turn, answer, holh, h.admits hpage, true_and]
  split <;> rfl

end

/-- Step lemma for one gateway among others. -/
theorem HeadFollows.turn (hsorted : Sorted log) (hknown : Known log)
    (h : HeadFollows log tag before s top stages) (hi : stages[i]? = some st)
    (hturn : st.turn srv tag s = some (st', s'))
    (htimely : Timely log top s.olh (st.gateway tag).request) :
    HeadFollows log tag before s' (topAfter top s.olh (st.gateway tag).request)
    (stages.set i st') := by
  unfold HeadFollows at h
  cases holh : s.olh with
  | none =>
    obtain ⟨c, -, heffect⟩ := turn_request hturn
    rw [holh] at h
    rw [HeadFollows, heffect.olh_none holh]
    exact h
  | some o =>
    rw [holh] at h htimely
    obtain ⟨t, h⟩ := h
    have hok := h.ok st (mem_of_getElem? hi)
    cases st with
    | reading marker =>
      rw [Stage.turn, readLog_live h hok] at hturn
      cases hturn
      rw [HeadFollows, holh]
      exact ⟨t, h.replace rfl hi (Stage.loaded_ok hsorted hknown srv.pageSize_pos marker)
        fun _ _ _ hst => by cases hst⟩
    | deleting page p keys truncated =>
      cases keys with
      | cons key keys =>
        obtain ⟨r, s₁, hanswer, hret, holh', hindex⟩ := answer_deleteInstance srv s key
        rw [Stage.turn, hanswer] at hturn
        cases hturn
        rw [HeadFollows, holh', holh, if_neg hret]
        exact ⟨t, h.replace hindex hi hok fun _ _ _ hst => by cases hst⟩
      | nil =>
        rw [turn_operate h holh hok] at hturn
        cases hturn
        exact ⟨t, h.operate hsorted hi htimely⟩
    | trimming page p truncated =>
      rw [turn_trim h] at hturn
      cases hturn
      rw [holh]
      exact ⟨_, h.trim hsorted hi rfl⟩
    | removing page p truncated =>
      rw [turn_remove h holh hok.1] at hturn
      split at hturn
      next hpending =>
        cases hturn
        refine h.unlinks_of_remove hsorted (mem_of_getElem? hi) ?_
        exact not_isSome_iff_eq_none.mp fun hrest => htimely.mpr hrest hpending
      next hpending =>
        cases hturn
        rw [HeadFollows, holh]
        refine ⟨t, h.replace rfl hi (Stage.settled_ok hok.1 hok.2.2) ?_⟩
        rintro _ _ _ ⟨⟩
        exact htimely.mp hpending
    | clearing page truncated => exact hok.elim
    | finished ret => cases hturn

end Turn

namespace Stage

def keys : Stage → List ObjKey
  | deleting _ _ keys _ => keys
  | _ => []

theorem keys_settled (page : Log) (truncated : Bool) : (settled page truncated).keys = [] := by
  cases truncated <;> rfl

theorem givesUp_loaded {marker : Nat} (hknown : Known page) :
    ∀ k ∈ (loaded marker page truncated).keys, GivesUp page k := by
  obtain ⟨p, hplan, hfollows⟩ := planLog_follows hknown
  unfold loaded
  rw [hplan]
  split_ifs
  · exact fun k hk => by cases hk
  · exact fun k hk => by cases hk
  · exact hfollows.removeInstances

theorem readLog_subset {srv : Server} {marker : Nat} {pages : Log × Bool}
    (hindex : ∀ τ l, s.index = some (τ, l) → l ⊆ log)
    (hread : answer srv (.readLog tag marker) s = (.ok pages, s')) : pages.1 ⊆ log := by
  simp only [answer, withIndex] at hread
  split at hread
  · cases hread
  next τ l hl =>
    split at hread
    next =>
      obtain ⟨hpages, -⟩ := Prod.mk.inj hread
      obtain rfl := Except.ok.inj hpages
      exact fun x hx => hindex τ l hl (mem_after.mp (mem_of_mem_take hx)).1
    next => cases hread

/-- Instances that are removed are those that the log gives up. -/
theorem givesUp_turn {srv : Server} (hknown : Known log)
    (hindex : ∀ τ l, s.index = some (τ, l) → l ⊆ log)
    (hkeys : ∀ k ∈ st.keys, GivesUp log k) (hturn : st.turn srv tag s = some (st', s')) :
    ∀ k ∈ st'.keys, GivesUp log k := by
  have hnone : ∀ {x : Stage}, x.keys = [] → ∀ k ∈ x.keys, GivesUp log k := by
    intro x hx k hk
    rw [hx] at hk
    cases hk
  cases st with
  | reading marker =>
    rw [turn] at hturn
    split at hturn <;> obtain ⟨rfl, rfl⟩ := Prod.mk.inj (some.inj hturn)
    next => exact hnone rfl
    next page truncated _ hread =>
      have hsub : page ⊆ log := readLog_subset hindex hread
      exact fun k hk => (givesUp_loaded (hknown.of_subset hsub) k hk).of_subset hsub
  | deleting page p keys truncated =>
    cases keys with
    | nil =>
      obtain ⟨rfl, -⟩ := Prod.mk.inj (some.inj hturn)
      split
      · exact hnone rfl
      · exact hnone rfl
    | cons key keys =>
      obtain ⟨rfl, -⟩ := Prod.mk.inj (some.inj hturn)
      split
      · exact hnone rfl
      · exact fun k hk => hkeys k (mem_cons_of_mem _ hk)
  | trimming page p truncated =>
    obtain ⟨rfl, -⟩ := Prod.mk.inj (some.inj hturn)
    split_ifs
    · exact hnone rfl
    · exact hnone rfl
    · exact hnone (keys_settled page truncated)
  | removing page p truncated =>
    obtain ⟨rfl, -⟩ := Prod.mk.inj (some.inj hturn)
    split
    · exact hnone (keys_settled page truncated)
    · exact hnone rfl
  | clearing page truncated =>
    obtain ⟨rfl, -⟩ := Prod.mk.inj (some.inj hturn)
    split
    · exact hnone rfl
    · exact hnone (keys_settled page truncated)
  | finished ret => cases hturn

theorem mem_keys_of_request {key : ObjKey}
    (h : (st.gateway tag).request = some (.deleteInstance key)) :
    key ∈ st.keys := by
  cases st with
  | deleting page p keys truncated =>
    cases keys with
    | nil => cases h
    | cons key' keys =>
      cases h
      exact mem_cons_self
  | _ => cases h

theorem eq_finished_of_gateway {ret : Int} (h : st.gateway tag = .finished ret) :
    st = .finished ret := by
  cases st with
  | finished r =>
    cases h
    rfl
  | deleting page p keys truncated => cases keys <;> cases h
  | _ => cases h

end Stage

end RadosGateway.Olh
