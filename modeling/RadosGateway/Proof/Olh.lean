import RadosGateway.Proof.OlhHead

/-!
# Applying the log of an object, from several gateways

The guard of the write to the head compares the version of the page with one that is never written,
so it lets an old page through after a newer one. As long as this does not happen, the head names
the target of the highest version that has been applied. -/

namespace RadosGateway.Olh

open Text Proc VersionLog Option
open List hiding after

variable {log : Log} {tag : Bytes} {s₀ : System} {a a' : Audit} {stages : List Stage} {srv : Server}
  {l : Label}

/-- With all stages finished, the head has recorded the log. -/
theorem Live.recorded {before : Option OlhInfo} {s : Shared} {top t : Nat} {o : Head}
    (h : Live log tag before s top stages o t) (hdone : ∀ st ∈ stages, ∃ r, st = .finished r)
    (hne : stages ≠ []) : Recorded before log (some o) := by
  have hall : ∀ x ∈ log, x.1 ≤ t := by
    obtain ⟨st, hst⟩ := exists_mem_of_ne_nil stages hne
    obtain ⟨r, rfl⟩ := hdone st hst
    exact h.ok _ hst
  have htop : upTo top log = log :=
    filter_eq_self.mpr fun x hx => decide_eq_true ((hall x hx).trans h.trimmed_le)
  have hafter : after t log = [] :=
    filter_eq_nil_iff.mpr fun x hx => by simpa using hall x hx
  have htarget := h.target
  rw [TargetAt, htop] at htarget
  rw [Recorded]
  cases hlog : lastVerdict log with
  | none =>
    rw [hlog] at htarget
    exact congrArg some htarget
  | some verdict =>
    cases verdict with
    | some info =>
      rw [hlog] at htarget
      exact congrArg some htarget
    | none =>
      -- somebody would still have to remove the head
      rcases h.duty hlog with hsome | ⟨page, p, truncated, hmem, -⟩
      · rw [hafter] at hsome
        cases hsome
      · obtain ⟨r, hr⟩ := hdone _ hmem
        cases hr

structure Inv (log : Log) (tag : Bytes) (s₀ : System) (a : Audit) (stages : List Stage) : Prop where
  gateways : a.sys.gateways = stages.map (Stage.gateway tag)
  index : ∀ τ l, a.sys.shared.index = some (τ, l) → l ⊆ log
  keys : ∀ st ∈ stages, ∀ k ∈ st.keys, GivesUp log k
  instances : ∀ k ∈ s₀.shared.instances, ¬GivesUp log k → k ∈ a.sys.shared.instances
  head : HeadFollows log tag (s₀.shared.olh.bind Head.info) a.sys.shared a.top stages

namespace Inv

theorem start (h : Inv log tag s₀ a stages) (hstep : a.step srv .start = some a') :
    ∃ stages', Inv log tag s₀ a' stages' := by
  obtain ⟨s', hs', rfl⟩ := map_eq_some_iff.mp hstep
  obtain ⟨o, ho, rfl⟩ := map_eq_some_iff.mp hs'
  have hhead := h.head
  rw [HeadFollows, ho] at hhead
  obtain ⟨t, hlive⟩ := hhead
  refine ⟨stages ++ [.reading 0], ?_, h.index, ?_, h.instances, ?_⟩
  · simp [h.gateways, hlive.idTag, Stage.gateway]
  · intro st hst k hk
    rcases mem_append.mp hst with hst | hst
    · exact h.keys st hst k hk
    · obtain rfl := mem_singleton.mp hst
      cases hk
  · rw [HeadFollows]
    dsimp only
    rw [ho]
    refine ⟨t, { hlive with ok := ?_, duty := ?_ }⟩
    · intro st hst
      rcases mem_append.mp hst with hst | hst
      · exact hlive.ok st hst
      · obtain rfl := mem_singleton.mp hst
        exact Nat.zero_le t
    · rintro hlog
      rcases hlive.duty hlog with hleft | ⟨page, p, truncated, hmem, hrest⟩
      · exact .inl hleft
      · exact .inr ⟨page, p, truncated, mem_append_left _ hmem, hrest⟩

theorem modify {opTag : Bytes} (h : Inv log tag s₀ a stages)
    (hstep : a.step srv (.modify opTag) = some a') : ∃ stages', Inv log tag s₀ a' stages' := by
  obtain ⟨s', hs', rfl⟩ := map_eq_some_iff.mp hstep
  obtain ⟨o, ho, rfl⟩ := map_eq_some_iff.mp hs'
  have hhead := h.head
  rw [HeadFollows, ho] at hhead
  obtain ⟨t, hlive⟩ := hhead
  refine ⟨stages, h.gateways, h.index, h.keys, h.instances, ?_⟩
  have htop : topAfter a.top a.sys.shared.olh (a.sys.request (.modify opTag)) = a.top := by
    rw [ho]
    rfl
  dsimp only
  rw [htop]
  exact ⟨t, hlive.index, hlive.idTag, hlive.ver, hlive.trimmed_le, hlive.target, hlive.ok,
    hlive.duty⟩

/-- Step lemma: a timely turn keeps the invariant. -/
theorem turn {i : Nat} (hsorted : Sorted log) (hknown : Known log) (h : Inv log tag s₀ a stages)
    (htimely : a.Timely log (.turn i)) (hstep : a.step srv (.turn i) = some a') :
    ∃ stages', Inv log tag s₀ a' stages' := by
  obtain ⟨s', hs', rfl⟩ := map_eq_some_iff.mp hstep
  obtain ⟨⟨g, shared⟩, hg, rfl⟩ := map_eq_some_iff.mp hs'
  obtain ⟨g₀, hg₀, hturn⟩ := bind_eq_some_iff.mp hg
  rw [h.gateways, getElem?_map] at hg₀
  obtain ⟨st, hi, rfl⟩ := map_eq_some_iff.mp hg₀
  rw [Stage.turn_gateway] at hturn
  obtain ⟨⟨st', s₁⟩, hst', hpair⟩ := map_eq_some_iff.mp hturn
  cases hpair
  have hrequest : a.sys.request (.turn i) = (st.gateway tag).request := by
    simp [System.request, h.gateways, hi]
  obtain ⟨c, hc, heffect⟩ := turn_request hst'
  refine ⟨stages.set i st', ?_, heffect.index_subset h.index, ?_, ?_, ?_⟩
  · simp [h.gateways, map_set]
  · intro x hx
    rcases mem_or_eq_of_mem_set hx with hx | rfl
    · exact h.keys x hx
    · exact Stage.givesUp_turn hknown h.index (h.keys st (mem_of_getElem? hi)) hst'
  · intro k hk hgives
    refine heffect.instances (h.instances k hk hgives) ?_
    rintro rfl
    exact hgives (h.keys st (mem_of_getElem? hi) k (Stage.mem_keys_of_request hc))
  · rw [Audit.Timely, hrequest] at htimely
    dsimp only
    rw [hrequest]
    exact h.head.turn hsorted hknown hi hst' htimely

theorem step (hsorted : Sorted log) (hknown : Known log) (h : Inv log tag s₀ a stages)
    (htimely : a.Timely log l) (hstep : a.step srv l = some a') :
    ∃ stages', Inv log tag s₀ a' stages' := by
  cases l with
  | start => exact h.start hstep
  | modify opTag => exact h.modify hstep
  | turn i => exact h.turn hsorted hknown htimely hstep

theorem finished (h : Inv log tag s₀ a stages)
    (hdone : ∀ g ∈ a.sys.gateways, ∃ r, g = .finished r) :
    ∀ st ∈ stages, ∃ r, st = .finished r := by
  intro st hst
  obtain ⟨r, hr⟩ := hdone (st.gateway tag) (by rw [h.gateways]; exact List.mem_map_of_mem hst)
  exact ⟨r, Stage.eq_finished_of_gateway hr⟩

/-- What the invariant says of the whole system. -/
theorem followsLog (h : Inv log tag s₀ a stages) : a.FollowsLog log s₀ := by
  have hhead := h.head
  refine ⟨h.instances, ?_, ?_⟩
  · intro o info ho hverdict
    rw [HeadFollows, ho] at hhead
    obtain ⟨t, hlive⟩ := hhead
    have htarget := hlive.target
    rw [TargetAt, hverdict] at htarget
    exact htarget
  · intro hne hdone
    cases holh : a.sys.shared.olh with
    | none =>
      rw [HeadFollows, holh] at hhead
      rw [Recorded, hhead]
    | some o =>
      rw [HeadFollows, holh] at hhead
      obtain ⟨t, hlive⟩ := hhead
      exact hlive.recorded (h.finished hdone) (fun hnil => hne (by rw [h.gateways, hnil]; rfl))

end Inv

/-- In a run whose steps are all timely, the head follows the log: an instance the log does not give
up is kept, the head names the target of the highest version applied, and when all gateways are done
it is as the whole log has it. -/
theorem followsLog_of_timely (srv : Server) {log : Log} (hsorted : Sorted log) (hknown : Known log)
    {s₀ : System} (hfresh : s₀.Fresh log) {ls : List Label} {a : Audit}
    (hrun : Transition.Steps (Audit.step srv) (Audit.Timely log) ⟨s₀, 0⟩ ls a) :
    a.FollowsLog log s₀ := by
  obtain ⟨o, ho, hindex, hver⟩ := hfresh.head
  have hpos : ∀ x ∈ log, 0 < x.1 := fun x hx => (Nat.zero_le _).trans_lt (hver x hx)
  have hupTo : upTo 0 log = [] := filter_eq_nil_iff.mpr fun x hx => by simpa using (hpos x hx).ne'
  have hlive : Live log o.idTag (s₀.shared.olh.bind Head.info) s₀.shared 0 [] o 0 := by
    refine ⟨?_, rfl, hver, le_rfl, ?_, forall_mem_nil _, fun hlog => .inl ?_⟩
    · rw [after_eq_self hpos, hindex]
    · rw [TargetAt, hupTo, ho]
      rfl
    · rw [after_eq_self hpos, hlog]
      rfl
  have hinit : Inv log o.idTag s₀ ⟨s₀, 0⟩ [] := by
    refine ⟨hfresh.gateways, ?_, forall_mem_nil _, fun k hk _ => hk, ?_⟩
    · intro τ l hl
      rw [hindex] at hl
      obtain ⟨-, rfl⟩ := Prod.mk.inj (some.inj hl)
      exact List.Subset.refl _
    · rw [HeadFollows]
      dsimp only
      rw [ho]
      exact ⟨0, by rw [ho] at hlive; exact hlive⟩
  obtain ⟨stages, hinv⟩ := hrun.invariant (I := fun a => ∃ stages, Inv log o.idTag s₀ a stages)
    (fun h htimely hstep => h.elim fun _ h => h.step hsorted hknown htimely hstep) ⟨[], hinit⟩
  exact hinv.followsLog

theorem Sample.fresh : Sample.system.Fresh Sample.log where
  gateways := rfl
  head := ⟨Sample.head, rfl, rfl, by decide⟩

/-- Two gateways take turns, each of them through both pages of the log. -/
theorem sample_followsLog :
    ∃ a, Transition.Steps (Audit.step Sample.server) (Audit.Timely Sample.log) ⟨Sample.system, 0⟩
      (.start :: .start :: (List.replicate 6 [.turn 0, .turn 1]).flatten) a ∧
      a.sys.gateways = [.finished 0, .finished 0] ∧ a.FollowsLog Sample.log Sample.system := by
  have hrun : Transition.Steps (Audit.step Sample.server) (Audit.Timely Sample.log) ⟨Sample.system,
    0⟩
      (.start :: .start :: (List.replicate 6 [.turn 0, .turn 1]).flatten)
      ⟨⟨{ Sample.system.shared with
          olh := some { Sample.head with info := some ⟨Sample.instanceB, false⟩, pending := [] }
          index := some (ascii "t", []) }, [.finished 0, .finished 0]⟩, 2⟩ := .of_foldlM rfl
  exact ⟨_, hrun, rfl,
    followsLog_of_timely Sample.server (by simp [Sorted, Sample.log]) (by unfold Known; decide)
      Sample.fresh hrun⟩

/-- A gateway reads the first page, another one applies the whole log, and then the first one writes
its page: in the end the head names the instance of the lower version. -/
theorem old_page_wins :
    ∃ s, (Label.start :: .start :: .turn 0 ::
      (List.replicate 6 (.turn 1) ++ List.replicate 3 (.turn 0))).foldlM
        (System.step Sample.server) Sample.system = some s ∧
        s.gateways = [.finished 0, .finished 0] ∧
      s.shared.olh.map Head.info = some (some ⟨Sample.instanceA, false⟩) ∧
      ¬Recorded none Sample.log s.shared.olh :=
  ⟨⟨{ Sample.system.shared with
      olh := some { Sample.head with info := some ⟨Sample.instanceA, false⟩, pending := [] }
      index := some (ascii "t", []) }, [.finished 0, .finished 0]⟩, rfl, rfl, rfl, by
    intro h
    cases h⟩

end RadosGateway.Olh
