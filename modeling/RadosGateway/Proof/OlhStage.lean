import RadosGateway.Olh

/-!
# A gateway's way through the log

What `apply_olh_log` makes of a page is its last word on the target, and the keys of the instances
it gives up. A gateway goes through stages, one for each kind of request, which determine its
program. -/

namespace RadosGateway.Olh

open Text Proc VersionLog List

theorem entries_append (l l' : Log) : entries (l ++ l') = entries l ++ entries l' := flatMap_append

theorem lastVerdict_append (l l' : Log) :
    lastVerdict (l ++ l') = (lastVerdict l').or (lastVerdict l) := by
  rw [lastVerdict, entries_append, filterMap_append, getLast?_append]
  rfl

structure Plan.Follows (p : Plan) (es : List LogEntry) : Prop where
  info : p.info = ((es.filterMap LogEntry.verdict).getLast?).join
  needToRemove : p.needToRemove = true ↔ (es.filterMap LogEntry.verdict).getLast? = some none
  removeInstances : ∀ k ∈ p.removeInstances, ∃ e ∈ es, e.op = .removeInstance ∧ e.key = k

/-- A plan takes one more entry of the log. -/
theorem Plan.Follows.add {p : Plan} {es : List LogEntry} (h : p.Follows es) {e : LogEntry}
    (he : e.op ≠ .unknown) : ∃ p', p.add e = some p' ∧ p'.Follows (es ++ [e]) := by
  have hold : ∀ k ∈ p.removeInstances, ∃ e' ∈ es ++ [e], e'.op = .removeInstance ∧ e'.key = k := by
    intro k hk
    obtain ⟨e', he', hop⟩ := h.removeInstances k hk
    exact ⟨e', mem_append_left _ he', hop⟩
  cases hop : e.op with
  | unknown => exact absurd hop he
  | linkOlh =>
    refine ⟨{ p with needToLink := true, needToRemove := false, key := e.key,
                     deleteMarker := e.deleteMarker, tags := p.tags ++ [e.opTag] },
      by simp only [Plan.add, hop], ?_, ?_, hold⟩
    · simp [Plan.info, LogEntry.verdict, hop]
    · simp [LogEntry.verdict, hop]
  | unlinkOlh =>
    refine ⟨{ p with needToRemove := true, needToLink := false, tags := p.tags ++ [e.opTag] },
      by simp only [Plan.add, hop], ?_, ?_, hold⟩
    · simp [Plan.info, LogEntry.verdict, hop]
    · simp [LogEntry.verdict, hop]
  | removeInstance =>
    refine ⟨{ p with removeInstances := p.removeInstances ++ [e.key], tags := p.tags ++ [e.opTag] },
      by simp only [Plan.add, hop], ?_, ?_, ?_⟩
    · have hinfo := h.info
      rw [filterMap_append, show [e].filterMap LogEntry.verdict = [] by
        simp [LogEntry.verdict, hop], append_nil]
      exact hinfo
    · simpa [LogEntry.verdict, hop] using h.needToRemove
    · intro k hk
      rcases mem_append.mp hk with hk | hk
      · exact hold k hk
      · exact ⟨e, by simp, hop, (mem_singleton.mp hk).symm⟩

theorem planLog_follows {log : Log} (h : Known log) : ∃ p, planLog log = some p ∧
    p.Follows (entries log) := by
  unfold planLog
  rw [Known] at h
  generalize entries log = es at h ⊢
  induction es using List.reverseRecOn with
  | nil => exact ⟨{}, rfl, rfl, by simp, by simp⟩
  | append_singleton es e ih =>
    obtain ⟨p, hfold, hp⟩ := ih fun e' he' => h e' (mem_append_left _ he')
    obtain ⟨p', hadd, hp'⟩ := hp.add (h e (by simp))
    refine ⟨p', ?_, hp'⟩
    rw [foldlM_append, hfold]
    simp [hadd]

inductive Stage where
  | reading (marker : Nat)
  /-- The keys are still to be deleted; after the last one the head is written. -/
  | deleting (page : Log) (p : Plan) (keys : List ObjKey) (truncated : Bool)
  | trimming (page : Log) (p : Plan) (truncated : Bool)
  | removing (page : Log) (p : Plan) (truncated : Bool)
  | clearing (page : Log) (truncated : Bool)
  | finished (ret : Int)

namespace Stage

def gateway (tag : Bytes) : Stage → Gateway
  | reading marker => .reading tag marker
  | deleting page p keys truncated =>
    .resume tag (lastVer 0 page) truncated (do
      let r ← deleteInstances keys
      if r < 0 then pure r else operateOlh tag (lastVer 0 page) p)
  | trimming page p truncated =>
    .resume tag (lastVer 0 page) truncated (do
      let r : Int ← perform (Call.trimLog tag (lastVer 0 page))
      if r < 0 then pure r else removeOlh tag (lastVer 0 page) p)
  | removing page _ truncated =>
    .resume tag (lastVer 0 page) truncated (do
      let r : Int ← perform (Call.remove tag (lastVer 0 page))
      if r = -Err.ecanceled then pure 0
      else do
        let r : Int ← perform (Call.clear tag)
        if r < 0 then pure r else pure 0)
  | clearing page truncated =>
    .resume tag (lastVer 0 page) truncated (do
      let r : Int ← perform (Call.clear tag)
      if r < 0 then pure r else pure 0)
  | finished ret => .finished ret

def settled (page : Log) (truncated : Bool) : Stage :=
  if truncated then reading (lastVer 0 page) else finished 0

def loaded (marker : Nat) (page : Log) (truncated : Bool) : Stage :=
  if page = [] then if truncated then reading marker else finished 0
  else match planLog page with
    | none => finished (-Err.eio)
    | some p => deleting page p p.removeInstances truncated

def turn (srv : Server) (tag : Bytes) (s : Shared) : Stage → Option (Stage × Shared)
  | reading marker =>
    match answer srv (.readLog tag marker) s with
    | (.error r, s) => some (finished r, s)
    | (.ok (page, truncated), s) => some (loaded marker page truncated, s)
  | deleting page p (key :: keys) truncated =>
    let r : Int × Shared := answer srv (.deleteInstance key) s
    some (if r.1 < 0 ∧ r.1 ≠ -Err.enoent then finished r.1 else deleting page p keys truncated, r.2)
  | deleting page p [] truncated =>
    let r : Int × Shared := answer srv (.operate tag (lastVer 0 page) p.tags p.info) s
    some (if r.1 < 0 ∧ r.1 ≠ -Err.ecanceled then finished r.1 else trimming page p truncated, r.2)
  | trimming page p truncated =>
    let r : Int × Shared := answer srv (.trimLog tag (lastVer 0 page)) s
    some (if r.1 < 0 then finished r.1
      else if p.needToRemove then removing page p truncated else settled page truncated, r.2)
  | removing page _ truncated =>
    let r : Int × Shared := answer srv (.remove tag (lastVer 0 page)) s
    some (if r.1 = -Err.ecanceled then settled page truncated else clearing page truncated, r.2)
  | clearing page truncated =>
    let r : Int × Shared := answer srv (.clear tag) s
    some (if r.1 < 0 then finished r.1 else settled page truncated, r.2)
  | finished _ => none

theorem resume_done_of_neg {tag : Bytes} {marker : Nat} {truncated : Bool} {r : Int} (hr : r < 0) :
    Gateway.resume tag marker truncated (.done r) = (finished r).gateway tag := by
  simp [Gateway.resume, hr, gateway]

theorem resume_done_zero (tag : Bytes) (page : Log) (truncated : Bool) :
    Gateway.resume tag (lastVer 0 page) truncated (.done 0) =
      (settled page truncated).gateway tag := by
  cases truncated <;> rfl

theorem lastVer_of_ne_nil {page : Log} (h : page ≠ []) (marker : Nat) :
    lastVer marker page = lastVer 0 page := by
  simp [lastVer, getLast?_eq_getLast_of_ne_nil h]

theorem resume_loaded (tag : Bytes) (marker : Nat) (page : Log) (truncated : Bool) :
    Gateway.resume tag (lastVer marker page) truncated (applyOlhLog tag page) =
      (loaded marker page truncated).gateway tag := by
  unfold applyOlhLog loaded
  by_cases hpage : page = []
  · subst hpage
    cases truncated <;> rfl
  · rw [if_neg hpage, if_neg hpage, lastVer_of_ne_nil hpage]
    cases planLog page with
    | none => exact resume_done_of_neg (by decide)
    | some p => rfl

theorem turn_resume (srv : Server) (s : Shared) (tag : Bytes) (marker : Nat) (truncated : Bool)
    (c : Call)
    (f : c.Answer → Prog Int) : (Gateway.resume tag marker truncated (perform c >>= f)).turn srv s =
      some (Gateway.resume tag marker truncated (f (answer srv c s).1), (answer srv c s).2) := rfl

/-- Stages are what gateways do. -/
theorem turn_gateway (srv : Server) (tag : Bytes) (s : Shared) (st : Stage) :
    (st.gateway tag).turn srv s = (st.turn srv tag s).map (Prod.map (gateway tag) id) := by
  cases st with
  | reading marker =>
    simp only [gateway, Gateway.turn, turn]
    rcases answer srv (.readLog tag marker) s with ⟨r | page, s'⟩
    · rfl
    · exact congrArg (fun g => some (g, s')) (resume_loaded tag marker page.1 page.2)
  | deleting page p keys truncated =>
    cases keys with
    | nil =>
      refine (turn_resume srv s tag _ _ (.operate tag (lastVer 0 page) p.tags p.info)
        fun r : Int => if r < 0 ∧ r ≠ -Err.ecanceled then pure r else do
          let r : Int ← perform (Call.trimLog tag (lastVer 0 page))
          if r < 0 then pure r else removeOlh tag (lastVer 0 page) p).trans ?_
      refine congrArg (fun g => some (g, _)) ?_
      split_ifs with h
      · exact resume_done_of_neg h.1
      · rfl
    | cons key keys =>
      refine (turn_resume srv s tag _ _ (.deleteInstance key) fun r : Int =>
        (if r < 0 ∧ r ≠ -Err.enoent then pure r else deleteInstances keys) >>= fun r =>
          if r < 0 then pure r else operateOlh tag (lastVer 0 page) p).trans ?_
      refine congrArg (fun g => some (g, _)) ?_
      split_ifs with h
      · exact (congrArg (Gateway.resume tag (lastVer 0 page) truncated) (if_pos h.1)).trans
          (resume_done_of_neg h.1)
      · rfl
  | trimming page p truncated =>
    refine (turn_resume srv s tag _ _ (.trimLog tag (lastVer 0 page)) fun r : Int =>
      if r < 0 then pure r else removeOlh tag (lastVer 0 page) p).trans ?_
    refine congrArg (fun g => some (g, _)) ?_
    dsimp only [removeOlh]
    split_ifs with h hp
    · exact resume_done_of_neg h
    · rfl
    · exact resume_done_zero tag page truncated
  | removing page p truncated =>
    refine (turn_resume srv s tag _ _ (.remove tag (lastVer 0 page)) fun r : Int =>
      if r = -Err.ecanceled then pure 0 else do
        let r : Int ← perform (Call.clear tag)
        if r < 0 then pure r else pure 0).trans ?_
    refine congrArg (fun g => some (g, _)) ?_
    split_ifs with h
    · exact resume_done_zero tag page truncated
    · rfl
  | clearing page truncated =>
    refine (turn_resume srv s tag _ _ (.clear tag) fun r : Int =>
      if r < 0 then pure r else pure 0).trans ?_
    refine congrArg (fun g => some (g, _)) ?_
    split_ifs with h
    · exact resume_done_of_neg h
    · exact resume_done_zero tag page truncated
  | finished ret => rfl

end Stage

end RadosGateway.Olh
