import RadosGateway.ObjectLocator
import RadosGateway.Proof.Mangling

/-!
# When the derived fields of an object lag behind

A call that ends with a plain name leaves the locator as it was, and one that ends with an empty
plain name leaves the object string too. These are right afterwards exactly if they were empty
before. -/

namespace RadosGateway.LocatedObj

open Text

def locator (obj : RgwObj) : Bytes := if obj.origObj.head? = some 95 ∧ obj.ns.isEmpty then
  obj.origObj else []

structure Consistent (s : LocatedObj) : Prop where
  object : s.obj.object = RgwObj.mangle s.obj.ns s.obj.inst s.obj.origObj
  loc : s.loc = locator s.obj

def Clear (s : LocatedObj) (ns inst o : Bytes) : Prop :=
  ns.isEmpty = true ∧ ¬ RgwObj.encodesInstance inst ∧ o.head? ≠ some 95 → s.loc = [] ∧
    (o = [] → s.obj.object = [])

def Settles (s : LocatedObj) : Call → Prop
  | .setObj o => Clear s s.obj.ns s.obj.inst o
  | .setNs n => n.head? ≠ some 95 → Clear s n s.obj.inst s.obj.origObj
  | .setInstance i => i.head? ≠ some 95 → Clear s s.obj.ns i s.obj.origObj
  | .resetLoc => True

variable (o : Bytes)

theorem origObj_setObj (obj : RgwObj) : (obj.setObj o).origObj = o := by
  unfold RgwObj.setObj
  dsimp only
  split_ifs <;> rfl

theorem locator_setObj (obj : RgwObj) :
    locator (obj.setObj o) = if o.head? = some 95 ∧ obj.ns.isEmpty then o else [] := by
  unfold locator
  rw [origObj_setObj, (RgwObj.setObj_fields o obj).1]

/-- `set_obj` sets the object string, except that an empty plain name leaves the old one. -/
theorem object_setObj_iff (obj : RgwObj) : (obj.setObj o).object = RgwObj.mangle obj.ns obj.inst o ↔
      (obj.ns.isEmpty = true ∧ ¬ RgwObj.encodesInstance obj.inst ∧ o = [] → obj.object = []) := by
  by_cases ho : o = []
  · subst ho
    unfold RgwObj.setObj RgwObj.mangle
    by_cases hplain : obj.ns.isEmpty ∧ ¬ RgwObj.encodesInstance obj.inst
    · simp [hplain.1, hplain.2]
    · have hcond : ¬ (obj.ns.isEmpty && !RgwObj.encodesInstance obj.inst) = true := by
        simpa using hplain
      have hnot : ¬ (obj.ns.isEmpty = true ∧ ¬ RgwObj.encodesInstance obj.inst ∧
        ([] : Bytes) = []) :=
        fun h => hplain ⟨h.1, h.2.1⟩
      dsimp only
      rw [if_neg hcond, if_neg hcond]
      refine iff_of_true ?_ fun h => absurd h hnot
      simp [ascii]
  · simp [RgwObj.object_setObj ho, ho]

theorem consistent_setObj_iff (s : LocatedObj) : Consistent (s.setObj o) ↔
    Clear s s.obj.ns s.obj.inst o := by
  have hfields := RgwObj.setObj_fields o s.obj
  have hobject := object_setObj_iff o s.obj
  unfold setObj Clear
  by_cases hplain : s.obj.ns.isEmpty ∧ ¬ RgwObj.encodesInstance s.obj.inst ∧ o.head? ≠ some 95
  · dsimp only
    rw [if_pos hplain]
    constructor
    · rintro ⟨hstring, hloc⟩ -
      dsimp only at hstring hloc
      rw [hfields.1, hfields.2, origObj_setObj, hobject] at hstring
      rw [locator_setObj, if_neg fun h => hplain.2.2 h.1] at hloc
      exact ⟨hloc, fun ho => hstring ⟨hplain.1, hplain.2.1, ho⟩⟩
    · intro hclear
      obtain ⟨hloc, hstring⟩ := hclear hplain
      constructor
      · dsimp only
        rw [hfields.1, hfields.2, origObj_setObj, hobject]
        exact fun h => hstring h.2.2
      · dsimp only
        rw [locator_setObj, if_neg fun h => hplain.2.2 h.1]
        exact hloc
  · dsimp only
    rw [if_neg hplain]
    refine iff_of_true ⟨?_, rfl⟩ fun h => absurd h hplain
    change (s.obj.setObj o).object =
      RgwObj.mangle (s.obj.setObj o).ns (s.obj.setObj o).inst (s.obj.setObj o).origObj
    rw [hfields.1, hfields.2, origObj_setObj, hobject]
    rintro ⟨hns, hinst, rfl⟩
    exact absurd ⟨hns, hinst, by simp⟩ hplain

/-- One call keeps the locator consistent exactly if it settles. -/
theorem consistent_call_iff {s : LocatedObj} (h : Consistent s) (c : Call) : Consistent (s.call c) ↔
    Settles s c := by
  cases c with
  | setObj o => exact consistent_setObj_iff o s
  | setNs n =>
    change Consistent (s.setNs n) ↔ (n.head? ≠ some 95 → Clear s n s.obj.inst s.obj.origObj)
    unfold setNs
    by_cases hn : n.head? = some 95
    · simp [hn, h]
    · rw [if_neg hn, consistent_setObj_iff]
      exact ⟨fun hclear _ => hclear, fun hclear => hclear hn⟩
  | setInstance i =>
    change Consistent (s.setInstance i) ↔ (i.head? ≠ some 95 → Clear s s.obj.ns i s.obj.origObj)
    unfold setInstance
    by_cases hi : i.head? = some 95
    · simp [hi, h]
    · rw [if_neg hi, consistent_setObj_iff]
      exact ⟨fun hclear _ => hclear, fun hclear => hclear hi⟩
  | resetLoc => exact iff_of_true ⟨h.object, rfl⟩ trivial

theorem run_append (calls : List Call) (c : Call) : run (calls ++ [c]) = (run calls).call c := by
  unfold run
  rw [List.foldl_append]
  rfl

theorem consistent_new : Consistent {} := ⟨rfl, rfl⟩

/-- The derived fields are right after every call of a sequence exactly if every call has nothing to
clear. -/
theorem consistent_run_iff (calls : List Call) : (∀ done, done <+: calls → Consistent (run done)) ↔
      ∀ done c, done ++ [c] <+: calls → Settles (run done) c := by
  constructor
  · intro h done c hnext
    have hdone := h done ((List.prefix_append done [c]).trans hnext)
    have hcall := h (done ++ [c]) hnext
    rw [run_append] at hcall
    exact (consistent_call_iff hdone c).mp hcall
  · intro h done hdone
    induction done using List.reverseRecOn with
    | nil => exact consistent_new
    | append_singleton done c ih =>
      have hbefore := ih ((List.prefix_append done [c]).trans hdone)
      rw [run_append]
      exact (consistent_call_iff hbefore c).mpr (h done c hdone)

/-- The locator of the first name is left to the second one. -/
theorem not_consistent_renamed :
    ¬ Consistent (run [.setObj (ascii "_a"), .setObj (ascii "b")]) := by
  intro h
  have hloc := h.loc
  revert hloc
  decide

end RadosGateway.LocatedObj
