import RadosGateway.MetadataLog

/-!
# Changes are bracketed by log entries

Every request leaves an announcement that failed, or an announcement, the change and one entry with
its outcome. -/

namespace RadosGateway.MetadataLog

open Text

def Status.Pending : Status → Prop
  | .write | .setattrs | .remove => True
  | _ => False

def outcome (ret : Int) : Status := if ret ≥ 0 then .complete else .abort

def Announces (es : List Event) : Prop :=
  ∀ e ∈ es.head?, ∃ sectionName key data ret, e = .log sectionName key data ret ∧
    data.status.Pending

inductive Bracketed : List Event → Prop
  | nil : Bracketed []
  | refused {sectionName key : Bytes} {data : LogData} {ret : Int} {es : List Event}
    (hpending : data.status.Pending)
      (hret : ret < 0) (hrest : Bracketed es) : Bracketed (.log sectionName key data ret :: es)
  | changed {sectionName key : Bytes} {data : LogData} {ret r ret' : Int}
    {tracker : Option VersionTracker}
      {es : List Event} (hpending : data.status.Pending) (hret : 0 ≤ ret) (hrest : Bracketed es) :
      Bracketed (.log sectionName key data ret :: .mutate data.status key tracker r ::
        .log sectionName key { data with status := outcome r } ret' :: es)

variable {es : List Event}

theorem Bracketed.modify (h : Bracketed es) (opType : Status) (hop : opType.Pending) (c : Call) :
    Bracketed ((modify opType true c).2 ++ es) := by
  rw [MetadataLog.modify, preModify, addEntry, if_pos rfl]
  dsimp only
  split_ifs with hret
  · exact .refused hop hret h
  · exact .changed hop (Int.not_lt.mp hret) h

theorem bracketed_trace (requests : List Request) : Bracketed (trace true requests) := by
  induction requests with
  | nil => exact .nil
  | cons r requests ih =>
    cases r with
    | putEntry c => exact ih.modify .write trivial c
    | removeEntry c => exact ih.modify .remove trivial c
    | setAttrs c => exact ih.modify .setattrs trivial c

theorem Bracketed.announces (h : Bracketed es) : Announces es := by
  cases h with
  | nil => exact fun e he => nomatch he
  | refused hpending | changed hpending =>
    intro e he
    cases he
    exact ⟨_, _, _, _, rfl, hpending⟩

def BracketAt (es : List Event) (i : Nat) (op : Status) (key : Bytes) (r : Int) : Prop :=
  ∃ j sectionName data ret ret', i = j + 1 ∧ data.status = op ∧ op.Pending ∧ 0 ≤ ret ∧
    es[j]? = some (.log sectionName key data ret) ∧
    es[i + 1]? = some (.log sectionName key { data with status := outcome r } ret') ∧
      Announces (es.drop (i + 2))

variable {op : Status} {key : Bytes} {r : Int}

theorem BracketAt.shift {i k : Nat} (h : BracketAt (es.drop k) i op key r) :
    BracketAt es (k + i) op key r := by
  obtain ⟨j, sectionName, data, ret, ret', rfl, hop, hpending, hret, hbefore, hbehind, hnext⟩ := h
  rw [List.getElem?_drop] at hbefore hbehind
  rw [List.drop_drop] at hnext
  exact ⟨k + j, sectionName, data, ret, ret', rfl, hop, hpending, hret, hbefore, hbehind, hnext⟩

/-- Every mutation of a bracketed run is bracketed where it stands. -/
theorem Bracketed.bracketAt (h : Bracketed es) {i : Nat} {tracker : Option VersionTracker}
    (hi : es[i]? = some (.mutate op key tracker r)) : BracketAt es i op key r := by
  induction h generalizing i with
  | nil => cases hi
  | refused hpending hret hrest ih =>
    cases i with
    | zero => cases hi
    | succ i =>
      rw [add_comm]
      exact BracketAt.shift (ih hi)
  | changed hpending hret hrest ih =>
    match i with
    | 0 | 2 => cases hi
    | 1 =>
      cases hi
      exact ⟨0, _, _, _, _, rfl, rfl, hpending, hret, rfl, rfl, hrest.announces⟩
    | i + 3 =>
      rw [add_comm]
      exact BracketAt.shift (ih hi)

/-- Without the log a request is its change and nothing else. -/
theorem events_false (r : Request) : r.events false = [r.change] := by
  cases r <;> simp [Request.events, putEntry, removeEntry, setAttrs, MetadataLog.modify, preModify,
    postModify, addEntry, Request.change, Request.op, Request.call]

/-- In a zone that logs metadata, around every change there are its announcement, written, and one
attempt to log its outcome. In a zone that does not, nothing is written, and every change is made
all the same. -/
theorem changes_bracketed (requests : List Request) :
    (∀ i op key tracker r, (trace true requests)[i]? = some (.mutate op key tracker r) →
      BracketAt (trace true requests) i op key r) ∧
    trace false requests = requests.map Request.change := by
  refine ⟨fun i op key tracker r hi => (bracketed_trace requests).bracketAt hi, ?_⟩
  rw [trace, List.flatMap_congr fun r _ => events_false r, ← List.map_eq_flatMap]

def sampleCall : Call := ⟨[117], [97], none, 0, -5, 0⟩

/-- A removal that fails behind a change whose announcement was not written. -/
theorem removal_bracketed :
    BracketAt (trace true [.putEntry { sampleCall with pre := -5 }, .removeEntry sampleCall])
      2 .remove [97] (-5) :=
  (changes_bracketed [.putEntry { sampleCall with pre := -5 }, .removeEntry sampleCall]).1
    2 .remove [97] none (-5) rfl

/-- Without the log the change is made all the same. -/
theorem change_not_logged : trace false [.putEntry sampleCall] = [.mutate .write [97] none (-5)] :=
  rfl

end RadosGateway.MetadataLog
