import RadosGateway.Base.Bytes

/-!
# Cross-origin rules

The rules of a bucket, and the removal of an origin from them. The sets of a rule are lists in the
order in which they are visited. The removal stops at the first rule it has emptied. -/

namespace RadosGateway.Cors

open Text List

structure Rule where
  maxAge : Nat
  allowedMethods : BitVec 8
  id : Bytes
  allowedHdrs : List Bytes
  allowedOrigins : List Bytes
  exposableHdrs : List Bytes
  deriving DecidableEq

/-- Also says whether the rule has become empty. -/
def Rule.eraseOriginIfPresent (r : Rule) (origin : Bytes) : Rule × Bool :=
  if origin ∈ r.allowedOrigins then
    let origins := r.allowedOrigins.filter (· ≠ origin)
    ({ r with allowedOrigins := origins }, origins.isEmpty)
  else (r, false)

def eraseHostNameRule (origin : Bytes) : List Rule → List Rule
  | [] => []
  | r :: rules =>
    let (r, ruleEmpty) := r.eraseOriginIfPresent origin
    if ruleEmpty then rules else r :: eraseHostNameRule origin rules

variable {r : Rule} {rules : List Rule} {origin : Bytes}

/-- What a removal is to leave of a rule. -/
def Rule.without (origin : Bytes) (r : Rule) : Option Rule :=
  let r' := { r with allowedOrigins := r.allowedOrigins.filter (· ≠ origin) }
  if origin ∈ r.allowedOrigins ∧ r'.allowedOrigins = [] then none else some r'

def Rule.Only (origin : Bytes) (r : Rule) : Prop :=
  origin ∈ r.allowedOrigins ∧ ∀ o ∈ r.allowedOrigins, o = origin

theorem without_eq_some_self (hr : origin ∉ r.allowedOrigins) : r.without origin = some r := by
  have hself : r.allowedOrigins.filter (· ≠ origin) = r.allowedOrigins := by
    refine filter_eq_self.mpr fun o ho => decide_eq_true fun heq => hr (heq ▸ ho)
  rw [Rule.without, if_neg fun hand => hr hand.1, hself]

theorem notMem_of_without {r' : Rule} (h : r.without origin = some r') :
    origin ∉ r'.allowedOrigins := by
  rw [Rule.without] at h
  split_ifs at h
  obtain rfl := Option.some.inj h
  simp

theorem filterMap_without_eq_self :
    rules.filterMap (Rule.without origin) = rules ↔ ∀ r ∈ rules, origin ∉ r.allowedOrigins := by
  constructor
  · intro heq r hr
    rw [← heq] at hr
    obtain ⟨r₀, -, hwithout⟩ := mem_filterMap.mp hr
    exact notMem_of_without hwithout
  · intro hnot
    rw [filterMap_congr fun r hr => without_eq_some_self (hnot r hr), filterMap_some]

theorem erase_cases (r : Rule) (origin : Bytes) :
    r.Only origin ∧ (r.eraseOriginIfPresent origin).2 = true ∧ r.without origin = none ∨
      ¬r.Only origin ∧ (r.eraseOriginIfPresent origin).2 = false ∧
        r.without origin = some (r.eraseOriginIfPresent origin).1 := by
  by_cases hmem : origin ∈ r.allowedOrigins
  · rw [Rule.eraseOriginIfPresent, if_pos hmem, Rule.Only, and_iff_right hmem, Rule.without]
    by_cases hall : ∀ o ∈ r.allowedOrigins, o = origin
    · have hempty : r.allowedOrigins.filter (· ≠ origin) = [] := by simpa using hall
      exact .inl ⟨hall, isEmpty_iff.mpr hempty, if_pos ⟨hmem, hempty⟩⟩
    · have hne : r.allowedOrigins.filter (· ≠ origin) ≠ [] := by simpa using hall
      exact .inr ⟨hall, isEmpty_eq_false_iff.mpr hne, if_neg fun hand => hne hand.2⟩
  · rw [Rule.eraseOriginIfPresent, if_neg hmem]
    exact .inr ⟨fun honly => hmem honly.1, rfl, without_eq_some_self hmem⟩

/-- `erase_host_name_rule` takes the origin out of every rule exactly if no rule behind one that
allows only this origin allows it too: the loop ends with the first rule that becomes empty. -/
theorem rule_removed_iff (origin : Bytes) (rules : List Rule) :
    eraseHostNameRule origin rules = rules.filterMap (Rule.without origin) ↔
      rules.Pairwise fun r behind => r.Only origin → origin ∉ behind.allowedOrigins := by
  induction rules with
  | nil => exact iff_of_true rfl .nil
  | cons r rules ih =>
    rw [pairwise_cons, eraseHostNameRule, filterMap_cons]
    dsimp only
    rcases erase_cases r origin with ⟨honly, hempty, hwithout⟩ | ⟨honly, hempty, hwithout⟩
    · rw [hempty, hwithout, if_pos rfl, eq_comm, filterMap_without_eq_self]
      refine ⟨fun hnot => ⟨fun r' hr' _ => hnot r' hr', ?_⟩, fun hand r' hr' => hand.1 r' hr' honly⟩
      exact pairwise_of_forall_mem_list fun r' hr' r'' _ honly' => absurd honly'.1 (hnot r' hr')
    · rw [hempty, hwithout, if_neg Bool.false_ne_true, List.cons.injEq, and_iff_right rfl, ih,
        and_iff_right fun r' _ honly' => absurd honly' honly]

def only (origin : Bytes) : Rule := ⟨0, 1, [], [], [origin], []⟩

/-- Of two rules for one origin the second stays. -/
theorem second_rule_kept : eraseHostNameRule [97] [only [97], only [97]] = [only [97]] := by
  decide

end RadosGateway.Cors
