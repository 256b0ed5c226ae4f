import RadosGateway.ObjectName

/-!
# Taking names apart

The string of an object can be taken apart if the namespace has neither an underscore nor a colon,
and an instance that is written out has no underscore. Whatever is parsed has this form, so no other
name comes back as it was. -/

namespace RadosGateway.RgwObj

open Text Option
open List hiding lt_irrefl

def canonical (inst : Bytes) : Bytes := if encodesInstance inst then inst else []

def mangle (ns inst name : Bytes) : Bytes :=
  if ns.isEmpty && !encodesInstance inst then
    if name.head? ≠ some 95 then name else 95 :: name
  else 95 :: (ns ++ (if encodesInstance inst then 58 :: inst else []) ++ 95 :: name)

theorem setObj_fields (o : Bytes) (obj : RgwObj) : (setObj o obj).ns = obj.ns ∧
    (setObj o obj).inst = obj.inst := by
  rw [setObj]
  dsimp only
  split
  · split
    · exact ⟨rfl, rfl⟩
    · split <;> exact ⟨rfl, rfl⟩
  · exact ⟨rfl, rfl⟩

theorem object_setObj {o : Bytes} (ho : o ≠ []) (obj : RgwObj) :
    (setObj o obj).object = mangle obj.ns obj.inst o := by
  have hne : o.isEmpty = false := by simpa using ho
  rw [setObj, mangle]
  dsimp only
  split
  · rw [hne, if_neg Bool.false_ne_true]
    split <;> rfl
  · simp [ascii]

variable {ns inst name s field : Bytes} {c : UInt8}

theorem object_named (hname : name ≠ []) {obj : RgwObj}
    (h : named ns inst name = some obj) : obj.object = mangle ns inst name := by
  obtain ⟨obj₁, h₁, h⟩ := bind_eq_some_iff.mp h
  obtain ⟨obj₂, h₂, h⟩ := bind_eq_some_iff.mp h
  cases h
  rw [setNs] at h₁
  rw [setInstance] at h₂
  split at h₁
  · cases h₁
  split at h₂
  · cases h₂
  cases h₁
  cases h₂
  rw [object_setObj hname, (setObj_fields _ _).1, (setObj_fields _ _).2]
  exact congrArg (mangle · inst name) (setObj_fields _ _).1

theorem find_append (h : c ∉ s) (rest : Bytes) : find c (s ++ c :: rest) 0 = some s.length := by
  rw [find, drop_zero, if_pos (by simp), idxOf_append_of_notMem h, idxOf_cons_self]
  simp

theorem find_one_cons (c d : UInt8) (s : Bytes) : find c (d :: s) 1 = (find c s 0).map (· + 1) := by
  rw [find, find, drop_one, tail_cons, drop_zero]
  split
  · rw [map_some, zero_add, add_comm]
  · rfl

theorem find_eq_some {pos : Nat} (h : find c s 0 = some pos) : c ∉ s.take pos := by
  rw [find, drop_zero] at h
  split at h
  · rename_i hmem
    cases h
    rw [zero_add, mem_take_iff_idxOf_lt hmem]
    exact lt_irrefl _
  · cases h

theorem find_eq_none (h : find c s 0 = none) : c ∉ s := by
  rw [find, drop_zero] at h
  split at h
  · cases h
  · assumption

theorem parseNsField_append (h : 58 ∉ ns) (inst : Bytes) :
    parseNsField (ns ++ 58 :: inst) = (ns, inst) := by
  rw [parseNsField, find_append h]
  simp

theorem parseNsField_of_notMem (h : 58 ∉ ns) : parseNsField ns = (ns, []) := by
  have hnone : find 58 ns 0 = none := by
    rw [find, drop_zero, if_neg h]
  rw [parseNsField, hnone]

theorem parseNsField_clean (h : 95 ∉ field) :
    95 ∉ (parseNsField field).1 ∧ 58 ∉ (parseNsField field).1 ∧ 95 ∉ (parseNsField field).2 := by
  rw [parseNsField]
  cases hfind : find 58 field 0 with
  | none => exact ⟨h, find_eq_none hfind, not_mem_nil⟩
  | some pos =>
    exact ⟨fun hmem => h (mem_of_mem_take hmem), find_eq_some hfind, fun hmem =>
      h (mem_of_mem_drop hmem)⟩

/-- A field between underscores is split at its colon. -/
theorem parseRawOid_field (hfield : field ≠ []) (h : 95 ∉ field) (name : Bytes) :
    parseRawOid (95 :: (field ++ 95 :: name)) = some
      { name := name, inst := (parseNsField field).2, ns := (parseNsField field).1 } := by
  have hfind : find 95 (95 :: (field ++ 95 :: name)) 1 = some (field.length + 1) := by
    rw [find_one_cons, find_append h]
    rfl
  obtain ⟨b, rest, rfl⟩ := exists_cons_of_ne_nil hfield
  have hb : b ≠ 95 := by
    rintro rfl
    exact h mem_cons_self
  have hlength : ¬ (95 :: (b :: rest ++ 95 :: name)).length < 3 := by
    simp only [length_cons, length_append]
    omega
  rw [parseRawOid, hfind, if_neg hlength]
  simp [hb]

/-- What is parsed has no separators in its namespace and instance. -/
theorem parseRawOid_clean {oid : Bytes} {parsed : ParsedName} (h : parseRawOid oid = some parsed) :
    95 ∉ parsed.ns ∧ 58 ∉ parsed.ns ∧ 95 ∉ parsed.inst := by
  have hplain : ∀ name : Bytes, parsed = { name := name } → 95 ∉ parsed.ns ∧ 58 ∉ parsed.ns ∧
      95 ∉ parsed.inst := by
    rintro name rfl
    exact ⟨not_mem_nil, not_mem_nil, not_mem_nil⟩
  rw [parseRawOid] at h
  split at h
  · exact hplain _ (some.inj h).symm
  split at h
  · exact hplain _ (some.inj h).symm
  split at h
  · cases h
  cases hfind : find 95 oid 1 with
  | none =>
    rw [hfind] at h
    cases h
  | some pos =>
    rw [hfind] at h
    dsimp only at h
    split at h
    · cases h
    cases h
    apply parseNsField_clean
    cases oid with
    | nil => simp
    | cons b rest =>
      rw [find_one_cons] at hfind
      obtain ⟨pos', hpos', rfl⟩ := map_eq_some_iff.mp hfind
      rw [drop_one, tail_cons, Nat.add_sub_cancel]
      exact find_eq_some hpos'

def Clean (ns inst : Bytes) : Prop := 95 ∉ ns ∧ 58 ∉ ns ∧ (encodesInstance inst = true → 95 ∉ inst)

def ComesBack (ns inst name oid : Bytes) : Prop :=
  ∃ parsed, parseRawOid oid = some parsed ∧ parsed.name = name ∧ parsed.ns = ns ∧
    canonical parsed.inst = canonical inst

theorem canonical_of_encodes (h : encodesInstance inst = true) : canonical inst = inst := by
  rw [canonical, if_pos h]

/-- A plain name, of an instance that is not written. -/
theorem comesBack_plain (hinst : encodesInstance inst = false) :
    ComesBack [] inst name (mangle [] inst name) := by
  have hcanonical : canonical inst = canonical [] := by
    rw [canonical, hinst]
    rfl
  have hmangle : mangle [] inst name = if name.head? ≠ some 95 then name else 95 :: name := by
    rw [mangle, hinst]
    rfl
  rw [hmangle]
  split
  · rename_i hhead
    refine ⟨{ name := name }, ?_, rfl, rfl, hcanonical.symm⟩
    rw [parseRawOid, if_pos hhead]
  · rename_i hhead
    refine ⟨{ name := name }, ?_, rfl, rfl, hcanonical.symm⟩
    have hsecond : (95 :: name)[1]? = some 95 := by
      rw [getElem?_cons_succ, ← head?_eq_getElem?]
      simpa using hhead
    rw [parseRawOid, if_neg (by simp), if_pos hsecond]
    rfl

/-- A name comes back from its mangled form exactly if namespace and instance have no separators. -/
theorem comesBack_iff : ComesBack ns inst name (mangle ns inst name) ↔ Clean ns inst := by
  constructor
  · rintro ⟨parsed, hparsed, -, rfl, hinst⟩
    obtain ⟨hns, hcolon, hclean⟩ := parseRawOid_clean hparsed
    refine ⟨hns, hcolon, ?_⟩
    intro hencodes hmem
    rw [canonical_of_encodes hencodes] at hinst
    have hsame : parsed.inst = inst := by
      by_cases h : encodesInstance parsed.inst = true
      · rwa [canonical_of_encodes h] at hinst
      · rw [canonical, if_neg h] at hinst
        rw [← hinst] at hmem
        cases hmem
    exact hclean (hsame ▸ hmem)
  · rintro ⟨hns, hcolon, hclean⟩
    by_cases hencodes : encodesInstance inst = true
    · have hfield : 95 ∉ ns ++ 58 :: inst := by
        simp only [mem_append, mem_cons, not_or]
        exact ⟨hns, by decide, hclean hencodes⟩
      have hmangle : mangle ns inst name = 95 :: ((ns ++ 58 :: inst) ++ 95 :: name) := by
        rw [mangle, hencodes]
        simp
      refine ⟨_, hmangle ▸ parseRawOid_field (by simp) hfield name, rfl, ?_⟩
      rw [parseNsField_append hcolon]
      exact ⟨rfl, rfl⟩
    · have hplain : encodesInstance inst = false := by simpa using hencodes
      by_cases hempty : ns = []
      · rw [hempty]
        exact comesBack_plain hplain
      · have hmangle : mangle ns inst name = 95 :: (ns ++ 95 :: name) := by
          rw [mangle, hplain]
          simp [hempty]
        refine ⟨_, hmangle ▸ parseRawOid_field hempty hns name, rfl, ?_⟩
        rw [parseNsField_of_notMem hcolon]
        refine ⟨rfl, ?_⟩
        rw [canonical, canonical, hplain]
        rfl

/-- The strings of two objects that were given their parts: they differ if the parts differ, and
each is taken apart into what it was made of, exactly if no separator stands where it was not put.
-/
theorem mangling_iff {ns inst name ns' inst' name' : Bytes} {obj obj' : RgwObj} (hname : name ≠ [])
    (hname' : name' ≠ []) (h : named ns inst name = some obj)
    (h' : named ns' inst' name' = some obj') :
    ((obj.object = obj'.object → ns = ns' ∧ canonical inst = canonical inst' ∧ name = name') ∧
      ComesBack ns inst name obj.object ∧ ComesBack ns' inst' name' obj'.object) ↔
      Clean ns inst ∧ Clean ns' inst' := by
  rw [object_named hname h, object_named hname' h', comesBack_iff, comesBack_iff]
  refine ⟨fun hall => hall.2, fun hclean => ⟨?_, hclean⟩⟩
  intro heq
  have hback : ComesBack ns inst name (mangle ns inst name) := comesBack_iff.mpr hclean.1
  have hback' : ComesBack ns' inst' name' (mangle ns' inst' name') := comesBack_iff.mpr hclean.2
  obtain ⟨parsed, hparsed, hn, hns, hi⟩ := hback
  obtain ⟨parsed', hparsed', hn', hns', hi'⟩ := hback'
  rw [heq, hparsed'] at hparsed
  cases hparsed
  exact ⟨hns.symm.trans hns', hi.symm.trans hi', hn.symm.trans hn'⟩

/-- Two versions of one part. -/
theorem mangling_of_two_versions : ComesBack (ascii "mp") (ascii "v1") (ascii "a_b")
    (ascii "_mp:v1_a_b") ∧
      ComesBack (ascii "mp") (ascii "v2") (ascii "a_b") (ascii "_mp:v2_a_b") := by
  have h : named (ascii "mp") (ascii "v1") (ascii "a_b") = some
      ⟨ascii "a_b", ascii "_mp:v1_a_b", ascii "mp", ascii "v1"⟩ := by decide
  have h' : named (ascii "mp") (ascii "v2") (ascii "a_b") = some
      ⟨ascii "a_b", ascii "_mp:v2_a_b", ascii "mp", ascii "v2"⟩ := by decide
  have hclean : Clean (ascii "mp") (ascii "v1") ∧ Clean (ascii "mp") (ascii "v2") := by
    unfold Clean
    decide
  exact ((mangling_iff (by decide) (by decide) h h').mpr hclean).2

/-- A version that has an underscore, and the name that takes the rest of it. -/
theorem mangling_collides :
    (named [] (ascii "x_y") (ascii "n")).map object = some (ascii "_:x_y_n") ∧
      (named [] (ascii "x") (ascii "y_n")).map object = some (ascii "_:x_y_n") := by
  decide

end RadosGateway.RgwObj
