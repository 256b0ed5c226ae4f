import RadosGateway.StringToSign

/-!
# What a signature covers

The string to sign is read back line by line, its last line at the first `?` and then at each `&`. A
request is covered by its signature if none of these separators stands inside a part: the
sub-resources are written as they were decoded, so a query string can put one there. -/

namespace RadosGateway.StringToSign

open Text List Option

variable {subResources : Bytes → Option Bytes} {p : Bytes} {c : UInt8}

def headerLine (e : Bytes × Bytes) : Bytes := e.1 ++ 58 :: e.2

theorem foldl_amzHdr (entries : List (Bytes × Bytes)) (dest : Bytes) :
    entries.foldl (fun dest e => dest ++ e.1 ++ ascii ":" ++ e.2 ++ ascii "\n") dest =
      dest ++ (entries.map headerLine).flatMap (· ++ [10]) := by
  induction entries generalizing dest with
  | nil => simp
  | cons e entries ih =>
    rw [foldl_cons, ih, map_cons, flatMap_cons, headerLine]
    simp [ascii]

theorem canonicalHeader_eq (method : Bytes) (contentMd5 contentType : Option Bytes) (date : Bytes)
    (metaMap : MetaMap) (requestUri : Bytes) (subResources : Bytes → Option Bytes) :
    canonicalHeader method contentMd5 contentType date metaMap requestUri subResources =
      [10].intercalate ([method, contentMd5.getD [], contentType.getD [], date] ++
        metaMap.entries.map headerLine ++ [getCanonResource requestUri subResources]) := by
  rw [intercalate_append_singleton, canonicalHeader, getCanonAmzHdr, foldl_amzHdr]
  simp [ascii]

theorem headerLine_inj {e e' : Bytes × Bytes} (h : 58 ∉ e.1) (h' : 58 ∉ e'.1)
    (heq : headerLine e = headerLine e') : e = e' := by
  obtain ⟨hname, hval⟩ := append_cons_inj h h' heq
  exact Prod.ext hname hval

def writeItem (item : Bytes × Bytes) : Bytes := item.1 ++ if item.2.isEmpty then []
    else 61 :: item.2

def itemsOf (subResources : Bytes → Option Bytes) (names : List Bytes) : List (Bytes × Bytes) :=
  names.filterMap fun p => (subResources p).map (Prod.mk p)

theorem itemsOf_cons_none (h : subResources p = none)
    (names : List Bytes) : itemsOf subResources (p :: names) = itemsOf subResources names := by
  rw [itemsOf, filterMap_cons_none (by rw [h, map_none]), itemsOf]

theorem itemsOf_cons_some {p val : Bytes} (h : subResources p = some val) (names : List Bytes) :
    itemsOf subResources (p :: names) = (p, val) :: itemsOf subResources names := by
  rw [itemsOf, filterMap_cons_some (by rw [h, map_some]), itemsOf]

theorem foldl_append_ne_nil (subResources : Bytes → Option Bytes) (names : List Bytes)
    {appendStr : Bytes} (hne : appendStr ≠ []) :
    names.foldl (appendSubresource subResources) appendStr =
      appendStr ++ ((itemsOf subResources names).map writeItem).flatMap (38 :: ·) := by
  induction names generalizing appendStr with
  | nil => simp [itemsOf]
  | cons p names ih =>
    rw [foldl_cons, appendSubresource]
    cases h : subResources p with
    | none =>
      rw [itemsOf_cons_none h]
      exact ih hne
    | some val =>
      have hempty : appendStr.isEmpty = false := by simpa using hne
      rw [itemsOf_cons_some h, hempty]
      refine (ih (by simp [hne])).trans ?_
      simp [writeItem, ascii]

/-- The loop over subresources in closed form: items between `?` and `&`. -/
theorem foldl_append_nil (subResources : Bytes → Option Bytes) (names : List Bytes) :
    names.foldl (appendSubresource subResources) [] = if itemsOf subResources names = [] then []
      else 63 :: [38].intercalate ((itemsOf subResources names).map writeItem) := by
  induction names with
  | nil => rfl
  | cons p names ih =>
    rw [foldl_cons, appendSubresource]
    cases h : subResources p with
    | none =>
      rw [itemsOf_cons_none h]
      exact ih
    | some val =>
      rw [itemsOf_cons_some h, if_neg (cons_ne_nil _ _), map_cons, intercalate_cons_eq, writeItem]
      refine (foldl_append_ne_nil _ _ (by simp [ascii])).trans ?_
      simp [ascii]

theorem getCanonResource_eq (requestUri : Bytes) (subResources : Bytes → Option Bytes) :
    getCanonResource requestUri subResources = requestUri ++
      if itemsOf subResources signedSubresources = [] then []
      else 63 :: [38].intercalate ((itemsOf subResources signedSubresources).map writeItem) := by
  rw [getCanonResource, foldl_append_nil]

theorem notMem_signedSubresources (hc : c ∈ [10, 38, 61]) (hp : p ∈ signedSubresources) :
    c ∉ p := by
  have hall : ∀ p ∈ signedSubresources, ∀ c ∈ [10, 38, 61], c ∉ p := by decide +kernel
  exact hall p hp c hc

/-- An item can be read off its text if its name has no `=`. -/
theorem writeItem_inj {item item' : Bytes × Bytes} (h : 61 ∉ item.1) (h' : 61 ∉ item'.1)
    (heq : writeItem item = writeItem item') : item = item' := by
  have hmixed : ∀ {s s' v : Bytes}, 61 ∉ s' → s ++ 61 :: v ≠ s' := by
    rintro s s' v hs' rfl
    simp at hs'
  rw [writeItem, writeItem] at heq
  by_cases hval : item.2.isEmpty = true <;> by_cases hval' : item'.2.isEmpty = true
  · rw [if_pos hval, if_pos hval', append_nil, append_nil] at heq
    refine Prod.ext heq ?_
    rw [List.isEmpty_iff.mp hval, List.isEmpty_iff.mp hval']
  · rw [if_pos hval, if_neg hval', append_nil] at heq
    exact absurd heq.symm (hmixed h)
  · rw [if_neg hval, if_pos hval', append_nil] at heq
    exact absurd heq (hmixed h')
  · rw [if_neg hval, if_neg hval'] at heq
    obtain ⟨hname, hrest⟩ := append_cons_inj h h' heq
    exact Prod.ext hname hrest

variable {names : List Bytes} {item : Bytes × Bytes}

theorem mem_itemsOf : item ∈ itemsOf subResources names ↔
    item.1 ∈ names ∧ subResources item.1 = some item.2 := by
  rw [itemsOf, mem_filterMap]
  constructor
  · rintro ⟨p, hp, hitem⟩
    obtain ⟨val, hval, rfl⟩ := map_eq_some_iff.mp hitem
    exact ⟨hp, hval⟩
  · rintro ⟨hp, hval⟩
    exact ⟨item.1, hp, by rw [hval, map_some]⟩

theorem eq_of_itemsOf_eq {sub sub' : Bytes → Option Bytes}
    (h : itemsOf sub names = itemsOf sub' names) (hp : p ∈ names) : sub p = sub' p := by
  apply Option.ext
  intro val
  have hsub : (p, val) ∈ itemsOf sub names ↔ sub p = some val := by
    rw [mem_itemsOf]
    exact and_iff_right hp
  have hsub' : (p, val) ∈ itemsOf sub' names ↔ sub' p = some val := by
    rw [mem_itemsOf]
    exact and_iff_right hp
  rw [← hsub, ← hsub', h]

structure OnLines (info : ReqInfo) : Prop where
  method : 10 ∉ info.method
  contentMd5 : 10 ∉ info.contentMd5.getD []
  contentType : 10 ∉ info.contentType.getD []
  names : ∀ e ∈ info.metaMap.entries, 10 ∉ e.1 ∧ 58 ∉ e.1
  values : ∀ e ∈ info.metaMap.entries, 10 ∉ e.2
  uri : 10 ∉ signedUri info

structure Separable (info : ReqInfo) (qsr : Bool) : Prop where
  date : 10 ∉ signedDate info qsr
  uri : 63 ∉ signedUri info
  values : ∀ p ∈ signedSubresources, ∀ val ∈ info.args.subResources p, 10 ∉ val ∧ 38 ∉ val

section Separable

variable {info : ReqInfo} {qsr : Bool}

theorem Separable.notMem_writeItem (h : Separable info qsr) (hc : c = 10 ∨ c = 38)
    (hitem : item ∈ itemsOf info.args.subResources signedSubresources) :
    c ∉ writeItem item := by
  obtain ⟨hname, hsub⟩ := mem_itemsOf.mp hitem
  obtain ⟨hnewline, hand⟩ := h.values _ hname _ hsub
  have hval : c ∉ item.2 := by
    rcases hc with rfl | rfl
    · exact hnewline
    · exact hand
  have hp : c ∉ item.1 := notMem_signedSubresources (by rcases hc with rfl | rfl <;> decide) hname
  have heq : c ≠ 61 := by rcases hc with rfl | rfl <;> decide
  rw [writeItem, mem_append, not_or]
  refine ⟨hp, ?_⟩
  split
  · exact not_mem_nil
  · exact not_mem_cons_of_ne_of_not_mem heq hval

theorem Separable.newline_notMem_resource (h : Separable info qsr) (huri : 10 ∉ signedUri info) :
    10 ∉ getCanonResource (signedUri info) info.args.subResources := by
  rw [getCanonResource_eq, mem_append, not_or]
  refine ⟨huri, ?_⟩
  split
  · exact not_mem_nil
  refine not_mem_cons_of_ne_of_not_mem (by decide) ?_
  intro hmem
  obtain ⟨item, items, hitems⟩ := exists_cons_of_ne_nil
    (by assumption : itemsOf info.args.subResources signedSubresources ≠ [])
  have hall : ∀ x ∈ item :: items, 10 ∉ writeItem x := by
    intro x hx
    exact h.notMem_writeItem (Or.inl rfl) (hitems ▸ hx)
  rw [hitems, map_cons, intercalate_cons_eq, mem_append] at hmem
  rcases hmem with hmem | hmem
  · exact hall item mem_cons_self hmem
  · obtain ⟨l, hl, hmem⟩ := mem_flatMap.mp hmem
    obtain ⟨x, hx, rfl⟩ := List.mem_map.mp hl
    exact not_mem_cons_of_ne_of_not_mem (by decide)
      (hall x (mem_cons_of_mem _ hx)) hmem

end Separable

theorem append_cons_ne {s s' rest : Bytes} (h : c ∉ s') : s ++ c :: rest ≠ s' := by
  rintro rfl
  simp at h

section TwoRequests

variable {info info' : ReqInfo} {qsr qsr' : Bool}

/-- A separable resource can be read off the signed text. -/
theorem resource_inj (h : Separable info qsr) (h' : Separable info' qsr')
    (heq : getCanonResource (signedUri info) info.args.subResources =
      getCanonResource (signedUri info') info'.args.subResources) : signedUri info =
        signedUri info' ∧
      itemsOf info.args.subResources signedSubresources =
        itemsOf info'.args.subResources signedSubresources := by
  rw [getCanonResource_eq, getCanonResource_eq] at heq
  by_cases hempty : itemsOf info.args.subResources signedSubresources = [] <;>
    by_cases hempty' : itemsOf info'.args.subResources signedSubresources = []
  · rw [if_pos hempty, if_pos hempty', append_nil, append_nil] at heq
    exact ⟨heq, hempty.trans hempty'.symm⟩
  · rw [if_pos hempty, if_neg hempty', append_nil] at heq
    exact absurd heq.symm (append_cons_ne h.uri)
  · rw [if_neg hempty, if_pos hempty', append_nil] at heq
    exact absurd heq (append_cons_ne h'.uri)
  · rw [if_neg hempty, if_neg hempty'] at heq
    obtain ⟨huri, hitems⟩ := append_cons_inj h.uri h'.uri heq
    have hnames : ∀ {sub : Bytes → Option Bytes}, ∀ item ∈ itemsOf sub signedSubresources,
        61 ∉ item.1 := by
      intro sub item hitem
      exact notMem_signedSubresources (by decide) (mem_itemsOf.mp hitem).1
    refine ⟨huri, eq_of_map_eq_map (p := fun item => 61 ∉ item.1) (fun item item' =>
      writeItem_inj) hnames hnames ?_⟩
    refine intercalate_inj (c := 38) (by simpa using hempty) (by simpa using hempty') ?_ ?_ hitems
    · intro l hl
      obtain ⟨item, hitem, rfl⟩ := List.mem_map.mp hl
      exact h.notMem_writeItem (Or.inr rfl) hitem
    · intro l hl
      obtain ⟨item, hitem, rfl⟩ := List.mem_map.mp hl
      exact h'.notMem_writeItem (Or.inr rfl) hitem

theorem newline_notMem_lines (hlines : OnLines info) (h : Separable info qsr) :
    ∀ l ∈ [info.method, info.contentMd5.getD [], info.contentType.getD [], signedDate info qsr] ++
      info.metaMap.entries.map headerLine ++
        [getCanonResource (signedUri info) info.args.subResources], 10 ∉ l := by
  intro l hl
  simp only [mem_append, mem_cons, not_mem_nil, or_false, List.mem_map] at hl
  rcases hl with ((rfl | rfl | rfl | rfl) | ⟨e, he, rfl⟩) | rfl
  · exact hlines.method
  · exact hlines.contentMd5
  · exact hlines.contentType
  · exact h.date
  · rw [headerLine, mem_append, not_or]
    exact ⟨(hlines.names e he).1, not_mem_cons_of_ne_of_not_mem (by decide) (hlines.values e he)⟩
  · exact h.newline_notMem_resource hlines.uri

theorem createCanonicalHeader_eq_some {year : Bytes → Option Int} {headerTime : Bool} {dest : Bytes}
    (h : createCanonicalHeader year headerTime info qsr = some dest) : dest = [10].intercalate
      ([info.method, info.contentMd5.getD [], info.contentType.getD [], signedDate info qsr] ++
        info.metaMap.entries.map headerLine ++
          [getCanonResource (signedUri info) info.args.subResources]) := by
  rw [createCanonicalHeader] at h
  split at h
  · rw [← canonicalHeader_eq]
    exact (some.inj h).symm
  · cases h

/-- Two accepted requests that have the same string to sign agree in every part that is signed, if
no separator stands inside a part. A header that is missing counts as an empty one. -/
theorem signed_parts_eq {year : Bytes → Option Int} {headerTime headerTime' : Bool} {dest : Bytes}
    (hdest : createCanonicalHeader year headerTime info qsr = some dest)
    (hdest' : createCanonicalHeader year headerTime' info' qsr' = some dest)
    (hlines : OnLines info) (hlines' : OnLines info') (h : Separable info qsr)
    (h' : Separable info' qsr') :
    info.method = info'.method ∧ info.contentMd5.getD [] = info'.contentMd5.getD [] ∧
      info.contentType.getD [] = info'.contentType.getD [] ∧
      signedDate info qsr = signedDate info' qsr' ∧ info.metaMap.entries = info'.metaMap.entries ∧
      signedUri info = signedUri info' ∧
      ∀ p ∈ signedSubresources, info.args.subResources p = info'.args.subResources p := by
  have hall := intercalate_inj (by simp) (by simp) (newline_notMem_lines hlines h)
    (newline_notMem_lines hlines' h')
    ((createCanonicalHeader_eq_some hdest).symm.trans (createCanonicalHeader_eq_some hdest'))
  obtain ⟨hfront, hlast⟩ := append_inj' hall rfl
  obtain ⟨hfour, hheaders⟩ := append_inj hfront rfl
  simp only [List.cons.injEq, and_true] at hfour hlast
  obtain ⟨hmethod, hmd5, htype, hdate⟩ := hfour
  obtain ⟨huri, hitems⟩ := resource_inj h h' hlast
  refine ⟨hmethod, hmd5, htype, hdate, ?_, huri, fun p hp => eq_of_itemsOf_eq hitems hp⟩
  exact eq_of_map_eq_map (p := fun e => 58 ∉ e.1) (fun e e' => headerLine_inj)
    (fun e he => (hlines.names e he).2) (fun e he => (hlines'.names e he).2) hheaders

end TwoRequests

def sampleRequest (query : String) : ReqInfo :=
  { method := ascii "GET", contentType := some (ascii "text/plain"),
    metaMap := { entries := [(ascii "x-amz-acl", ascii "private")] }, requestUri := ascii "/b/k",
    args := HttpArgs.parse (ascii query) }

theorem onLines_sampleRequest (query : String) : OnLines (sampleRequest query) where
  method := show 10 ∉ ascii "GET" by decide
  contentMd5 := not_mem_nil
  contentType := show 10 ∉ ascii "text/plain" by decide
  names := show ∀ e ∈ [(ascii "x-amz-acl", ascii "private")], 10 ∉ e.1 ∧ 58 ∉ e.1 by decide
  values := show ∀ e ∈ [(ascii "x-amz-acl", ascii "private")], 10 ∉ e.2 by decide
  uri := show 10 ∉ cstr (ascii "/b/k") by decide

/-- The same query in another order and coding. -/
theorem signed_parts_eq_of_two_queries :
    signedSubresources.map (sampleRequest "acl&Expires=1&cors=b").args.subResources =
      signedSubresources.map (sampleRequest "?cors=%62&Expires=1&acl=").args.subResources := by
  have hdest : createCanonicalHeader (fun _ => none) true
      (sampleRequest "acl&Expires=1&cors=b") true =
        some (ascii "GET\n\ntext/plain\n1\nx-amz-acl:private\n/b/k?acl&cors=b") := by
    decide
  have hdest' : createCanonicalHeader (fun _ => none) true
      (sampleRequest "?cors=%62&Expires=1&acl=") true =
        some (ascii "GET\n\ntext/plain\n1\nx-amz-acl:private\n/b/k?acl&cors=b") := by
    decide
  have h : Separable (sampleRequest "acl&Expires=1&cors=b") true :=
    ⟨by decide, by decide, by decide +kernel⟩
  have h' : Separable (sampleRequest "?cors=%62&Expires=1&acl=") true :=
    ⟨by decide, by decide, by decide +kernel⟩
  apply map_congr_left
  exact (signed_parts_eq hdest hdest' (onLines_sampleRequest _) (onLines_sampleRequest _) h
    h').2.2.2.2.2.2

/-- An escaped `&` in the value of one sub-resource makes the string of two, and an escaped newline
in the date the string of a request with one more header. -/
theorem signed_parts_collide : OnLines (sampleRequest "Expires=1&uploadId=a%26versionId=b") ∧
      OnLines (sampleRequest "Expires=1&uploadId=a&versionId=b") ∧
      createCanonicalHeader (fun _ => none) true
        (sampleRequest "Expires=1&uploadId=a%26versionId=b") true =
          some (ascii "GET\n\ntext/plain\n1\nx-amz-acl:private\n/b/k?uploadId=a&versionId=b") ∧
      createCanonicalHeader (fun _ => none) true
        (sampleRequest "Expires=1&uploadId=a&versionId=b") true =
          some (ascii "GET\n\ntext/plain\n1\nx-amz-acl:private\n/b/k?uploadId=a&versionId=b") ∧
      (sampleRequest "Expires=1&uploadId=a%26versionId=b").args.subResources (ascii "versionId") =
        none ∧
      (sampleRequest "Expires=1&uploadId=a&versionId=b").args.subResources (ascii "versionId") =
        some (ascii "b") ∧
      createCanonicalHeader (fun _ => none) true
        { sampleRequest "Expires=1%0Ax-amz-acl:private" with metaMap := { entries := [] } } true =
          createCanonicalHeader (fun _ => none) true (sampleRequest "Expires=1") true :=
  ⟨onLines_sampleRequest _, onLines_sampleRequest _, by decide⟩

end RadosGateway.StringToSign
