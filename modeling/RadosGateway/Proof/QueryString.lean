import RadosGateway.Proof.UrlCoding

/-!
# Query strings and copy sources

A query string is cut at `&`, each piece is decoded, and the name ends at the first `=` of what was
decoded. Encoded names and values come back, but for a name with `=` in it. The names that only
requests of administrators have are kept once and without their value. -/

namespace RadosGateway

open Text List Option Function

theorem hexToNum_of_toNum {c : UInt8} {d : Option UInt8} (h : toNum c = some d) :
    hexToNum c = d := by
  rw [toNum_eq] at h
  split_ifs at h
  exact some.inj h

theorem decodeFrom_other (inQuery : Bool) {c : UInt8} (h : c ≠ 37) (s : Bytes) :
    decodeFrom inQuery (c :: s)
      = if !inQuery || c ≠ 43 then (decodeFrom (inQuery || c = 63) s).map (c :: ·)
        else (decodeFrom inQuery s).map (32 :: ·) := by
  rw [decodeFrom]
  · exact fun hc _ => h hc
  · exact fun a hc _ => h hc
  · exact fun a b s' hc _ => h hc

theorem Decoding.map_eq_decoded {f : Bytes → Bytes} {d : Decoding} {dest : Bytes}
    (h : d.map f = .decoded dest) :
    ∃ dest', d = .decoded dest' ∧ f dest' = dest := by
  cases d with
  | decoded dest' => exact ⟨dest', rfl, Decoding.decoded.inj h⟩
  | refused => exact absurd h Decoding.noConfusion
  | outside => exact absurd h Decoding.noConfusion

variable {inQuery : Bool}

theorem decodeFrom_of_decodeLoop {s dest : Bytes} (h : decodeLoop inQuery s = .decoded dest) :
    decodeFrom inQuery s = some dest := by
  fun_induction decodeLoop inQuery s generalizing dest with
  | case1 => exact congrArg some (Decoding.decoded.inj h)
  | case2 => exact congrArg some (Decoding.decoded.inj h)
  | case3 => exact absurd h Decoding.noConfusion
  | case4 => exact congrArg some (Decoding.decoded.inj h)
  | case5 => exact absurd h Decoding.noConfusion
  | case6 => exact absurd h Decoding.noConfusion
  | case7 => exact absurd h Decoding.noConfusion
  | case8 => exact absurd h Decoding.noConfusion
  | case9 inQuery a b src high ha low hb ih =>
    obtain ⟨dest', hdest, rfl⟩ := Decoding.map_eq_decoded h
    rw [decodeFrom, hexToNum_of_toNum ha, hexToNum_of_toNum hb, ih hdest]
    rfl
  | case10 inQuery c src hne hplus ih =>
    obtain ⟨dest', hdest, rfl⟩ := Decoding.map_eq_decoded h
    rw [decodeFrom_other inQuery hne, if_pos hplus, ih hdest]
    rfl
  | case11 inQuery c src hne hplus ih =>
    obtain ⟨dest', hdest, rfl⟩ := Decoding.map_eq_decoded h
    rw [decodeFrom_other inQuery hne, if_neg hplus, ih hdest]
    rfl

theorem decodeFrom_of_refused {s : Bytes} (h : decodeLoop inQuery s = .refused) :
    decodeFrom inQuery s = none := by
  fun_induction decodeLoop inQuery s with
  | case1 | case2 | case3 | case4 | case5 | case7 => exact absurd h Decoding.noConfusion
  | case6 inQuery a b src ha =>
    rw [decodeFrom, hexToNum_of_toNum ha]
    rfl
  | case8 inQuery a b src high ha hb =>
    rw [decodeFrom, hexToNum_of_toNum ha, hexToNum_of_toNum hb]
    rfl
  | case9 inQuery a b src high ha low hb ih =>
    rw [decodeFrom, hexToNum_of_toNum ha, hexToNum_of_toNum hb, ih (Decoding.map_eq_refused.mp h)]
    rfl
  | case10 inQuery c src hne hplus ih =>
    rw [decodeFrom_other inQuery hne, if_pos hplus, ih (Decoding.map_eq_refused.mp h)]
    rfl
  | case11 inQuery c src hne hplus ih =>
    rw [decodeFrom_other inQuery hne, if_neg hplus, ih (Decoding.map_eq_refused.mp h)]
    rfl

/-- `urlDecode`, which knows nothing of the table, is the checked decoder wherever that one stays
inside of it. -/
theorem urlDecode_eq_of_inside {src : Bytes} (h : urlDecodeChecked src inQuery ≠ .outside) :
    urlDecode src inQuery =
      match urlDecodeChecked src inQuery with
      | .decoded dest => some dest
      | _ => none := by
  rw [urlDecodeChecked] at h ⊢
  rw [urlDecode]
  cases hloop : decodeLoop inQuery (cstr src) with
  | decoded dest =>
    rw [decodeFrom_of_decodeLoop hloop]
    rfl
  | refused =>
    rw [decodeFrom_of_refused hloop]
    rfl
  | outside =>
    rw [hloop] at h
    exact absurd rfl h

theorem urlDecode_urlEncode_append {s src dest : Bytes} (hs : 0 ∉ s) (hsrc : 0 ∉ src)
    (hdest : 0 ∉ dest) (h : decodeLoop inQuery src = .decoded dest) :
    urlDecode (urlEncode s ++ src) inQuery = some (s ++ dest) := by
  have hencoded : 0 ∉ urlEncode s ++ src := by
    rw [mem_append]
    exact fun hmem => hmem.elim (fun hmem => (mem_urlEncode hmem).1 rfl) hsrc
  have hloop : decodeLoop inQuery (urlEncode s ++ src) = .decoded (s ++ dest) := by
    rw [decodeLoop_urlEncode, h]
    rfl
  have hresult : 0 ∉ s ++ dest := by
    rw [mem_append]
    exact fun hmem => hmem.elim hs hdest
  rw [urlDecode, cstr_eq_self hencoded, decodeFrom_of_decodeLoop hloop, map_some,
    cstr_eq_self hresult]

variable {s : Bytes}

theorem urlDecode_urlEncode (inQuery : Bool) (h : 0 ∉ s) :
    urlDecode (urlEncode s) inQuery = some s := by
  have happend : urlDecode (urlEncode s ++ []) inQuery = some (s ++ []) :=
    urlDecode_urlEncode_append h not_mem_nil not_mem_nil rfl
  rwa [append_nil, append_nil] at happend

def queryPiece (p : Bytes × Bytes) : Bytes := urlEncode p.1 ++ 61 :: urlEncode p.2

def queryString (pairs : List (Bytes × Bytes)) : Bytes := [38].intercalate (pairs.map queryPiece)

def lastValue (pairs : List (Bytes × Bytes)) (name : Bytes) : Option Bytes :=
  (pairs.reverse.find? fun p => p.1 = name).map Prod.snd

namespace HttpArgs

def subresourceNames : List Bytes := valuedSubresources ++ responseModifiers ++ adminSubresources

def ParsedFrom (pairs : List (Bytes × Bytes)) (args : HttpArgs) : Prop :=
  args.valMap = lastValue pairs
    ∧ args.subResources = fun name => if name ∈ subresourceNames then lastValue pairs name else none

def addPair (args : HttpArgs) (p : Bytes × Bytes) : HttpArgs :=
  addSubresource p.1 p.2 (addValue p.1 p.2 args)

end HttpArgs

open HttpArgs

variable {p : Bytes × Bytes}

theorem urlDecode_queryPiece (hname : 0 ∉ p.1) (hval : 0 ∉ p.2) :
    urlDecode (queryPiece p) true = some (p.1 ++ 61 :: p.2) := by
  have hloop : decodeLoop true (61 :: urlEncode p.2) = .decoded (61 :: p.2) := by
    have happend := decodeLoop_urlEncode true p.2 []
    rw [append_nil] at happend
    rw [decodeLoop_plain true (by decide) (by decide) (by decide), happend]
    change Decoding.decoded (61 :: (p.2 ++ [])) = _
    rw [append_nil]
  apply urlDecode_urlEncode_append hname ?_ ?_ hloop
  · rw [mem_cons]
    exact fun hmem => hmem.elim (by decide) fun hmem => (mem_urlEncode hmem).1 rfl
  · rw [mem_cons]
    exact fun hmem => hmem.elim (by decide) hval

theorem addPiece_queryPiece (hname : 0 ∉ p.1) (hval : 0 ∉ p.2) (args : HttpArgs) :
    addPiece args (queryPiece p) = addPair args (parseNameVal (p.1 ++ 61 :: p.2)) := by
  rw [addPiece, urlDecode_queryPiece hname hval]
  rfl

theorem parseNameVal_of_notMem {name val : Bytes} (h : 61 ∉ name) :
    parseNameVal (name ++ 61 :: val) = (name, val) := by
  rw [parseNameVal, takeWhile_ne_append h, dropWhile_ne_append h]
  simp

theorem mem_queryPiece {b : UInt8} (h : b ∈ queryPiece p) : b ≠ 38 ∧ b ≠ 63 := by
  rw [queryPiece, mem_append, mem_cons] at h
  obtain h | rfl | h := h
  · exact ⟨(mem_urlEncode h).2.1, (mem_urlEncode h).2.2.2⟩
  · decide
  · exact ⟨(mem_urlEncode h).2.1, (mem_urlEncode h).2.2.2⟩

theorem head_queryString (pairs : List (Bytes × Bytes)) : (queryString pairs).head? ≠ some 63 := by
  have hpiece : ∀ p : Bytes × Bytes, ∀ t : Bytes, (queryPiece p ++ t).head? ≠ some 63 := by
    intro p t h
    have hne : queryPiece p ≠ [] := by simp [queryPiece]
    rw [head?_append_of_ne_nil _ hne] at h
    exact (mem_queryPiece (mem_of_head? h)).2 rfl
  match pairs with
  | [] => decide
  | [p] =>
    have hsingle : queryString [p] = queryPiece p ++ [] := rfl
    exact hpiece p []
  | p :: q :: pairs =>
    have hcons : queryString (p :: q :: pairs) = queryPiece p ++ (38 :: queryString (q :: pairs)) :=
      rfl
    exact hpiece p _

variable {pairs : List (Bytes × Bytes)}

theorem parse_queryString (hne : pairs ≠ []) (h0 : ∀ p ∈ pairs, 0 ∉ p.1 ∧ 0 ∉ p.2) :
    HttpArgs.parse (queryString pairs)
      = pairs.foldl (fun args p => addPair args (parseNameVal (p.1 ++ 61 :: p.2))) {} := by
  have hsplit : (queryString pairs).splitOn 38 = pairs.map queryPiece := by
    apply splitOn_intercalate
    · intro piece hpiece hmem
      obtain ⟨p, -, rfl⟩ := List.mem_map.mp hpiece
      exact (mem_queryPiece hmem).1 rfl
    · simpa using hne
  rw [HttpArgs.parse, if_neg (head_queryString pairs), hsplit, foldl_map]
  apply foldl_ext
  intro args p hp
  exact addPiece_queryPiece (h0 p hp).1 (h0 p hp).2 args

theorem lastValue_concat (pairs : List (Bytes × Bytes)) (p : Bytes × Bytes) :
    lastValue (pairs ++ [p]) = Function.update (lastValue pairs) p.1 (some p.2) := by
  funext name
  rw [lastValue, reverse_append, reverse_singleton, singleton_append, find?_cons]
  by_cases hname : p.1 = name
  · subst hname
    simp
  · rw [decide_eq_false hname, update_of_ne (Ne.symm hname)]
    rfl

variable {name : Bytes}

theorem lastValue_eq_none_iff : lastValue pairs name = none ↔ ∀ p ∈ pairs, p.1 ≠ name := by
  simp [lastValue]

theorem valMap_addSubresource (name val : Bytes) (args : HttpArgs) :
    (addSubresource name val args).valMap = args.valMap := by
  rw [addSubresource]
  split_ifs <;> rfl

theorem subResources_addValue (name val : Bytes) (args : HttpArgs) :
    (addValue name val args).subResources = args.subResources
      ∧ (addValue name val args).adminSubresourceAdded = args.adminSubresourceAdded := by
  rw [addValue]
  split_ifs <;> exact ⟨rfl, rfl⟩

theorem valMap_addPair (h : p.1.take 5 ≠ ascii "rgwx-") (args : HttpArgs) :
    (addPair args p).valMap = Function.update args.valMap p.1 (some p.2) := by
  rw [addPair, valMap_addSubresource, addValue, if_neg h]

theorem valMap_foldl (h : ∀ p ∈ pairs, p.1.take 5 ≠ ascii "rgwx-") :
    (pairs.foldl addPair {}).valMap = lastValue pairs := by
  induction pairs using List.reverseRecOn with
  | nil => rfl
  | append_singleton pairs p ih =>
    have hp : p.1.take 5 ≠ ascii "rgwx-" := h p (mem_append_right _ (mem_singleton_self p))
    rw [foldl_append, foldl_cons, foldl_nil, valMap_addPair hp, lastValue_concat,
      ih fun q hq => h q (mem_append_left _ hq)]

theorem valMap_addPair_eq_none {name s : Bytes} {args : HttpArgs} (hname : 61 ∈ name)
    (h : args.valMap name = none) : (addPair args (parseNameVal s)).valMap name = none := by
  have hne : name ≠ (parseNameVal s).1 := by
    rintro rfl
    have := mem_takeWhile_imp hname
    simp at this
  rw [addPair, valMap_addSubresource, addValue]
  split_ifs
  · exact h
  · exact (update_of_ne hne _ _).trans h

theorem valMap_foldl_eq_none (hname : 61 ∈ name) (pairs : List (Bytes × Bytes)) :
    (pairs.foldl (fun args p => addPair args (parseNameVal (p.1 ++ 61 :: p.2))) {}).valMap name =
      none := by
  induction pairs using List.reverseRecOn with
  | nil => rfl
  | append_singleton pairs p ih =>
    rw [foldl_append, foldl_cons, foldl_nil]
    exact valMap_addPair_eq_none hname ih

theorem notMem_adminSubresources (h : name ∈ valuedSubresources ++ responseModifiers) :
    name ∉ adminSubresources := by
  have hall : ∀ n ∈ valuedSubresources ++ responseModifiers, n ∉ adminSubresources := by decide
  exact hall name h

/-- The chain of comparisons, by the three tables of names. -/
theorem addSubresource_eq (name val : Bytes) (args : HttpArgs) : addSubresource name val args
      = if name ∈ valuedSubresources then setSubresource name val args
        else if name ∈ responseModifiers then
          { setSubresource name val args with hasRespModifier := true }
        else if name ∈ adminSubresources then
          if args.adminSubresourceAdded then args
          else { setSubresource name [] args with adminSubresourceAdded := true } else args := by
  have hresponse : ∀ n ∈ responseModifiers, n.head? = some 114 := by decide
  have hadmin : ∀ n ∈ adminSubresources, n.head? ≠ some 114 := by decide
  rw [addSubresource]
  by_cases hvalued : name ∈ valuedSubresources
  · rw [if_pos hvalued, if_pos hvalued]
  · by_cases hhead : name.head? = some 114
    · rw [if_pos hhead, if_neg fun hmem => hadmin name hmem hhead]
    · rw [if_neg hhead, if_neg fun hmem => hhead (hresponse name hmem)]

def firstAdmin (pairs : List (Bytes × Bytes)) : Option Bytes :=
  (pairs.find? fun p => p.1 ∈ adminSubresources).map Prod.fst

theorem firstAdmin_concat (pairs : List (Bytes × Bytes)) (p : Bytes × Bytes) :
    firstAdmin (pairs ++ [p]) = (firstAdmin pairs).or (if p.1 ∈ adminSubresources then some p.1
      else none) := by
  rw [firstAdmin, firstAdmin, find?_append, find?_singleton]
  cases pairs.find? fun p => p.1 ∈ adminSubresources with
  | some q => rfl
  | none =>
    by_cases hp : p.1 ∈ adminSubresources
    · rw [if_pos hp, if_pos (decide_eq_true hp)]
      rfl
    · rw [if_neg hp, if_neg (by simpa using hp)]
      rfl

def keptSubresources (pairs : List (Bytes × Bytes)) (name : Bytes) : Option Bytes :=
  if name ∈ valuedSubresources ++ responseModifiers then lastValue pairs name
  else if firstAdmin pairs = some name then some [] else none

theorem keptSubresources_concat_valued
    (h : p.1 ∈ valuedSubresources ++ responseModifiers) :
    keptSubresources (pairs ++ [p]) = Function.update (keptSubresources pairs) p.1 (some p.2) := by
  funext name
  rw [keptSubresources, lastValue_concat, firstAdmin_concat, if_neg (notMem_adminSubresources h),
    or_none]
  by_cases hname : name = p.1
  · subst hname
    rw [if_pos h, update_self, update_self]
  · rw [update_of_ne hname, update_of_ne hname]
    rfl

theorem keptSubresources_concat_other
    (h : p.1 ∉ valuedSubresources ++ responseModifiers)
    (hadmin : p.1 ∈ adminSubresources → (firstAdmin pairs).isSome = true) :
    keptSubresources (pairs ++ [p]) = keptSubresources pairs := by
  have hfirst : firstAdmin (pairs ++ [p]) = firstAdmin pairs := by
    rw [firstAdmin_concat]
    split_ifs with hp
    · obtain ⟨n, hn⟩ := isSome_iff_exists.mp (hadmin hp)
      rw [hn, some_or]
    · rw [or_none]
  funext name
  rw [keptSubresources, keptSubresources, hfirst, lastValue_concat]
  split_ifs with hname
  · have hne : name ≠ p.1 := fun heq => h (heq ▸ hname)
    exact update_of_ne hne _ _
  · rfl
  · rfl

theorem keptSubresources_concat_admin
    (h : p.1 ∉ valuedSubresources ++ responseModifiers) (hadmin : p.1 ∈ adminSubresources)
    (hfirst : firstAdmin pairs = none) :
    keptSubresources (pairs ++ [p]) = Function.update (keptSubresources pairs) p.1 (some []) := by
  funext name
  rw [keptSubresources, firstAdmin_concat, hfirst, if_pos hadmin, none_or, lastValue_concat]
  by_cases hname : name = p.1
  · subst hname
    rw [if_neg h, if_pos rfl, update_self]
  · have hne : some p.1 ≠ some name := fun heq => hname (some.inj heq).symm
    have hnone : (none : Option Bytes) ≠ some name := nofun
    rw [update_of_ne hname, update_of_ne hname, keptSubresources, hfirst, if_neg hne, if_neg hnone]

/-- The loop over parameters in closed form. -/
theorem subResources_foldl (pairs : List (Bytes × Bytes)) :
    (pairs.foldl addPair {}).subResources = keptSubresources pairs
      ∧ (pairs.foldl addPair {}).adminSubresourceAdded = (firstAdmin pairs).isSome := by
  induction pairs using List.reverseRecOn with
  | nil =>
    refine ⟨?_, rfl⟩
    funext name
    simp [keptSubresources, firstAdmin, lastValue]
  | append_singleton pairs p ih =>
    obtain ⟨hsub, hadded⟩ := ih
    obtain ⟨hsub', hadded'⟩ := subResources_addValue p.1 p.2 (pairs.foldl addPair {})
    rw [foldl_append, foldl_cons, foldl_nil, addPair, addSubresource_eq, firstAdmin_concat]
    by_cases hvalued : p.1 ∈ valuedSubresources
    · have hmem := mem_append_left responseModifiers hvalued
      rw [if_pos hvalued, keptSubresources_concat_valued hmem,
        if_neg (notMem_adminSubresources hmem), or_none]
      dsimp only [setSubresource]
      rw [hsub', hadded', hsub]
      exact ⟨rfl, hadded⟩
    · rw [if_neg hvalued]
      by_cases hresponse : p.1 ∈ responseModifiers
      · have hmem := mem_append_right valuedSubresources hresponse
        rw [if_pos hresponse, keptSubresources_concat_valued hmem,
          if_neg (notMem_adminSubresources hmem), or_none]
        dsimp only [setSubresource]
        rw [hsub', hadded', hsub]
        exact ⟨rfl, hadded⟩
      · have hmem : p.1 ∉ valuedSubresources ++ responseModifiers := fun h =>
          (mem_append.mp h).elim hvalued hresponse
        rw [if_neg hresponse]
        by_cases hadmin : p.1 ∈ adminSubresources
        · rw [if_pos hadmin, if_pos hadmin, hadded', hadded]
          cases hfirst : firstAdmin pairs with
          | none =>
            rw [keptSubresources_concat_admin hmem hadmin hfirst, if_neg (by simp)]
            dsimp only [setSubresource]
            rw [hsub', hsub]
            exact ⟨rfl, rfl⟩
          | some n =>
            rw [keptSubresources_concat_other hmem fun _ => by rw [hfirst]; rfl,
              if_pos (show (some n).isSome = true from rfl), hsub', hadded', hadded, hfirst]
            exact ⟨hsub, rfl⟩
        · rw [if_neg hadmin, if_neg hadmin, keptSubresources_concat_other hmem fun h =>
            absurd h hadmin, hsub', hadded',
            or_none]
          exact ⟨hsub, hadded⟩

def AdminOnce (pairs : List (Bytes × Bytes)) : Prop :=
  ∀ p ∈ pairs, p.1 ∈ adminSubresources → lastValue pairs p.1 = some []
    ∧ ∀ q ∈ pairs, q.1 ∈ adminSubresources → q.1 = p.1

theorem firstAdmin_mem (h : firstAdmin pairs = some name) : ∃ p ∈ pairs, p.1 = name ∧
    p.1 ∈ adminSubresources := by
  obtain ⟨p, hp, rfl⟩ := map_eq_some_iff.mp h
  exact ⟨p, mem_of_find?_eq_some hp, rfl, by simpa using find?_some hp⟩

theorem exists_firstAdmin (hp : p ∈ pairs)
    (hadmin : p.1 ∈ adminSubresources) : ∃ name, firstAdmin pairs = some name := by
  have hsome : (pairs.find? fun p => p.1 ∈ adminSubresources).isSome := by
    rw [find?_isSome]
    exact ⟨p, hp, decide_eq_true hadmin⟩
  obtain ⟨q, hq⟩ := isSome_iff_exists.mp hsome
  exact ⟨q.1, by rw [firstAdmin, hq]; rfl⟩

/-- The last value of every name is kept exactly if there is one admin subresource at most, with no
value. -/
theorem keptSubresources_eq_iff (pairs : List (Bytes × Bytes)) :
    (keptSubresources pairs = fun name => if name ∈ subresourceNames then lastValue pairs name
      else none)
      ↔ AdminOnce pairs := by
  have hadmins : ∀ n ∈ adminSubresources, n ∈ subresourceNames := fun n hn => mem_append_right _ hn
  constructor
  · intro h p hp hadmin
    have hname : ∀ q ∈ pairs, q.1 ∈ adminSubresources → firstAdmin pairs = some q.1 ∧
        lastValue pairs q.1 = some [] := by
      intro q hq hqadmin
      have hval := congrFun h q.1
      rw [keptSubresources, if_neg fun hmem => notMem_adminSubresources hmem hqadmin,
        if_pos (hadmins _ hqadmin)] at hval
      by_cases hfirst : firstAdmin pairs = some q.1
      · rw [if_pos hfirst] at hval
        exact ⟨hfirst, hval.symm⟩
      · rw [if_neg hfirst] at hval
        exact absurd rfl (lastValue_eq_none_iff.mp hval.symm q hq)
    refine ⟨(hname p hp hadmin).2, fun q hq hqadmin => ?_⟩
    exact some.inj ((hname q hq hqadmin).1.symm.trans (hname p hp hadmin).1)
  · intro h
    funext name
    rw [keptSubresources]
    by_cases hmem : name ∈ valuedSubresources ++ responseModifiers
    · have hname : name ∈ subresourceNames := mem_append_left _ hmem
      rw [if_pos hmem, if_pos hname]
    · rw [if_neg hmem]
      by_cases hfirst : firstAdmin pairs = some name
      · obtain ⟨p, hp, rfl, hadmin⟩ := firstAdmin_mem hfirst
        rw [if_pos hfirst, if_pos (hadmins _ hadmin), (h p hp hadmin).1]
      · split_ifs with hsub
        · refine (lastValue_eq_none_iff.mpr fun p hp heq => ?_).symm
          subst heq
          have hadmin : p.1 ∈ adminSubresources := (mem_append.mp hsub).resolve_left hmem
          obtain ⟨n, hn⟩ := exists_firstAdmin hp hadmin
          obtain ⟨q, hq, rfl, hqadmin⟩ := firstAdmin_mem hn
          exact hfirst (hn.trans (congrArg some ((h p hp hadmin).2 q hq hqadmin)))
        · rfl

theorem not_parsedFrom_nil : ¬ ParsedFrom [] (HttpArgs.parse (queryString [])) := by
  intro h
  have hempty : (HttpArgs.parse (queryString [])).valMap [] = some [] := by decide
  rw [h.1] at hempty
  exact absurd hempty (by decide)

theorem not_parsedFrom_of_mem (h0 : ∀ p ∈ pairs, 0 ∉ p.1 ∧ 0 ∉ p.2)
    (hp : p ∈ pairs) (hname : 61 ∈ p.1) :
    ¬ ParsedFrom pairs (HttpArgs.parse (queryString pairs)) := by
  intro h
  have hnone := congrFun h.1 p.1
  rw [parse_queryString (ne_nil_of_mem hp) h0, valMap_foldl_eq_none hname] at hnone
  exact lastValue_eq_none_iff.mp hnone.symm p hp rfl

theorem parse_queryString_of_notMem (hne : pairs ≠ [])
    (h0 : ∀ p ∈ pairs, 0 ∉ p.1 ∧ 0 ∉ p.2) (hname : ∀ p ∈ pairs, 61 ∉ p.1) :
    HttpArgs.parse (queryString pairs) = pairs.foldl addPair {} := by
  rw [parse_queryString hne h0]
  apply foldl_ext
  intro args p hp
  rw [parseNameVal_of_notMem (hname p hp)]

/-- A query string comes back if it is not empty, no name has `=` in it, and at most one name of the
administrators is there, without a value. -/
theorem parsedFrom_iff (pairs : List (Bytes × Bytes))
    (hname : ∀ p ∈ pairs, p.1 ≠ [] ∧ p.1.take 5 ≠ ascii "rgwx-")
    (h0 : ∀ p ∈ pairs, 0 ∉ p.1 ∧ 0 ∉ p.2) : ParsedFrom pairs (HttpArgs.parse (queryString pairs))
      ↔ pairs ≠ [] ∧ (∀ p ∈ pairs, 61 ∉ p.1) ∧ AdminOnce pairs := by
  by_cases hne : pairs = []
  · subst hne
    exact iff_of_false not_parsedFrom_nil fun hand => hand.1 rfl
  · by_cases hplain : ∀ p ∈ pairs, 61 ∉ p.1
    · rw [ParsedFrom, parse_queryString_of_notMem hne h0 hplain, valMap_foldl fun p hp =>
        (hname p hp).2,
        (subResources_foldl pairs).1, keptSubresources_eq_iff]
      exact ⟨fun hand => ⟨hne, hplain, hand.2⟩, fun hand => ⟨rfl, hand.2.2⟩⟩
    · refine iff_of_false ?_ fun hand => hplain hand.2.1
      push Not at hplain
      obtain ⟨p, hp, hmem⟩ := hplain
      exact not_parsedFrom_of_mem h0 hp hmem

/-- Two values of one name, with separators in them, and a sub-resource. -/
theorem parsedFrom_of_three_pairs :
    ParsedFrom [(ascii "prefix", ascii "a&b=c"), (ascii "uploads", []),
      (ascii "prefix", ascii "x+y z")]
      (HttpArgs.parse
        (queryString [(ascii "prefix", ascii "a&b=c"), (ascii "uploads", []),
          (ascii "prefix", ascii "x+y z")])) :=
  (parsedFrom_iff [(ascii "prefix", ascii "a&b=c"), (ascii "uploads", []),
    (ascii "prefix", ascii "x+y z")]
    (by decide) (by decide)).mpr
    ⟨cons_ne_nil _ _, by decide, by
      intro p hp hadmin
      have hnone : ∀ p ∈ [(ascii "prefix", ascii "a&b=c"), (ascii "uploads", []),
        (ascii "prefix", ascii "x+y z")],
          p.1 ∉ adminSubresources := by decide
      exact absurd hadmin (hnone p hp)⟩

/-- The name `a=b` is cut at its `=`. The value of `quota` is dropped from the sub-resources. -/
theorem query_pairs_lost :
    ¬ ParsedFrom [(ascii "a=b", ascii "c")]
    (HttpArgs.parse (queryString [(ascii "a=b", ascii "c")]))
      ∧ ¬ ParsedFrom [(ascii "quota", ascii "7")]
    (HttpArgs.parse (queryString [(ascii "quota", ascii "7")])) := by
  constructor
  · apply not_parsedFrom_of_mem (p := (ascii "a=b", ascii "c"))
    · decide
    · exact mem_singleton_self _
    · decide
  · intro h
    have hval := congrFun h.2 (ascii "quota")
    exact absurd hval (by decide)

theorem urlEncode_of_plain (h : ∀ c ∈ s, charNeedsUrlEncoding c = false) : urlEncode s = s := by
  induction s with
  | nil => rfl
  | cons c s ih =>
    obtain ⟨hc, hs⟩ := forall_mem_cons.mp h
    rw [urlEncode_cons, ih hs, if_neg (by simp [hc]), singleton_append]

def copySource (slash : Bool) (bucket key : Bytes) (version : Option Bytes) : Bytes :=
  urlEncode ((if slash then [47] else []) ++ (bucket ++ 47 :: key))
    ++ version.elim [] fun v => ascii "?versionId=" ++ v

theorem notMem_of_validateBucketName {bucket : Bytes} {relaxedNames : Bool}
    (h : validateBucketName bucket relaxedNames = 0) (h0 : 0 ∉ bucket) : 47 ∉ bucket := by
  cases bucket with
  | nil => exact not_mem_nil
  | cons c bucket =>
    have hall : (cstr (c :: bucket)).all isBucketChar = true := by
      by_contra hall
      rw [validateBucketName.eq_def, Bool.eq_false_iff.mpr hall] at h
      dsimp only at h
      rw [if_pos (show (!false) = true from rfl)] at h
      split_ifs at h with hlen hfirst
      · rw [h] at hlen
        exact absurd hlen (by decide)
      · exact absurd h (by decide)
      · exact absurd h (by decide)
    rw [cstr_eq_self h0, List.all_eq_true] at hall
    exact fun hmem => absurd (hall 47 hmem) (by decide)

theorem get_versionId {v : Bytes} (h : ∀ c ∈ v, charNeedsUrlEncoding c = false) :
    HttpArgs.get (ascii "versionId") (HttpArgs.parse (ascii "versionId=" ++ v)) = v := by
  have hquery : ascii "versionId=" ++ v = queryString [(ascii "versionId", v)] := by
    rw [queryString, map_singleton, intercalate_singleton, queryPiece, urlEncode_of_plain h]
    rfl
  have hv : 0 ∉ v := fun hmem => (plain_of_not_needs (h 0 hmem)).1 rfl
  have hplain : ∀ p ∈ [(ascii "versionId", v)], (0 ∉ p.1 ∧ 0 ∉ p.2) ∧ 61 ∉ p.1 ∧
      p.1.take 5 ≠ ascii "rgwx-" := by
    rw [forall_mem_singleton]
    exact ⟨⟨by change 0 ∉ ascii "versionId"; decide, hv⟩, by change 61 ∉ ascii "versionId"; decide,
      by change (ascii "versionId").take 5 ≠ _; decide⟩
  rw [hquery, parse_queryString_of_notMem (cons_ne_nil _ _) (fun p hp => (hplain p hp).1)
    (fun p hp => (hplain p hp).2.1), HttpArgs.get, valMap_foldl fun p hp => (hplain p hp).2.2]
  simp [lastValue]

theorem takeWhile_urlEncode (s : Bytes) {t : Bytes} (ht : t.takeWhile (· ≠ 63) = []) :
    (urlEncode s ++ t).takeWhile (· ≠ 63) = urlEncode s ∧
    (urlEncode s ++ t).dropWhile (· ≠ 63) = t := by
  have hpos : ∀ c ∈ urlEncode s, decide (c ≠ 63) = true :=
    fun c hc => by simpa using (mem_urlEncode hc).2.2.2
  have hdrop : t.dropWhile (· ≠ 63) = t := by
    have := takeWhile_append_dropWhile (p := fun c : UInt8 => decide (c ≠ 63)) (l := t)
    rwa [ht, nil_append] at this
  rw [takeWhile_append_of_pos hpos, dropWhile_append_of_pos hpos, ht, hdrop, append_nil]
  exact ⟨rfl, rfl⟩

theorem parseCopyLocation_urlEncode {slash : Bool} {bucket key params : Bytes} (hne : bucket ≠ [])
    (h0 : 0 ∉ bucket)
    (hslash : 47 ∉ bucket) (hkey : key ≠ []) (hkey0 : 0 ∉ key)
    (hparams : params.takeWhile (· ≠ 63) = []) :
    parseCopyLocation (urlEncode ((if slash then [47] else []) ++ (bucket ++ 47 :: key)) ++
      params) = some
          { bucketName := bucket,
            name := key,
            inst := if (params.drop 1).isEmpty then []
              else HttpArgs.get (ascii "versionId") (HttpArgs.parse (params.drop 1)) } := by
  obtain ⟨htake, hdrop⟩ :=
    takeWhile_urlEncode ((if slash then [47] else []) ++ (bucket ++ 47 :: key)) hparams
  have hpath : 0 ∉ (if slash then [47] else []) ++ (bucket ++ 47 :: key) := by
    cases slash <;> simp [h0, hkey0]
  have hstr : (if ((if slash then [47] else []) ++ (bucket ++ 47 :: key)).head? = some 47
      then ((if slash then [47] else []) ++ (bucket ++ 47 :: key)).tail
      else (if slash then [47] else []) ++ (bucket ++ 47 :: key)) = bucket ++ 47 :: key := by
    cases slash with
    | true => rfl
    | false =>
      obtain ⟨c, rest, rfl⟩ := exists_cons_of_ne_nil hne
      refine if_neg fun hhead => hslash ?_
      obtain rfl : c = 47 := some.inj hhead
      exact mem_cons_self
  have hfound : (bucket ++ 47 :: key).contains 47 = true := contains_iff_mem.mpr (by simp)
  unfold parseCopyLocation
  dsimp only
  rw [htake, hdrop, urlDecode_urlEncode false hpath, getD_some, hstr, takeWhile_ne_append hslash,
    dropWhile_ne_append hslash, drop_one, tail_cons, hfound, isEmpty_eq_false_iff.mpr hne,
    isEmpty_eq_false_iff.mpr hkey]
  rfl

/-- **Copy sources.** A valid bucket name and a key, both coded, come back from `x-amz-copy-source`,
with a version that needs no coding. -/
theorem parseCopyLocation_copySource (slash : Bool) (bucket key : Bytes) (version : Option Bytes)
    (relaxedNames : Bool)
    (hvalid : validateBucketName bucket relaxedNames = 0) (hne : bucket ≠ []) (h0 : 0 ∉ bucket)
    (hkey : key ≠ [])
    (hkey0 : 0 ∉ key) (hversion : ∀ v ∈ version, ∀ c ∈ v, charNeedsUrlEncoding c = false) :
    parseCopyLocation (copySource slash bucket key version) =
      some ⟨bucket, key, version.getD []⟩ := by
  have hslash : 47 ∉ bucket := notMem_of_validateBucketName hvalid h0
  cases version with
  | none => exact parseCopyLocation_urlEncode hne h0 hslash hkey hkey0 rfl
  | some v =>
    have hv : HttpArgs.get (ascii "versionId") (HttpArgs.parse (ascii "versionId=" ++ v)) = v :=
      get_versionId (hversion v rfl)
    have hparse : parseCopyLocation (copySource slash bucket key (some v))
        = some ⟨bucket, key,
          HttpArgs.get (ascii "versionId") (HttpArgs.parse (ascii "versionId=" ++ v))⟩ :=
      parseCopyLocation_urlEncode hne h0 hslash hkey hkey0 rfl
    rw [hparse, hv]
    rfl

/-- A key with a slash, a question mark, a percent sign and a plus. -/
theorem parseCopyLocation_copySource_reserved :
    parseCopyLocation (copySource true (ascii "pictures") (ascii "a/b?c%2f+d") (some (ascii "v1")))
      = some ⟨ascii "pictures", ascii "a/b?c%2f+d", ascii "v1"⟩ :=
  parseCopyLocation_copySource true (ascii "pictures") (ascii "a/b?c%2f+d") (some (ascii "v1"))
    false (by decide)
    (by decide) (by decide) (by decide) (by decide) fun v hv => by
      cases hv
      have hall : (ascii "v1").all (fun c => !charNeedsUrlEncoding c) = true := by decide
      exact fun c hc => Bool.not_eq_true' _ ▸ List.all_eq_true.mp hall c hc

/-- No bucket at all is a name that validation lets pass, and no source; and a key ends at its first
zero byte. -/
theorem empty_bucket_no_copySource :
    validateBucketName [] false = 0 ∧
      parseCopyLocation (copySource true [] (ascii "key") none) = none ∧
      parseCopyLocation (copySource true (ascii "pictures") [97, 0, 98] none) =
        some ⟨ascii "pictures", [97], []⟩ := by
  decide

end RadosGateway
