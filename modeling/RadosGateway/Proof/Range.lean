import RadosGateway.Proof.Download

/-!
# Ranged downloads

A range header asks for the bytes from a first to a last one, both included. The download computes
the number of bytes to send as the difference of the two, and prints zero and the end as it was
parsed in `Content-Range`. -/

namespace RadosGateway

open Text Posix List Option

def Numeral := { s : Bytes // s ≠ [] ∧ ∀ c ∈ s, isDigit c = true }

def Numeral.value (s : Numeral) : Nat := digitsValue s.1

inductive RangeSpec where
  | firstLast (first last : Numeral)
  | startingAt (first : Numeral)
  | suffix (length : Numeral)

namespace RangeSpec

def set : RangeSpec → Bytes
  | firstLast first last => first.1 ++ 45 :: last.1
  | startingAt first => first.1 ++ 45 :: []
  | suffix length => 45 :: length.1

def header (spec : RangeSpec) : Bytes := ascii "bytes=" ++ spec.set

def slice (n : Nat) : RangeSpec → Option (Nat × Nat)
  | firstLast first last =>
    if first.value ≤ last.value ∧ first.value < n then
      some (first.value, min last.value (n - 1))
    else none
  | startingAt first => if first.value < n then some (first.value, n - 1) else none
  | suffix length =>
    if 1 ≤ length.value ∧ 1 ≤ n then some (n - min length.value n, n - 1) else none

end RangeSpec

theorem Numeral.notMem {s : Numeral} {c : UInt8} (hc : isDigit c = false) : c ∉ s.1 := by
  intro hmem
  rw [s.2.2 c hmem] at hc
  exact absurd hc (by decide)

theorem rangeSet_header (spec : RangeSpec) : rangeSet (cstr spec.header) = some spec.set := by
  have hbytes : ascii "bytes=" = [98, 121, 116, 101, 115, 61] := by decide
  have hzero : 0 ∉ spec.header := by
    have hdigit : isDigit 0 = false := by decide
    cases spec <;> simp [RangeSpec.header, RangeSpec.set, hbytes, Numeral.notMem hdigit]
  rw [cstr_eq_self hzero, rangeSet, RangeSpec.header, hbytes]
  simp [afterFirst]

theorem takeWhile_numeral (s : Numeral) (rest : Bytes) :
    (s.1 ++ 45 :: rest).takeWhile (· ≠ 45) = s.1 :=
  takeWhile_ne_append (Numeral.notMem (by decide)) rest

theorem dropWhile_numeral (s : Numeral) (rest : Bytes) :
    (s.1 ++ 45 :: rest).dropWhile (· ≠ 45) = 45 :: rest :=
  dropWhile_ne_append (Numeral.notMem (by decide)) rest

/-- A range has an end only if both ends are given; its beginning is then cut to 63 bits. -/
theorem parseRange_header {spec : RangeSpec} {range : ByteRange}
    (h : parseRange spec.header = .ok range) :
    range.stop = -1 ∨ ∃ first last, spec = .firstLast first last ∧
        range.ofs = min (first.value : Int) (2 ^ 63 - 1) := by
  unfold parseRange at h
  rw [rangeSet_header] at h
  cases spec with
  | firstLast first last =>
    refine .inr ⟨first, last, rfl, ?_⟩
    simp only [RangeSpec.set, dropWhile_numeral, takeWhile_numeral, first.2.1, last.2.1,
      if_false] at h
    split_ifs at h
    obtain rfl := Except.ok.inj h
    exact atoll_of_isDigit first.2.1 first.2.2
  | startingAt first =>
    left
    simp only [RangeSpec.set, dropWhile_numeral, takeWhile_numeral, first.2.1, if_false] at h
    simp at h
    rw [← h]
  | suffix length =>
    left
    have htake : (45 :: length.1).takeWhile (· ≠ 45) = [] := by simp
    have hdrop : (45 :: length.1).dropWhile (· ≠ 45) = 45 :: length.1 := by simp
    simp only [RangeSpec.set, hdrop, htake, length.2.1, if_true, if_false] at h
    split_ifs at h
    obtain rfl := Except.ok.inj h
    rfl

/-- An answer with a body comes from a parsed range. -/
theorem ok_of_exec_get {k : Kernel} {G : Global} {req : GetRequest} {w w' : World} {status : Int}
    {range : Option Bytes} {length : Nat} {body : Bytes}
    (h : exec k (req.execute G) w = some (.ok status range length body, w')) :
    ∃ parsed, req.initCommon = .ok parsed ∧
      range = req.range.map (fun _ =>
        contentRange 0 parsed.stop ((statSize k w.tree (req.path G)).getD 0)) ∧
      (parsed.stop ≠ -1 → body.length ≤ (parsed.stop - parsed.ofs).toNat) := by
  unfold GetRequest.execute at h
  cases hinit : req.initCommon with
  | error r => simp [hinit] at h
  | ok parsed =>
    refine ⟨parsed, rfl, ?_⟩
    simp only [hinit, exec_statFile_bind, exec_openFile_bind] at h
    cases hopen : openTree w.tree (req.path G) .rdonly with
    | none => simp [hopen] at h
    | some opened =>
      obtain ⟨fd, t⟩ := opened
      simp only [hopen] at h
      by_cases hpart : parsed.ofs ≠ 0 ∨ parsed.stop ≠ -1
      · rw [if_pos hpart, exec_bind] at h
        obtain ⟨r, -, h⟩ := bind_eq_some_iff.mp h
        rw [exec_bind] at h
        obtain ⟨⟨sent, w₂⟩, hsend, h⟩ := bind_eq_some_iff.mp h
        have hlength := (length_sendLoop_le k hsend).2
        simp only [exec_pure, GetRequest.sendResponse, some.injEq, Prod.mk.injEq,
          Response.ok.injEq] at h
        obtain ⟨⟨-, hcr, -, hbody⟩, -⟩ := h
        refine ⟨hcr.symm, fun _ => ?_⟩
        rw [← hbody]
        split_ifs
        · simpa using hlength
        · simp
      · have hstop : parsed.stop = -1 := by
          by_contra hne
          exact hpart (.inr hne)
        rw [if_neg hpart] at h
        split_ifs at h with hbuf
        · simp at h
        · rw [exec_bind] at h
          obtain ⟨r, -, h⟩ := bind_eq_some_iff.mp h
          rw [exec_bind] at h
          obtain ⟨⟨sent, w₂⟩, -, h⟩ := bind_eq_some_iff.mp h
          simp only [exec_pure, GetRequest.sendResponse, some.injEq, Prod.mk.injEq,
            Response.ok.injEq] at h
          exact ⟨h.1.2.1.symm, fun hne => absurd hstop hne⟩

/-- The ends can be read off `Content-Range`. -/
theorem contentRange_inj {lo lo' : Nat} {stop stop' : Int} {n n' : Nat}
    (h : contentRange lo stop n = contentRange lo' stop' n') : lo = lo' ∧ stop = stop' := by
  have hminus : ∀ m : Nat, 45 ∉ decimalInt m := by
    intro m hmem
    rw [decimalInt, if_neg (by omega)] at hmem
    exact absurd (isDigit_of_mem_decimal hmem) (by decide)
  have hslash : ∀ z : Int, 47 ∉ decimalInt z := by
    intro z hmem
    rcases mem_decimalInt hmem with heq | hdigit
    · exact absurd heq (by decide)
    · exact absurd hdigit (by decide)
  unfold contentRange at h
  simp only [append_assoc, append_cancel_left_eq, cons_append] at h
  obtain ⟨hlo, hrest⟩ := append_cons_inj (hminus lo) (hminus lo') h
  obtain ⟨hstop, -⟩ := append_cons_inj (hslash stop) (hslash stop') hrest
  have hlo' := decimalInt_inj hlo
  exact ⟨by omega, decimalInt_inj hstop⟩

/-- No satisfiable range is served: never are the body, its length and the place named in the
headers those of the slice that was asked for. -/
theorem ranged_get_wrong (k : Kernel) (G : Global) (req : GetRequest) (w w' : World) (p : Path)
    (bytes : Bytes) (spec : RangeSpec) (first last : Nat) (status : Int)
    (hres : w.tree.resolve (req.path G) = some p) (hnode : w.tree.node p = some (.file bytes))
    (hrange : req.range = some spec.header)
    (hslice : spec.slice bytes.length = some (first, last)) :
    exec k (req.execute G) w ≠
      some (.ok status (some (contentRange first last bytes.length)) (last + 1 - first)
        ((bytes.drop first).take (last + 1 - first)), w') := by
  intro h
  have hsize : statSize k w.tree (req.path G) = some bytes.length := by
    simp [statSize, hres, hnode]
  obtain ⟨parsed, hinit, hheader, hlength⟩ := ok_of_exec_get h
  rw [hrange, hsize, map_some, some.injEq] at hheader
  have hsame : contentRange (first : Nat) last bytes.length =
      contentRange (0 : Nat) parsed.stop bytes.length := hheader
  obtain ⟨hfirst, hlast⟩ := contentRange_inj hsame
  have hparse : parseRange spec.header = .ok parsed := by
    simp only [GetRequest.initCommon, hrange, elim_some] at hinit
    cases hp : parseRange spec.header with
    | error r => simp [hp] at hinit
    | ok r =>
      simp only [hp] at hinit
      split_ifs at hinit
      rw [Except.ok.inj hinit]
  rcases parseRange_header hparse with hstop | ⟨a, b, rfl, hofs⟩
  · omega
  · -- the header is right, so the range starts at zero and `last` bytes are sent
    simp only [RangeSpec.slice] at hslice
    split_ifs at hslice with hsat
    simp only [some.injEq, Prod.mk.injEq] at hslice
    have hbody := hlength (by omega)
    rw [length_take, length_drop] at hbody
    omega

/-- The first two bytes of a file of four. -/
theorem ranged_get_wrong_sample : exec Sample.kernel (GetRequest.execute Sample.G
          { bucket := Sample.bucket, object := ascii "k", range := some (ascii "bytes=0-1") })
        ⟨0, Sample.tree.writeFile (ascii "k" :: Sample.base) (ascii "abcd")⟩ ≠
      some (.ok statusPartialContent (some (contentRange (0 : Nat) (1 : Nat) 4)) 2 (ascii "ab"),
        ⟨0, Sample.tree.writeFile (ascii "k" :: Sample.base) (ascii "abcd")⟩) :=
  ranged_get_wrong Sample.kernel Sample.G _ _ _ (ascii "k" :: Sample.base) (ascii "abcd")
    (.firstLast ⟨[48], by simp, forall_mem_singleton.mpr (by decide)⟩
      ⟨[49], by simp, forall_mem_singleton.mpr (by decide)⟩)
    0 1 _ (by decide) (by decide) (by decide) (by decide)

/-- One byte is sent, under a header that announces four. -/
theorem ranged_get_short : (exec Sample.kernel (GetRequest.execute Sample.G
        { bucket := Sample.bucket, object := ascii "k", range := some (ascii "bytes=0-1") })
      ⟨0, Sample.tree.writeFile (ascii "k" :: Sample.base) (ascii "abcd")⟩).map Prod.fst =
    some (.ok statusPartialContent (some (ascii "bytes 0-1/4")) 4 (ascii "a")) := by
  decide

end RadosGateway
