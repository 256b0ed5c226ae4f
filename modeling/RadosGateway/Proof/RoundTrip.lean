import RadosGateway.Proof.Upload
import RadosGateway.Proof.Download

/-!
# Upload and download

What is uploaded in one piece comes back as it was sent, whatever the chunk size and however the
client's connection cuts the body, if the file could be opened: an upload that cannot open it
reports success. -/

namespace RadosGateway

open Text Posix
open List hiding le_refl

def Kernel.Full (k : Kernel) : Prop := ∀ p offset len, k.accept p offset len = some len

theorem landed_full {accept : Nat → Nat → Option Nat}
    (h : ∀ offset len, accept offset len = some len) (offset : Nat) (cs : List Bytes) :
    landed accept offset cs = (cs.flatten, true) := by
  induction cs generalizing offset with
  | nil => rfl
  | cons data cs ih => simp [landed, h, ih]

def leftover (n : Nat) (s : Bytes) (segs : List Bytes) : List Bytes :=
  if s.length ≤ n then segs else s.drop n :: segs

theorem readInput_map_data (n : Nat) (s : Bytes) (segs : List Bytes) :
    readInput n ((s :: segs).map .data) = (.ok (s.take n), (leftover n s segs).map .data) := by
  simp only [map_cons, readInput, leftover]
  split_ifs <;> rfl

theorem flatten_leftover (n : Nat) (s : Bytes) (segs : List Bytes) :
    s.take n ++ (leftover n s segs).flatten = s ++ segs.flatten := by
  unfold leftover
  split_ifs with hle
  · rw [take_of_length_le hle]
  · rw [flatten_cons, ← append_assoc, take_append_drop]

variable {segs : List Bytes} {G : Global} {req : PutRequest}

theorem leftover_ne_nil {n : Nat} {s : Bytes} (hsegs : ∀ s ∈ segs, s ≠ []) :
    ∀ r ∈ leftover n s segs, r ≠ [] := by
  unfold leftover
  split_ifs with hle
  · exact hsegs
  · refine forall_mem_cons.mpr ⟨?_, hsegs⟩
    rw [ne_eq, drop_eq_nil_iff]
    exact hle

/-- The chunks of an input that ends in time are its bytes. -/
theorem flatten_chunks (hchunk : 0 < G.rgwMaxChunkSize) {l : Bytes} {L : Nat}
    (hL : atoll (cstr l) = L) (hlt : L < 2 ^ 64) {fuel ofs : Nat}
    (hsegs : ∀ s ∈ segs, s ≠ []) (hfuel : inputFuel (segs.map .data) ≤ fuel) (hofs : ofs ≤ L)
    (hended : (chunks G (some l) fuel ofs (segs.map .data)).2 = none) :
    (chunks G (some l) fuel ofs (segs.map .data)).1.flatten = segs.flatten.take (L - ofs) := by
  induction fuel generalizing segs ofs with
  | zero => simp [inputFuel] at hfuel
  | succ fuel ih =>
    have hsize : readSize G (some l) ofs = min (L - ofs) G.rgwMaxChunkSize := by
      have hrest : (L : Int) - ofs = (L - ofs : Nat) := by omega
      rw [readSize, hL, hrest, toU64_of_lt (by omega)]
    simp only [chunks] at hended ⊢
    rcases hget : getData G (some l) ofs (segs.map .data) with ⟨r | data, input⟩
    · simp [hget] at hended
    · simp only [hget] at hended ⊢
      rcases getData_ok_cases hget with ⟨hzero, rfl, rfl⟩ | ⟨hpos, hread⟩
      · have hend : L - ofs = 0 := by omega
        simp [hend]
      · cases segs with
        | nil =>
          obtain ⟨rfl, -⟩ : [] = data ∧ _ := by simpa [readInput] using hread
          simp
        | cons s segs =>
          rw [readInput_map_data] at hread
          simp only [Prod.mk.injEq, Except.ok.injEq] at hread
          obtain ⟨rfl, rfl⟩ := hread
          obtain ⟨hs, hrest⟩ := forall_mem_cons.mp hsegs
          have hdata : s.take (readSize G (some l) ofs) ≠ [] := by
            simp [take_eq_nil_iff, hpos, hs]
          have hless := inputFuel_getData_lt hget hdata
          simp only [if_neg hdata] at hended ⊢
          have hlen : (s.take (readSize G (some l) ofs)).length ≤ L - ofs := by
            rw [length_take, hsize]
            omega
          rw [flatten_cons, flatten_cons, ih (leftover_ne_nil hrest) (by omega) (by omega) hended,
            ← flatten_leftover (readSize G (some l) ofs) s segs, take_append,
            take_of_length_le hlen, Nat.sub_add_eq]

/-- An input of the announced length is received completely. -/
theorem PutRequest.flatten_received (hchunk : 0 < G.rgwMaxChunkSize)
    (hinput : req.input = segs.map .data)
    (hsegs : ∀ s ∈ segs, s ≠ []) (hlength : req.length = some (decimal segs.flatten.length))
    (hended : (req.received G).2 = none) :
    (req.received G).1.flatten = segs.flatten.take (2 ^ 63 - 1) := by
  set n := segs.flatten.length with hn
  have hzero : 0 ∉ decimal n := by
    intro hmem
    exact absurd (isDigit_of_mem_decimal hmem) (by decide)
  have hL : atoll (cstr (decimal n)) = (min n (2 ^ 63 - 1) : Nat) := by
    rw [cstr_eq_self hzero, atoll_of_isDigit (decimal_ne_nil n) fun _ => isDigit_of_mem_decimal,
      digitsValue_decimal]
    omega
  unfold PutRequest.received at hended ⊢
  rw [hlength, hinput] at hended ⊢
  rw [flatten_chunks hchunk hL (by omega) hsegs (le_refl _) (Nat.zero_le _) hended, Nat.sub_zero]
  by_cases hle : n ≤ 2 ^ 63 - 1
  · rw [min_eq_left hle, take_of_length_le (by omega), take_of_length_le (by omega)]
  · rw [min_eq_right (by omega)]

theorem take_eq_self_iff (body : Bytes) : body.take (2 ^ 63 - 1) = body ↔ body.length < 2 ^ 63 := by
  rw [List.take_eq_self_iff]
  omega

/-- What an upload in one piece leaves in its file. -/
theorem PutRequest.kept_append_landed (hchunk : 0 < G.rgwMaxChunkSize) {k : Kernel}
    (hfull : k.Full) (hsingle : req.multipart = false) (hinput : req.input = segs.map .data)
    (hsegs : ∀ s ∈ segs, s ≠ []) (hlength : req.length = some (decimal segs.flatten.length))
    {t : FileTree} {p : Path}
    (hcomplete : (req.landed k G t p).2 = true → (req.received G).2 = none) :
    req.kept t p ++ (req.landed k G t p).1 = segs.flatten.take (2 ^ 63 - 1) := by
  have hall : req.landed k G t p = ((req.received G).1.flatten, true) := landed_full (hfull p) _ _
  have hended := hcomplete (by rw [hall])
  rw [hall, PutRequest.kept, hsingle,
    PutRequest.flatten_received hchunk hinput hsegs hlength hended]
  rfl

/-- An upload to the statistics is not found there: they would have to hold what they held before
the object was counted. -/
theorem PutRequest.statText_ne_of_written {k : Kernel} {t : FileTree} {base : Path}
    {body : Bytes} {info : SysInfo} {size : UInt64}
    (hread : readFile (req.written k G t) (statPlace base) = some (body.take (2 ^ 63 - 1)))
    (hinfo : readStat (req.written k G t) base = some info) :
    (info.addObject size).statText ≠ body := by
  rintro rfl
  have hlen := SysInfo.length_statText_lt (info.addObject size)
  rw [(take_eq_self_iff _).mpr (by omega)] at hread
  rw [readStat_of_file hread] at hinfo
  exact SysInfo.read_statText_addObject_ne info size hinfo

/-- On a host whose shell leaves the files alone, a body uploaded in one piece comes back exactly
when its length is a 63-bit number, the digest of the download fits its buffers, and its file was
opened and is not the bucket's statistics. (A directory in the place of the file is sent as an empty
body.) -/
theorem put_get_iff {G : Global} (hchunk : 0 < G.rgwMaxChunkSize) {req : PutRequest}
    {segs : List Bytes} {k : Kernel} {w w' : World} {base : Path} {ret : Int}
    (hb : BucketAt G req.bucket w.tree base) (hsingle : req.multipart = false)
    (hinput : req.input = segs.map .data) (hsegs : ∀ s ∈ segs, s ≠ [])
    (hlength : req.length = some (decimal segs.flatten.length)) (hfull : k.Full)
    (hquiet : k.Quiet (req.path G)) (hput : exec k (req.execute G) w = some (ret, w'))
    (hret : 0 ≤ ret) :
    returned k G req.bucket req.object w' = some (some segs.flatten) ↔
      segs.flatten.length < 2 ^ 63 ∧ Md5Fits k w'.tree (req.path G) ∧
        ((∃ p, req.target G w.tree = some p ∧ p ≠ statPlace base) ∨ (segs.flatten = [] ∧
            ∃ p, w.tree.resolve (req.path G) = some p ∧ w.tree.node p = some .dir)) := by
  obtain ⟨hearly, hcomplete⟩ := PutRequest.early_of_success k hb hput hret
  rw [PutRequest.exec_execute_of_early_none k hb hearly] at hput
  obtain ⟨info, hinfo, hput⟩ := Option.map_eq_some_iff.mp hput
  obtain ⟨-, rfl⟩ := Prod.mk.inj hput
  set size := req.objSize k G w.tree
  set text := (info.addObject size).statText
  have hlanded : ∀ p, req.target G w.tree = some p →
      req.kept w.tree p ++ (req.landed k G w.tree p).1 = segs.flatten.take (2 ^ 63 - 1) :=
    fun p hp => PutRequest.kept_append_landed hchunk hfull hsingle hinput hsegs hlength
      (hcomplete p hp)
  have hfiles : ∀ q, readFile ((req.written k G w.tree).writeFile (statPlace base) text) q =
      if q = statPlace base then some text
      else if req.target G w.tree = some q then some (segs.flatten.take (2 ^ 63 - 1))
      else readFile w.tree q := by
    intro q
    rw [PutRequest.readFile_after hb]
    split_ifs with hq htarget
    · rfl
    · rw [hlanded q htarget]
    · rfl
  have hdirs : FileTree.SameDirs w.tree
    ((req.written k G w.tree).writeFile (statPlace base) text) :=
    PutRequest.sameDirs_after
  have hpath : req.path G = cstr (G.objectPath req.bucket req.object) := rfl
  rw [returned_eq_some hchunk hquiet, ← hpath, contentOf_eq_some]
  constructor
  · rintro ⟨hdigest, q, hfound, hbody⟩
    have hfits := hdigest.resolve_left (by simp [hfound])
    obtain ⟨hres, hsome⟩ := existing_eq_some.mp hfound
    rw [← FileTree.resolve_congr hdirs] at hres
    have hread := hfiles q
    by_cases hstat : q = statPlace base
    · subst hstat
      rw [if_pos rfl] at hread
      rw [hread, Option.getD_some] at hbody
      have htarget := PutRequest.target_eq_some.mpr ⟨hres, hb.holdsFile_statPlace⟩
      have hwritten : readFile (req.written k G w.tree) (statPlace base) =
          some (segs.flatten.take (2 ^ 63 - 1)) := by
        rw [PutRequest.readFile_written, if_pos htarget, hlanded _ htarget]
      exact absurd hbody (PutRequest.statText_ne_of_written hwritten hinfo)
    · rw [if_neg hstat] at hread
      by_cases htarget : req.target G w.tree = some q
      · rw [if_pos htarget] at hread
        rw [hread, Option.getD_some, take_eq_self_iff] at hbody
        exact ⟨hbody, hfits, .inl ⟨q, htarget, hstat⟩⟩
      · rw [if_neg htarget] at hread
        have hnone : readFile w.tree q = none := by
          by_contra hsome
          obtain ⟨bytes, hbytes⟩ := Option.ne_none_iff_exists'.mp hsome
          exact htarget (PutRequest.target_of_file hres hbytes)
        rw [hnone] at hread
        rw [hread, Option.getD_none] at hbody
        have hdir := (hdirs q).mpr (node_eq_dir hsome hread)
        exact ⟨by simp [← hbody], hfits, .inr ⟨hbody.symm, q, hres, hdir⟩⟩
  · rintro ⟨hlt, hfits, ⟨p, htarget, hstat⟩ | ⟨hempty, p, hres, hdir⟩⟩
    · have hread := hfiles p
      rw [if_neg hstat, if_pos htarget, (take_eq_self_iff _).mpr hlt] at hread
      have hres := (PutRequest.target_eq_some.mp htarget).1
      rw [FileTree.resolve_congr hdirs] at hres
      refine ⟨.inr hfits, p, existing_eq_some.mpr ⟨hres, ?_⟩, by rw [hread, Option.getD_some]⟩
      simp [readFile_eq_some.mp hread]
    · have hdir' := (hdirs p).mp hdir
      rw [FileTree.resolve_congr hdirs] at hres
      refine ⟨.inr hfits, p, existing_eq_some.mpr ⟨hres, by simp [hdir']⟩, ?_⟩
      rw [readFile_eq_none_of_dir hdir', hempty]
      rfl

/-- An upload in two segments and its download, in chunks of four bytes. -/
theorem put_get_sample :
    ∃ w', exec Sample.kernel ((Sample.put (ascii "k") [ascii "hello", ascii "!"]).execute Sample.G)
        Sample.world = some (0, w') ∧
      returned Sample.kernel Sample.G Sample.bucket (ascii "k") w' =
        some (some (ascii "hello!")) := by
  have hret : (exec Sample.kernel
      ((Sample.put (ascii "k") [ascii "hello", ascii "!"]).execute Sample.G) Sample.world).map
        Prod.fst = some 0 := by decide
  have hoperand : md5Operand ((Sample.put (ascii "k") [ascii "hello", ascii "!"]).path Sample.G) =
      some (Sample.G.objectPath Sample.bucket (ascii "k")) := by decide
  obtain ⟨⟨ret, w'⟩, hput, rfl⟩ := Option.map_eq_some_iff.mp hret
  have hbody : [ascii "hello", ascii "!"].flatten = ascii "hello!" := by decide
  have hiff := put_get_iff (by decide) Sample.bucketAt rfl rfl
    (by decide : ∀ s ∈ [ascii "hello", ascii "!"], s ≠ []) rfl (fun _ _ _ => rfl)
    (Kernel.quiet_of_operand _ hoperand) hput (le_refl _)
  rw [hbody] at hiff
  refine ⟨w', hput, hiff.mpr ⟨by decide, ?_, .inl ⟨ascii "k" :: Sample.base, by decide, by decide⟩⟩⟩
  exact md5Fits_of_operand _ _ (by decide) hoperand (by decide)

/-- The upload reports success, and there is no object. -/
theorem put_get_missing : (exec Sample.kernel (do
        let ret ← (Sample.put (ascii "a/b") [ascii "hello"]).execute Sample.G
        let response ← (download Sample.bucket (ascii "a/b")).execute Sample.G
        pure (ret, response)) Sample.world).map Prod.fst = some (0, .error (-Err.notFound)) := by
  decide

end RadosGateway
