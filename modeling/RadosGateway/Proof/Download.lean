import RadosGateway.GetObj
import RadosGateway.Store

/-!
# What a download sends

A download asks for the size of the object, opens it, has the shell compute a digest, and sends the
object in pieces of the chunk size. What the shell makes of a path that is not one plain operand is
the host's affair: it is taken to leave the files alone (`Kernel.Quiet`), and what it prints may be
too long for its buffer (`Md5Fits`). -/

namespace RadosGateway

open Text Posix Option
open List hiding lt_of_le_of_lt

variable {len fuel pos : Nat} {w' : World} {arg : Bytes} {q : Path}

variable {t : FileTree} {path : Bytes} {bucket object : Bytes} {p : Path}

section Reading

variable (k : Kernel) {G : Global} {w : World} {fd : Fd} {bytes : Bytes}

/-- One read at an offset. -/
theorem exec_preadBuffer (len : Nat) (offset : Int) : exec k (preadBuffer fd len offset) w =
      if len = 0 then some (some [], w) else if offset < 0 then some (none, w)
        else match readFile w.tree fd with
        | none => some (none, w)
        | some bytes =>
          if bufferSize len < ((bytes.drop offset.toNat).take len).length then none
          else some (some ((bytes.drop offset.toNat).take len), w) := by
  unfold preadBuffer
  split_ifs with hlen hoffset
  · rfl
  · rfl
  · rw [exec_preadFd_bind]
    cases readFile w.tree fd with
    | none => rfl
    | some bytes =>
      simp only [map_some]
      split_ifs <;> rfl

theorem le_bufferSize (h : len < 2 ^ 31) : len ≤ bufferSize len := by
  unfold bufferSize
  split_ifs <;> omega

theorem world_preadBuffer {offset : Int} {data : Option Bytes}
    (h : exec k (preadBuffer fd len offset) w = some (data, w')) : w' = w := by
  rw [exec_preadBuffer] at h
  split_ifs at h
  · simp_all
  · simp_all
  · cases hread : readFile w.tree fd with
    | none => simp_all
    | some bytes =>
      rw [hread] at h
      simp only [] at h
      simp_all

/-- One turn of the loop. -/
theorem exec_sendLoop_succ (ofs left : Int) (fuel pos : Nat) (sent : Bytes) :
    exec k (sendLoop G fd ofs (fuel + 1) left pos sent) w = if left ≤ 0 then some (sent, w)
      else (exec k (preadBuffer fd (min G.rgwMaxChunkSize left.toNat) (ofs + pos)) w).bind fun r =>
        match r.1 with
        | none => some (sent, r.2)
        | some data =>
          if data.length ≠ min G.rgwMaxChunkSize left.toNat then some (sent, r.2)
          else exec k (sendLoop G fd ofs fuel (left - G.rgwMaxChunkSize)
            (pos + min G.rgwMaxChunkSize left.toNat) (sent ++ data)) r.2 := by
  rw [sendLoop]
  split_ifs
  · rfl
  · rw [exec_bind]
    congr
    funext r
    cases r.1 with
    | none => rfl
    | some data =>
      simp only []
      split_ifs <;> rfl

/-- The loop leaves the world alone and sends no more than it was asked for. -/
theorem length_sendLoop_le {ofs left : Int} {sent body : Bytes}
    (h : exec k (sendLoop G fd ofs fuel left pos sent) w = some (body, w')) :
    w' = w ∧ body.length ≤ sent.length + left.toNat := by
  induction fuel generalizing left pos sent with
  | zero => simp [sendLoop] at h
  | succ fuel ih =>
    rw [exec_sendLoop_succ] at h
    split_ifs at h with hleft
    · obtain ⟨rfl, rfl⟩ : sent = body ∧ w = w' := by simpa using h
      exact ⟨rfl, Nat.le_add_right _ _⟩
    · obtain ⟨⟨data, w₁⟩, hread, h⟩ := bind_eq_some_iff.mp h
      obtain rfl := world_preadBuffer k hread
      cases data with
      | none =>
        obtain ⟨rfl, rfl⟩ : sent = body ∧ w₁ = w' := by simpa using h
        exact ⟨rfl, Nat.le_add_right _ _⟩
      | some data =>
        simp only [] at h
        split_ifs at h with hlen
        · obtain ⟨rfl, rfl⟩ : sent = body ∧ w₁ = w' := by simpa using h
          exact ⟨rfl, Nat.le_add_right _ _⟩
        · obtain ⟨hw, hbody⟩ := ih h
          rw [length_append, not_not.mp hlen] at hbody
          exact ⟨hw, by omega⟩

/-- On a file that is not changed, the loop sends the rest of it. -/
theorem exec_sendLoop_file (hchunk : 0 < G.rgwMaxChunkSize)
    (hread : readFile w.tree fd = some bytes) {left : Int}
    (hpos : pos ≤ bytes.length) (hleft : left.toNat = bytes.length - pos)
    (hfuel : left.toNat < fuel) :
    exec k (sendLoop G fd 0 fuel left pos (bytes.take pos)) w = some (bytes, w) := by
  induction fuel generalizing pos left with
  | zero => omega
  | succ fuel ih =>
    rw [exec_sendLoop_succ]
    split_ifs with hdone
    · rw [take_of_length_le (by omega)]
    · set len := min G.rgwMaxChunkSize left.toNat with hlen
      have hlt := G.chunkSize_lt
      have hroom : len ≤ bufferSize len := le_bufferSize (by omega)
      have hdata : ((bytes.drop pos).take len).length = len := by
        rw [length_take, length_drop]
        omega
      have hpread : exec k (preadBuffer fd len (0 + pos)) w =
          some (some ((bytes.drop pos).take len), w) := by
        rw [exec_preadBuffer, if_neg (by omega), if_neg (by omega), hread, Int.zero_add,
          Int.toNat_natCast]
        simp only [hdata, if_neg (Nat.not_lt.mpr hroom)]
      rw [hpread, bind_some]
      simp only [hdata, ne_eq, not_true_eq_false, if_false]
      rw [← take_add]
      exact ih (by omega) (by omega) (by omega)

theorem exec_sendLoop_unreadable (hchunk : 0 < G.rgwMaxChunkSize)
    (hread : readFile w.tree fd = none) (hfuel : 0 < fuel) (left : Int) :
    exec k (sendLoop G fd 0 fuel left 0 []) w = some ([], w) := by
  obtain ⟨fuel, rfl⟩ := Nat.exists_eq_add_of_lt hfuel
  rw [zero_add, exec_sendLoop_succ]
  split_ifs with hdone
  · rfl
  · rw [exec_preadBuffer, if_neg (by omega), if_neg (by omega), hread]
    rfl

end Reading

def md5Operand (path : Bytes) : Option Bytes :=
  match Shell.lex .bare none path with
  | some [w] => if Shell.isPattern w ∨ w.bytes.head? = some 45 then none else some w.bytes
  | _ => none

/-- The shell of the host leaves the files as they are when it runs `md5sum` with the path behind
it. -/
def Kernel.Quiet (k : Kernel) (path : Bytes) : Prop := ∀ t, (runLine k (md5Line path) t).2 = t

/-- The line for the shell and what it prints fit their buffers of 512 bytes. -/
def Md5Fits (k : Kernel) (t : FileTree) (path : Bytes) : Prop :=
  (md5Line path).length < md5BufSize ∧
    ((runLine k (md5Line path) t).1.length < md5BufSize ∨
      0 ∈ (runLine k (md5Line path) t).1.take md5BufSize)

theorem lex_md5Line (path : Bytes) : Shell.lex .bare none (md5Line path) =
      (Shell.lex .bare none path).map (Shell.literal (ascii "md5sum") :: ·) := by
  have hline : md5Line path = ascii "md5sum" ++ 32 :: path := by
    have h : ascii "md5sum " = ascii "md5sum" ++ [32] := by decide
    rfl
  rfl

/-- The line of `md5sum`, as the shell reads it. -/
theorem runLine_md5Line (k : Kernel) (path : Bytes) (t : FileTree) : runLine k (md5Line path) t =
      match md5Operand path with
      | some arg => (md5sum k t arg, t)
      | none => k.shell (md5Line path) t := by
  have hrm : ascii "md5sum" ≠ ascii "rm" := by decide
  have hpattern : Shell.isPattern (Shell.literal (ascii "md5sum")) = false := by decide
  unfold runLine md5Operand
  rw [lex_md5Line]
  rcases Shell.lex .bare none path with - | (- | ⟨w, - | ⟨w', ws⟩⟩)
  · rfl
  · simp [hpattern, runCommand, hrm, Shell.bytes_literal]
  · cases hw : Shell.isPattern w with
    | true => simp [hw]
    | false =>
      by_cases hdash : w.bytes.head? = some 45
      · simp [hw, hpattern, runCommand, hrm, Shell.bytes_literal, hdash]
      · simp [hw, hpattern, runCommand, hrm, Shell.bytes_literal, hdash]
  · simp only [map_some]
    split_ifs
    · rfl
    · simp [runCommand, hrm, Shell.bytes_literal]

theorem exec_shellExecute (k : Kernel) (line : Bytes) (w : World) : exec k (shellExecute line) w =
      if md5BufSize ≤ (runLine k line w.tree).1.length ∧
      0 ∉ (runLine k line w.tree).1.take md5BufSize then none
      else some (cstr (runLine k line w.tree).1, { w with tree := (runLine k line w.tree).2 }) := by
  rw [shellExecute, exec_popen_bind]
  split_ifs <;> rfl

theorem md5sum_eq (k : Kernel) (hres : t.resolve arg = some q) :
    md5sum k t arg = (readFile t q).elim [] fun bytes =>
      k.md5 bytes ++ ascii "  " ++ arg ++ [10] := by
  rcases hnode : t.node q with - | - | bytes <;> simp [md5sum, hres, hnode, readFile]

theorem length_md5sum (k : Kernel) {bytes : Bytes}
    (hres : t.resolve arg = some q) (hread : readFile t q = some bytes) :
    (md5sum k t arg).length = arg.length + 35 := by
  have hblanks : (ascii "  ").length = 2 := by decide
  simp only [md5sum_eq k hres, hread, elim_some, length_append, k.md5_length, hblanks,
    length_singleton]
  omega

theorem length_md5sum_le (k : Kernel) (t : FileTree) (arg : Bytes) :
    (md5sum k t arg).length ≤ arg.length + 35 := by
  cases hres : t.resolve arg with
  | none => simp [md5sum, hres]
  | some q =>
    cases hread : readFile t q with
    | none => simp [md5sum_eq k hres, hread]
    | some bytes => exact (length_md5sum k hres hread).le

theorem Kernel.quiet_of_operand (k : Kernel) (h : md5Operand path = some arg) : k.Quiet path := by
  intro t
  rw [runLine_md5Line, h]

theorem md5Fits_of_operand (k : Kernel) (t : FileTree) (hline : (md5Line path).length < md5BufSize)
    (h : md5Operand path = some arg) (harg : arg.length + 35 < md5BufSize) : Md5Fits k t path := by
  refine ⟨hline, .inl ?_⟩
  rw [runLine_md5Line, h]
  exact lt_of_le_of_lt (length_md5sum_le k t arg) harg

/-- A quiet command returns exactly if its output fits in the buffer. -/
theorem exec_shellExecute_md5Line {k : Kernel} {w : World} (hquiet : k.Quiet path)
    (hline : (md5Line path).length < md5BufSize) :
    (Md5Fits k w.tree path → ∃ out, exec k (shellExecute (md5Line path)) w = some (out, w)) ∧
    (¬ Md5Fits k w.tree path → exec k (shellExecute (md5Line path)) w = none) := by
  rw [exec_shellExecute, hquiet w.tree]
  constructor
  · rintro ⟨-, hfits⟩
    rw [if_neg]
    · exact ⟨_, rfl⟩
    · rintro ⟨hlong, hzero⟩
      exact hfits.elim (Nat.not_lt.mpr hlong) hzero
  · intro hnot
    rw [if_pos]
    refine ⟨?_, fun hzero => hnot ⟨hline, .inr hzero⟩⟩
    exact Nat.not_lt.mp fun hshort => hnot ⟨hline, .inl hshort⟩

def download (bucket object : Bytes) : GetRequest := { bucket, object }

def existing (t : FileTree) (path : Bytes) : Option Path :=
  (t.resolve path).filter fun p => (t.node p).isSome

def served (k : Kernel) (t : FileTree) (path : Bytes) : Response :=
  match existing t path with
  | none => .error (-Err.notFound)
  | some p =>
    match readFile t p with
    | some bytes => .ok 0 none bytes.length bytes
    | none => .ok 0 none (k.dirSize p) []

theorem existing_eq_some : existing t path = some p ↔ t.resolve path = some p ∧
    (t.node p).isSome := by
  simp [existing, filter_eq_some_iff]

theorem openTree_rdonly (t : FileTree) (path : Bytes) :
    openTree t path .rdonly = (existing t path).map fun p => (p, t) := by
  unfold openTree existing
  cases t.resolve path with
  | none => rfl
  | some p => cases hnode : t.node p <;> simp [hnode]

theorem statSize_eq (k : Kernel) (h : existing t path = some p) :
    statSize k t path = some (match readFile t p with
      | some bytes => bytes.length
      | none => k.dirSize p) := by
  obtain ⟨hres, hsome⟩ := existing_eq_some.mp h
  rcases hnode : t.node p with - | - | bytes
  · simp [hnode] at hsome
  · simp [statSize, hres, hnode, readFile]
  · simp [statSize, hres, hnode, readFile]

def contentOf (t : FileTree) (path : Bytes) : Option Bytes :=
  (existing t path).map fun p => (readFile t p).getD []

theorem contentOf_eq_some {path body : Bytes} :
    contentOf t path = some body ↔ ∃ p, existing t path = some p ∧
    (readFile t p).getD [] = body := by
  simp [contentOf, map_eq_some_iff]

theorem contentOf_of_resolve (hres : t.resolve path = some p) :
    contentOf t path = if t.node p = some .dir then some [] else readFile t p := by
  rcases hnode : t.node p with - | - | bytes <;> simp [contentOf, existing, hres, hnode, readFile]

theorem contentOf_of_file {path bytes : Bytes} (hres : t.resolve path = some p)
    (hread : readFile t p = some bytes) :
    contentOf t path = some bytes := by
  have hfile : t.node p ≠ some .dir := by simp [readFile_eq_some.mp hread]
  rw [contentOf_of_resolve hres, if_neg hfile, hread]

theorem contentOf_of_resolve_none (hres : t.resolve path = none) : contentOf t path = none := by
  simp [contentOf, existing, hres]

/-- A download of a file, by the length of its command line and the answer of `md5sum`. -/
theorem exec_download_of_existing (k : Kernel) {G : Global} {w : World}
    (h : existing w.tree (cstr (G.objectPath bucket object)) = some p) :
    exec k ((download bucket object).execute G) w =
      if md5BufSize ≤ (md5Line (cstr (G.objectPath bucket object))).length then none
      else (exec k (shellExecute (md5Line (cstr (G.objectPath bucket object)))) w).bind fun r =>
        (exec k (sendLoop G p 0 ((statSize k w.tree (cstr (G.objectPath bucket object))).getD 0 + 1)
          ((statSize k w.tree (cstr (G.objectPath bucket object))).getD 0) 0 []) r.2).map fun b =>
            (.ok 0 none ((statSize k w.tree (cstr (G.objectPath bucket object))).getD 0) b.1,
              b.2) := by
  have hinit : (download bucket object).initCommon = .ok {} := rfl
  have hpath : (download bucket object).path G = cstr (G.objectPath bucket object) := rfl
  have hrange : ¬ ((({} : ByteRange).ofs ≠ 0) ∨ (({} : ByteRange).stop ≠ -1)) := by decide
  unfold GetRequest.execute
  simp only [hinit, hpath, exec_statFile_bind, exec_openFile_bind, openTree_rdonly, h, map_some,
    if_neg hrange]
  split_ifs
  · rfl
  · rw [exec_bind]
    congr
    funext r
    rw [exec_bind]
    cases exec k (sendLoop G p 0 _ _ 0 []) r.2 <;> rfl

/-- A download gets past its digest: there is nothing to send, or everything fits its buffer. -/
def Digests (k : Kernel) (t : FileTree) (path : Bytes) : Prop :=
  existing t path = none ∨ Md5Fits k t path

section Answer

variable {k : Kernel} {G : Global} {w : World} (hchunk : 0 < G.rgwMaxChunkSize)
  (hquiet : k.Quiet (cstr (G.objectPath bucket object)))
include hchunk hquiet

theorem exec_download (h : Digests k w.tree (cstr (G.objectPath bucket object))) :
    exec k ((download bucket object).execute G) w =
      some (served k w.tree (cstr (G.objectPath bucket object)), w) := by
  cases hfound : existing w.tree (cstr (G.objectPath bucket object)) with
  | none =>
    have hinit : (download bucket object).initCommon = .ok {} := rfl
    have hpath : (download bucket object).path G = cstr (G.objectPath bucket object) := rfl
    unfold GetRequest.execute
    simp only [hinit, hpath, exec_statFile_bind, exec_openFile_bind, openTree_rdonly, hfound,
      map_none, served]
    rfl
  | some p =>
    have hfits := h.resolve_left (by simp [hfound])
    obtain ⟨out, hout⟩ := (exec_shellExecute_md5Line hquiet hfits.1).1 hfits
    rw [exec_download_of_existing k hfound, if_neg (Nat.not_le.mpr hfits.1), hout, bind_some,
      statSize_eq k hfound]
    cases hread : readFile w.tree p with
    | none =>
      simp only [getD_some, served, hfound, hread]
      rw [exec_sendLoop_unreadable k hchunk hread (Nat.succ_pos _)]
      rfl
    | some bytes =>
      simp only [getD_some, served, hfound, hread]
      have hsend : exec k (sendLoop G p 0 (bytes.length + 1) bytes.length 0 (bytes.take 0)) w =
          some (bytes, w) :=
        exec_sendLoop_file k hchunk hread (Nat.zero_le _) (by simp) (by simp)
      rw [take_zero] at hsend
      rw [hsend]
      rfl

omit hchunk in
theorem exec_download_eq_none (h : ¬ Digests k w.tree (cstr (G.objectPath bucket object))) :
    exec k ((download bucket object).execute G) w = none := by
  rw [Digests, not_or] at h
  obtain ⟨p, hfound⟩ := ne_none_iff_exists'.mp h.1
  rw [exec_download_of_existing k hfound]
  split_ifs with hlong
  · rfl
  · rw [(exec_shellExecute_md5Line hquiet (Nat.not_le.mp hlong)).2 h.2]
    rfl

end Answer

def Response.body : Response → Option Bytes
  | .error _ => none
  | .ok _ _ _ body => some body

/-- What a download answers: a body, or an error. Nothing if it is undefined. -/
def returned (k : Kernel) (G : Global) (bucket object : Bytes) (w : World) :
    Option (Option Bytes) :=
  (exec k ((download bucket object).execute G) w).map fun r => r.1.body

theorem returned_eq_some {k : Kernel} {G : Global} {w : World} (hchunk : 0 < G.rgwMaxChunkSize)
    (hquiet : k.Quiet (cstr (G.objectPath bucket object))) {content : Option Bytes} :
    returned k G bucket object w = some content ↔
    Digests k w.tree (cstr (G.objectPath bucket object)) ∧
      contentOf w.tree (cstr (G.objectPath bucket object)) = content := by
  by_cases h : Digests k w.tree (cstr (G.objectPath bucket object))
  · have hbody : (served k w.tree (cstr (G.objectPath bucket object))).body =
        contentOf w.tree (cstr (G.objectPath bucket object)) := by
      cases hfound : existing w.tree (cstr (G.objectPath bucket object)) with
      | none => simp [served, contentOf, hfound, Response.body]
      | some p => cases hread : readFile w.tree p <;> simp [served, contentOf, hfound, hread,
        Response.body]
    simp [returned, exec_download hchunk hquiet h, h, hbody]
  · simp [returned, exec_download_eq_none hquiet h, h]

end RadosGateway
