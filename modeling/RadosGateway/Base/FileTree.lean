import RadosGateway.Base.Path

/-!
# File trees

A file system without links: every place holds a directory, a file with its bytes, or nothing. The
tree carries two facts: the root is a directory, and whatever exists lies in a directory. An
operation whose precondition fails leaves the tree as it is.
-/

namespace Posix

open Text List

inductive Node where
  | dir
  | file (bytes : Bytes)
  deriving DecidableEq

structure FileTree where
  node : Path → Option Node
  places : Finset Path
  mem_places : ∀ p, p ∈ places ↔ (node p).isSome
  root : node [] = some .dir
  parent : ∀ {c p}, (node (c :: p)).isSome → node p = some .dir

namespace FileTree

variable {t u : FileTree} {p q : Path}

@[ext]
theorem ext (h : ∀ p, t.node p = u.node p) : t = u := by
  obtain ⟨tnode, tplaces, tmem, _, _⟩ := t
  obtain ⟨unode, uplaces, umem, _, _⟩ := u
  obtain rfl : tnode = unode := funext h
  obtain rfl : tplaces = uplaces := by
    ext p
    rw [tmem, umem]
  rfl

def empty : FileTree where
  node p := if p = [] then some .dir else none
  places := {[]}
  mem_places p := by by_cases h : p = [] <;> simp [h]
  root := rfl
  parent := by simp

def holdsFile (t : FileTree) : Path → Bool
  | [] => false
  | c :: p => t.node p = some .dir && t.node (c :: p) ≠ some .dir

def writeFile (t : FileTree) (p : Path) (bytes : Bytes) : FileTree :=
  if h : t.holdsFile p then
    { node := fun q => if q = p then some (.file bytes) else t.node q
      places := insert p t.places
      mem_places := by
        intro q
        by_cases hq : q = p <;> simp [hq, t.mem_places]
      root := by
        have hp : [] ≠ p := by rintro rfl; simp [holdsFile] at h
        simp [hp, t.root]
      parent := by
        intro c q hcq
        cases p with
        | nil => simp [holdsFile] at h
        | cons d p =>
          simp only [holdsFile, Bool.and_eq_true, decide_eq_true_eq] at h
          have hq : t.node q = some .dir := by
            by_cases heq : c :: q = d :: p
            · obtain ⟨rfl, rfl⟩ := List.cons.inj heq
              exact h.1
            · exact t.parent (by simpa [heq] using hcq)
          have hne : q ≠ d :: p := by rintro rfl; exact h.2 hq
          simpa [hne] using hq }
  else t

def mkdir (t : FileTree) (p : Path) : FileTree :=
  if h : t.holdsFile p ∧ t.node p = none then
    { node := fun q => if q = p then some .dir else t.node q
      places := insert p t.places
      mem_places := by
        intro q
        by_cases hq : q = p <;> simp [hq, t.mem_places]
      root := by
        by_cases hp : [] = p <;> simp [hp, t.root]
      parent := by
        intro c q hcq
        by_cases hq : q = p
        · simp [hq]
        · rw [if_neg hq]
          by_cases heq : c :: q = p
          · subst heq
            simp only [holdsFile, Bool.and_eq_true, decide_eq_true_eq] at h
            exact h.1.1
          · exact t.parent (by simpa [heq] using hcq) }
  else t

def removeTree (t : FileTree) (p : Path) : FileTree where
  node q := if p ≠ [] ∧ p <:+ q then none else t.node q
  places := t.places.filter fun q => ¬ (p ≠ [] ∧ p <:+ q)
  mem_places q := by
    by_cases h : p ≠ [] ∧ p <:+ q
    · simp [h]
    · simp only [Finset.mem_filter, t.mem_places, h, not_false_eq_true, and_true, if_false]
  root := by
    have h : ¬ (p ≠ [] ∧ p <:+ []) := by simp
    rw [if_neg h, t.root]
  parent := by
    intro c q hcq
    by_cases h : p ≠ [] ∧ p <:+ c :: q
    · simp [h] at hcq
    · have hq : ¬ (p ≠ [] ∧ p <:+ q) := fun hq => h ⟨hq.1, hq.2.trans (suffix_cons c q)⟩
      rw [if_neg h] at hcq
      rw [if_neg hq, t.parent hcq]

def relocate (p q r : Path) : Path := r.take (r.length - p.length) ++ q

theorem relocate_append (p q inner : Path) : relocate p q (inner ++ p) = inner ++ q := by
  simp [relocate]

/-- Moving `p` to `q` makes sense: there is something at `p`, `q` lies in a directory outside `p`,
and what stands at `q` is a file or an empty directory. -/
def movable (t : FileTree) (p : Path) : Path → Bool
  | [] => false
  | c :: q => (t.node p).isSome && t.node q = some .dir && !p.isSuffixOf (c :: q) &&
      t.places.filter (fun r => (c :: q) <:+ r ∧ r ≠ c :: q) = ∅

def move (t : FileTree) (p q : Path) : FileTree :=
  if h : t.movable p q then
    { node := fun r =>
        if q <:+ r then t.node (relocate q p r) else if p <:+ r then none else t.node r
      places := (t.places.filter fun r => p <:+ r).image (relocate p q) ∪
        t.places.filter fun r => ¬ p <:+ r ∧ ¬ q <:+ r
      mem_places := by
        intro r
        by_cases hq : q <:+ r
        · obtain ⟨inner, rfl⟩ := hq
          have hself : q <:+ inner ++ q := suffix_append inner q
          simp only [hself, if_true, relocate_append, Finset.mem_union, Finset.mem_image,
            Finset.mem_filter, not_true_eq_false, and_false, or_false, t.mem_places]
          constructor
          · rintro ⟨r, ⟨hr, inner', rfl⟩, heq⟩
            rw [relocate_append] at heq
            rwa [← (append_left_inj q).mp heq]
          · intro hr
            exact ⟨inner ++ p, ⟨hr, suffix_append inner p⟩, relocate_append p q inner⟩
        · have himage : r ∉ (t.places.filter fun r => p <:+ r).image (relocate p q) := by
            intro hr
            obtain ⟨r', -, rfl⟩ := Finset.mem_image.mp hr
            exact hq (suffix_append _ q)
          by_cases hp : p <:+ r
          · simp [hq, hp, himage]
          · simp [hq, hp, himage, t.mem_places]
      root := by
        cases q with
        | nil => simp [movable] at h
        | cons c q =>
          simp only [movable, Bool.and_eq_true, Bool.not_eq_true', decide_eq_true_eq] at h
          have hp : ¬ p <:+ [] := by
            intro hp
            rw [suffix_nil.mp hp] at h
            simp at h
          simp [hp, t.root]
      parent := by
        intro c r hcr
        cases q with
        | nil => simp [movable] at h
        | cons d q =>
          simp only [movable, Bool.and_eq_true, Bool.not_eq_true', decide_eq_true_eq] at h
          obtain ⟨⟨⟨-, hdir⟩, houtside⟩, -⟩ := h
          have hpq : ¬ p <:+ d :: q := by
            rw [← isSuffixOf_iff_suffix, houtside]
            simp
          by_cases hq : d :: q <:+ c :: r
          · rcases suffix_cons_iff.mp hq with heq | hqr
            · -- the moved place itself lies in the directory `q`
              obtain ⟨rfl, rfl⟩ := List.cons.inj heq
              have hlen : ¬ d :: q <:+ q := fun hs => by simpa using hs.length_le
              have hp : ¬ p <:+ q := fun hp => hpq (hp.trans (suffix_cons d q))
              simp [hlen, hp, hdir]
            · obtain ⟨inner, rfl⟩ := hqr
              rw [if_pos hq, ← cons_append, relocate_append] at hcr
              rw [if_pos (suffix_append inner _), relocate_append]
              exact t.parent hcr
          · have hqr : ¬ d :: q <:+ r := fun hs => hq (hs.trans (suffix_cons c r))
            rw [if_neg hq] at hcr
            by_cases hp : p <:+ c :: r
            · simp [hp] at hcr
            · have hpr : ¬ p <:+ r := fun hs => hp (hs.trans (suffix_cons c r))
              rw [if_neg hp] at hcr
              rw [if_neg hqr, if_neg hpr, t.parent hcr] }
  else t

theorem parent_of_holdsFile {c : Bytes} (h : t.holdsFile (c :: p)) : t.node p = some .dir := by
  simp only [holdsFile, Bool.and_eq_true, decide_eq_true_eq] at h
  exact h.1

theorem not_dir_of_holdsFile (h : t.holdsFile p) : t.node p ≠ some .dir := by
  cases p with
  | nil => simp [holdsFile] at h
  | cons c p =>
    simp only [holdsFile, Bool.and_eq_true, decide_eq_true_eq] at h
    exact h.2

theorem holdsFile_of_file {bytes : Bytes} (h : t.node p = some (.file bytes)) : t.holdsFile p := by
  cases p with
  | nil => simp [t.root] at h
  | cons c p => simp [holdsFile, h, t.parent (c := c) (p := p) (by simp [h])]

theorem node_writeFile (h : t.holdsFile p) (bytes : Bytes) (q : Path) :
    (t.writeFile p bytes).node q = if q = p then some (.file bytes) else t.node q := by
  simp [writeFile, h]

@[simp]
theorem node_writeFile_self (h : t.holdsFile p) (bytes : Bytes) :
    (t.writeFile p bytes).node p = some (.file bytes) := by
  simp [node_writeFile h]

theorem node_writeFile_of_ne (hne : q ≠ p) (bytes : Bytes) :
    (t.writeFile p bytes).node q = t.node q := by
  by_cases h : t.holdsFile p
  · rw [node_writeFile h, if_neg hne]
  · simp [writeFile, h]

theorem holdsFile_writeFile (h : t.holdsFile p) (bytes : Bytes) :
    (t.writeFile p bytes).holdsFile p := by
  cases p with
  | nil => simp [holdsFile] at h
  | cons c p =>
    have hdir := parent_of_holdsFile h
    have hne : p ≠ c :: p := fun heq => by simpa using congrArg List.length heq
    simp [holdsFile, node_writeFile_self h, node_writeFile_of_ne hne, hdir]

theorem writeFile_writeFile (t : FileTree) (p : Path) (bytes bytes' : Bytes) :
    (t.writeFile p bytes).writeFile p bytes' = t.writeFile p bytes' := by
  by_cases h : t.holdsFile p
  · refine ext fun q => ?_
    by_cases hq : q = p
    · rw [hq, node_writeFile_self (holdsFile_writeFile h bytes), node_writeFile_self h]
    · rw [node_writeFile_of_ne hq, node_writeFile_of_ne hq, node_writeFile_of_ne hq]
  · simp [writeFile, h]

theorem node_removeTree (t : FileTree) (p q : Path) :
    (t.removeTree p).node q = if p ≠ [] ∧ p <:+ q then none else t.node q := rfl

theorem dir_of_suffix (hq : (t.node q).isSome) (hpq : p <:+ q) (hne : q ≠ p) :
    t.node p = some .dir := by
  induction q with
  | nil => exact absurd (suffix_nil.mp hpq).symm hne
  | cons c q ih =>
    rcases suffix_cons_iff.mp hpq with heq | htail
    · exact absurd heq.symm hne
    · have hdir := t.parent hq
      by_cases hqp : q = p
      · rw [← hqp, hdir]
      · exact ih (by simp [hdir]) htail hqp

theorem eq_of_suffix_of_ne_dir (hp : t.node p ≠ some .dir) (hpq : p <:+ q)
    (hq : (t.node q).isSome) : q = p := by
  by_contra hne
  exact hp (dir_of_suffix hq hpq hne)

theorem node_removeTree_of_ne_dir (hp : t.node p ≠ some .dir) (q : Path) :
    (t.removeTree p).node q = if q = p then none else t.node q := by
  have hroot : p ≠ [] := by
    rintro rfl
    exact hp t.root
  by_cases hq : p <:+ q
  · by_cases heq : q = p
    · simp [node_removeTree, hroot, heq]
    · have hnone : t.node q = none := by
        by_contra hsome
        exact heq (eq_of_suffix_of_ne_dir hp hq (Option.isSome_iff_ne_none.mpr hsome))
      simp [node_removeTree, hroot, hq, heq, hnone]
  · have heq : q ≠ p := by
      rintro rfl
      exact hq (suffix_refl _)
    simp [node_removeTree, hq, heq]

theorem node_append_of_ne_dir (hp : t.node p ≠ some .dir) {inner : Path} (hinner : inner ≠ []) :
    t.node (inner ++ p) = none := by
  by_contra hsome
  have heq := eq_of_suffix_of_ne_dir hp (suffix_append inner p)
    (Option.isSome_iff_ne_none.mpr hsome)
  exact hinner (by simpa using heq)

/-- A move where neither end is a directory takes one file and touches nothing else. -/
theorem node_move_of_ne_dir (h : t.movable p q) (hp : t.node p ≠ some .dir)
    (hq : t.node q ≠ some .dir) (r : Path) :
    (t.move p q).node r = if r = q then t.node p else if r = p then none else t.node r := by
  have hnode : (t.move p q).node r =
      if q <:+ r then t.node (relocate q p r) else if p <:+ r then none else t.node r := by
    simp [move, h]
  rw [hnode]
  by_cases hqr : q <:+ r
  · obtain ⟨inner, rfl⟩ := hqr
    rw [if_pos (suffix_append inner q), relocate_append]
    by_cases hinner : inner = []
    · simp [hinner]
    · have hne : inner ++ q ≠ q := fun heq => hinner (by simpa using heq)
      rw [node_append_of_ne_dir hp hinner, if_neg hne, node_append_of_ne_dir hq hinner]
      split_ifs <;> rfl
  · have hne : r ≠ q := by
      rintro rfl
      exact hqr (suffix_refl _)
    rw [if_neg hqr, if_neg hne]
    by_cases hpr : p <:+ r
    · obtain ⟨inner, rfl⟩ := hpr
      by_cases hinner : inner = []
      · simp [hinner]
      · rw [node_append_of_ne_dir hp hinner]
        split_ifs <;> rfl
    · have hne' : r ≠ p := by
        rintro rfl
        exact hpr (suffix_refl _)
      rw [if_neg hpr, if_neg hne']

def nameMax : Nat := 255

def pathMax : Nat := 4096

/-- Read components from the place `cur`. Every place a component is read in must be a directory;
the place the last one leads to need not exist. -/
def walk (t : FileTree) (cur : Path) : List Bytes → Option Path
  | [] => some cur
  | c :: cs =>
    if t.node cur = some .dir ∧ c.length ≤ nameMax then walk t (lexStep cur c) cs else none

def resolve (t : FileTree) (s : Bytes) : Option Path :=
  if s.length < pathMax then walk t [] (components s) else none

def SameDirs (t u : FileTree) : Prop := ∀ p, t.node p = some .dir ↔ u.node p = some .dir

theorem SameDirs.refl (t : FileTree) : SameDirs t t := fun _ => Iff.rfl

theorem SameDirs.trans {v : FileTree} (h : SameDirs t u) (h' : SameDirs u v) : SameDirs t v :=
  fun p => (h p).trans (h' p)

theorem SameDirs.holdsFile_eq (h : SameDirs t u) (p : Path) : t.holdsFile p = u.holdsFile p := by
  cases p with
  | nil => rfl
  | cons c p =>
    simp only [holdsFile]
    rw [Bool.eq_iff_iff]
    simp only [Bool.and_eq_true, decide_eq_true_eq, ne_eq]
    rw [h p, h (c :: p)]

theorem sameDirs_writeFile (t : FileTree) (p : Path) (bytes : Bytes) :
    SameDirs t (t.writeFile p bytes) := by
  intro q
  by_cases h : t.holdsFile p
  · by_cases hq : q = p
    · subst hq
      simp [node_writeFile_self h, not_dir_of_holdsFile h]
    · rw [node_writeFile_of_ne hq]
  · simp [writeFile, h]

theorem sameDirs_removeTree (hp : t.node p ≠ some .dir) : SameDirs t (t.removeTree p) := by
  intro q
  rw [node_removeTree_of_ne_dir hp]
  by_cases hq : q = p
  · simp [hq, hp]
  · rw [if_neg hq]

theorem sameDirs_move (h : t.movable p q) (hp : t.node p ≠ some .dir)
    (hq : t.node q ≠ some .dir) : SameDirs t (t.move p q) := by
  intro r
  rw [node_move_of_ne_dir h hp hq]
  split_ifs with hrq hrp
  · simp [hrq, hp, hq]
  · simp [hrp, hp]
  · exact Iff.rfl

theorem walk_congr (h : SameDirs t u) (cur : Path) (cs : List Bytes) :
    t.walk cur cs = u.walk cur cs := by
  induction cs generalizing cur with
  | nil => rfl
  | cons c cs ih => simp only [walk, h cur, ih]

theorem resolve_congr (h : SameDirs t u) (s : Bytes) : t.resolve s = u.resolve s := by
  unfold resolve
  rw [walk_congr h]

theorem walk_append (cur : Path) (cs ds : List Bytes) :
    t.walk cur (cs ++ ds) = (t.walk cur cs).bind fun p => t.walk p ds := by
  induction cs generalizing cur with
  | nil => rfl
  | cons c cs ih =>
    simp only [cons_append, walk]
    split_ifs
    · exact ih _
    · rfl

def total (w : Path → Node → Nat) (t : FileTree) : Nat := ∑ p ∈ t.places, (t.node p).elim 0 (w p)

section

variable (w : Path → Node → Nat)
include w

theorem total_eq_sum {S : Finset Path} (hS : t.places ⊆ S) : total w t = ∑ p ∈ S,
    (t.node p).elim 0 (w p) := by
  refine Finset.sum_subset hS ?_
  intro p _ hp
  rw [t.mem_places, Option.not_isSome_iff_eq_none] at hp
  rw [hp]
  rfl

theorem total_of_eq_off (h : ∀ q, q ≠ p → u.node q = t.node q) :
    total w u + (t.node p).elim 0 (w p) = total w t + (u.node p).elim 0 (w p) := by
  have hp : p ∈ insert p (t.places ∪ u.places) := Finset.mem_insert_self _ _
  have ht : t.places ⊆ insert p (t.places ∪ u.places) :=
    Finset.subset_union_left.trans (Finset.subset_insert _ _)
  have hu : u.places ⊆ insert p (t.places ∪ u.places) :=
    Finset.subset_union_right.trans (Finset.subset_insert _ _)
  rw [total_eq_sum w ht, total_eq_sum w hu, ← Finset.add_sum_erase _ _ hp,
    ← Finset.add_sum_erase _ _ hp]
  have hrest : ∑ q ∈ (insert p (t.places ∪ u.places)).erase p, (u.node q).elim 0 (w q) =
      ∑ q ∈ (insert p (t.places ∪ u.places)).erase p, (t.node q).elim 0 (w q) :=
    Finset.sum_congr rfl fun q hq => by rw [h q (Finset.ne_of_mem_erase hq)]
  omega

theorem total_writeFile (h : t.holdsFile p) (bytes : Bytes) :
    total w (t.writeFile p bytes) + (t.node p).elim 0 (w p) = total w t + w p (.file bytes) := by
  have hoff := total_of_eq_off (p := p) w fun q hq => node_writeFile_of_ne (t := t) hq bytes
  rwa [node_writeFile_self h] at hoff

theorem total_removeTree_of_file {bytes : Bytes} (hp : t.node p = some (.file bytes)) :
    total w (t.removeTree p) + w p (.file bytes) = total w t := by
  have hdir : t.node p ≠ some .dir := by simp [hp]
  have hoff := total_of_eq_off (p := p) w fun q hq =>
    (node_removeTree_of_ne_dir hdir q).trans (if_neg hq)
  simpa [hp, node_removeTree_of_ne_dir hdir p] using hoff

end

end FileTree

end Posix
