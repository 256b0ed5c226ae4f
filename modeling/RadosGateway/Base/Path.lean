import RadosGateway.Base.Bytes

/-!
# Paths

A path is a list of components separated by slashes, a place the list of directory names that leads
to it. Places are written innermost name first, so that going to the parent is `tail`, and lying at
or below a place is being an extension of it: `p <:+ q`.
-/

namespace Posix

open Text List

abbrev Path := List Bytes

def dot : Bytes := [46]

def dotdot : Bytes := [46, 46]

def components (s : Bytes) : List Bytes := s.splitOn 47

theorem components_append_slash (a b : Bytes) :
    components (a ++ 47 :: b) = components a ++ components b := by
  unfold components List.splitOn
  exact splitOnP_append_cons a b (by decide)

def lexStep (cur : Path) (c : Bytes) : Path :=
  if c = [] ∨ c = dot then cur else if c = dotdot then cur.tail else c :: cur

def lexical (s : Bytes) : Path := (components s).foldl lexStep []

theorem lexical_append_slash (a b : Bytes) :
    lexical (a ++ 47 :: b) = (components b).foldl lexStep (lexical a) := by
  rw [lexical, components_append_slash, foldl_append, lexical]

def reduceStep (state : Nat × Path) (c : Bytes) : Nat × Path :=
  if c = [] ∨ c = dot then state
  else if c = dotdot then
    match state.2 with
    | [] => (state.1 + 1, [])
    | _ :: rest => (state.1, rest)
  else (state.1, c :: state.2)

def reduce (cs : List Bytes) : Nat × Path := cs.foldl reduceStep (0, [])

theorem lexStep_append_drop (cur : Path) (state : Nat × Path) (c : Bytes) :
    lexStep (state.2 ++ cur.drop state.1) c =
      (reduceStep state c).2 ++ cur.drop (reduceStep state c).1 := by
  obtain ⟨ups, names⟩ := state
  unfold lexStep reduceStep
  split_ifs
  · rfl
  · cases names with
    | nil => simp [tail_drop]
    | cons _ rest => rfl
  · rfl

theorem foldl_lexStep_append_drop (cur : Path) (state : Nat × Path) (cs : List Bytes) :
    cs.foldl lexStep (state.2 ++ cur.drop state.1) =
      (cs.foldl reduceStep state).2 ++ cur.drop (cs.foldl reduceStep state).1 := by
  induction cs generalizing state with
  | nil => rfl
  | cons c cs ih =>
    rw [foldl_cons, foldl_cons, lexStep_append_drop]
    exact ih _

theorem foldl_lexStep (cur : Path) (cs : List Bytes) :
    cs.foldl lexStep cur = (reduce cs).2 ++ cur.drop (reduce cs).1 := by
  simpa [reduce] using foldl_lexStep_append_drop cur (0, []) cs

theorem suffix_append_drop_iff (cur names : Path) (ups : Nat) :
    cur <:+ names ++ cur.drop ups ↔ cur.take ups <:+ names := by
  constructor
  · rintro ⟨inner, hinner⟩
    refine ⟨inner, (append_left_inj (cur.drop ups)).mp ?_⟩
    rw [append_assoc, take_append_drop, hinner]
  · rintro ⟨inner, rfl⟩
    exact ⟨inner, by rw [append_assoc, take_append_drop]⟩

end Posix
