import RadosGateway.Names
import RadosGateway.Store

/-!
# Where the path of an object leads

All four object operations hand the same string to the host: root, bucket and key, up to the first
zero byte. Whether it names a place for an object of the bucket is decided by the key alone, if the
bucket has no zero byte in it: by the directories it leaves and the names it enters.
-/

namespace RadosGateway

open Text Posix List

def Global.bucketPlace (G : Global) (bucket : Bytes) : Path := lexical (cstr (G.bucketPath bucket))

def Global.objectPlace (G : Global) (bucket object : Bytes) : Path :=
  lexical (cstr (G.objectPath bucket object))

/-- The key enters names below the directory it starts from, the directories it has left again among
them, and the first one is not `.bucket`. -/
def StaysInside (base : Path) (key : Bytes) : Prop :=
  ∃ inner, (reduce (components key)).2 = inner ++ base.take (reduce (components key)).1 ∧
    inner ≠ [] ∧ inner.getLast? ≠ some Global.procBucketPath

theorem cons_suffix_append_iff (c : Bytes) (inner cur : Path) :
    c :: cur <:+ inner ++ cur ↔ inner.getLast? = some c := by
  constructor
  · rintro ⟨outer, houter⟩
    have hinner : outer ++ [c] = inner := by
      apply (append_left_inj cur).mp
      rw [append_assoc]
      exact houter
    rw [← hinner, getLast?_concat]
  · intro hlast
    obtain ⟨outer, rfl⟩ := getLast?_eq_some_iff.mp hlast
    exact ⟨outer, by simp⟩

theorem objectPlace_append_iff (base inner : Path) :
    ObjectPlace base (inner ++ base) ↔
    inner ≠ [] ∧ inner.getLast? ≠ some Global.procBucketPath := by
  have hbelow : base <:+ inner ++ base := suffix_append inner base
  have hne : inner ++ base ≠ base ↔ inner ≠ [] := by simp
  unfold ObjectPlace
  rw [metaPlace, cons_suffix_append_iff, hne]
  exact and_iff_right hbelow

theorem objectPlace_foldl_iff (base : Path) (key : Bytes) :
    ObjectPlace base ((components key).foldl lexStep base) ↔ StaysInside base key := by
  rw [foldl_lexStep]
  constructor
  · intro h
    obtain ⟨inner, hinner⟩ := (suffix_append_drop_iff _ _ _).mp h.1
    rw [← hinner, append_assoc, take_append_drop, objectPlace_append_iff] at h
    exact ⟨inner, hinner.symm, h⟩
  · rintro ⟨inner, hinner, h⟩
    rw [hinner, append_assoc, take_append_drop, objectPlace_append_iff]
    exact h

/-- The place of an object is one of the bucket's object places exactly when no zero byte cuts the
path off before the key and the key stays inside. -/
theorem objectPlace_iff (G : Global) (bucket object : Bytes) :
    ObjectPlace (G.bucketPlace bucket) (G.objectPlace bucket object) ↔
      0 ∉ G.bucketPath bucket ∧ StaysInside (G.bucketPlace bucket) (cstr object) := by
  unfold Global.objectPlace Global.objectPath
  by_cases hnul : 0 ∈ G.bucketPath bucket
  · rw [cstr_append_of_zero_mem hnul]
    constructor
    · intro h
      exact absurd rfl h.2.1
    · rintro ⟨hnot, -⟩
      exact absurd hnul hnot
  · have hslash : cstr (47 :: object) = 47 :: cstr object := by simp [cstr]
    have hbase : G.bucketPlace bucket = lexical (G.bucketPath bucket) := by
      rw [Global.bucketPlace, cstr_eq_self hnul]
    rw [cstr_append_of_zero_notMem hnul, hslash, lexical_append_slash, ← hbase,
      objectPlace_foldl_iff]
    exact (and_iff_right hnul).symm

/-- An accepted key leaves its bucket; another one names the statistics. -/
theorem not_objectPlace_dotdot : validateBucketName Sample.bucket false = 0 ∧
      (validateObjectName (ascii "../x") = 0 ∧ ¬ ObjectPlace (Sample.G.bucketPlace Sample.bucket)
        (Sample.G.objectPlace Sample.bucket (ascii "../x"))) ∧
          (validateObjectName (ascii ".bucket/stat") = 0 ∧
        ¬ ObjectPlace (Sample.G.bucketPlace Sample.bucket)
          (Sample.G.objectPlace Sample.bucket (ascii ".bucket/stat"))) := by
  refine ⟨by decide, ⟨by decide, by decide⟩, by decide, by decide⟩

end RadosGateway
