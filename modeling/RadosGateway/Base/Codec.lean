import RadosGateway.Base.Bytes

/-!
# Reading bytes through an iterator

An iterator is what lies before it and what is left. A decoder moves it forward and gives a value,
or fails. `Reads d bytes a` says that `d` gives `a` on these bytes, wherever they stand, and stops
right after them: this is what a round trip means, and it composes (`Reads.bind`). -/

namespace Codec

open Text List Option

structure Iter where
  before : Bytes
  rest : Bytes
  deriving DecidableEq

namespace Iter

def buffer (it : Iter) : Bytes := it.before ++ it.rest

def off (it : Iter) : Nat := it.before.length

def remaining (it : Iter) : Nat := it.rest.length

end Iter

abbrev Decoder (α : Type) := StateT Iter Option α

def copy (n : Nat) : Decoder Bytes := fun it =>
  if n ≤ it.rest.length then some (it.rest.take n, ⟨it.before ++ it.rest.take n, it.rest.drop n⟩)
  else none

def fail {α : Type} : Decoder α := fun _ => none

section Rules

variable {α β : Type} {d : Decoder α} {f : α → Decoder β}

def Reads (d : Decoder α) (bytes : Bytes) (a : α) : Prop :=
  ∀ before rest, d ⟨before, bytes ++ rest⟩ = some (a, ⟨before ++ bytes, rest⟩)

def Local (d : Decoder α) : Prop :=
  ∀ it it' a, d it = some (a, it') →
    ∃ used, Reads d used a ∧ it'.before = it.before ++ used ∧ it.rest = used ++ it'.rest

def Keeps (d : Decoder α) : Prop := ∀ it it' a, d it = some (a, it') → it'.buffer = it.buffer

theorem bind_apply (d : Decoder α) (f : α → Decoder β) (it : Iter) :
    (d >>= f) it = (d it).bind fun r => f r.1 r.2 := rfl

theorem bind_of_eq_some {it it' : Iter} {a : α} (h : d it = some (a, it')) :
    (d >>= f) it = f a it' := by
  rw [bind_apply, h]
  rfl

theorem bind_of_eq_none {it : Iter} (h : d it = none) : (d >>= f) it = none := by
  rw [bind_apply, h]
  rfl

theorem reads_pure (a : α) : Reads (pure a) [] a := by
  intro before rest
  rw [append_nil]
  rfl

theorem Reads.bind {bytes bytes' : Bytes} {a : α} {b : β} (h : Reads d bytes a)
    (h' : Reads (f a) bytes' b) : Reads (d >>= f) (bytes ++ bytes') b := by
  intro before rest
  rw [bind_apply, append_assoc, h]
  change f a ⟨before ++ bytes, bytes' ++ rest⟩ = _
  rw [h', append_assoc]

theorem Reads.map {bytes : Bytes} {a : α} (h : Reads d bytes a) (g : α → β) :
    Reads (g <$> d) bytes (g a) := by
  intro before rest
  change (d ⟨before, bytes ++ rest⟩).bind _ = _
  rw [h]
  rfl

theorem reads_copy (bytes : Bytes) : Reads (copy bytes.length) bytes bytes := by
  intro before rest
  simp [copy]

theorem Reads.unique {bytes : Bytes} {a a' : α} (h : Reads d bytes a) (h' : Reads d bytes a') :
    a = a' := by
  have heq := (h [] []).symm.trans (h' [] [])
  exact (Prod.mk.inj (some.inj heq)).1

theorem local_pure (a : α) : Local (pure a : Decoder α) := by
  intro it it' a' h
  cases h
  exact ⟨[], reads_pure _, by simp, by simp⟩

theorem local_fail : Local (fail : Decoder α) := by
  intro it it' a h
  cases h

theorem local_copy (n : Nat) : Local (copy n) := by
  intro it it' a h
  unfold copy at h
  split_ifs at h with hn
  cases h
  have hlength : (it.rest.take n).length = n := length_take_of_le hn
  refine ⟨it.rest.take n, ?_, rfl, (take_append_drop n it.rest).symm⟩
  have hcopy := reads_copy (it.rest.take n)
  rwa [hlength] at hcopy

theorem Local.bind (h : Local d) (h' : ∀ a, Local (f a)) : Local (d >>= f) := by
  intro it it' b hrun
  rw [bind_apply] at hrun
  obtain ⟨⟨a, it₁⟩, hd, hf⟩ := bind_eq_some_iff.mp hrun
  obtain ⟨used, hreads, hbefore, hrest⟩ := h _ _ _ hd
  obtain ⟨used', hreads', hbefore', hrest'⟩ := h' a _ _ _ hf
  refine ⟨used ++ used', hreads.bind hreads', ?_, ?_⟩
  · rw [hbefore', hbefore, append_assoc]
  · rw [hrest, hrest', append_assoc]

theorem Local.map (h : Local d) (g : α → β) : Local (g <$> d) := by
  intro it it' b hrun
  obtain ⟨⟨a, it₁⟩, hd, hg⟩ := bind_eq_some_iff.mp hrun
  cases hg
  obtain ⟨used, hreads, hbefore, hrest⟩ := h _ _ _ hd
  exact ⟨used, hreads.map g, hbefore, hrest⟩

theorem Keeps.bind (h : Keeps d) (h' : ∀ a, Keeps (f a)) : Keeps (d >>= f) := by
  intro it it' b hrun
  rw [bind_apply] at hrun
  obtain ⟨⟨a, it₁⟩, hd, hf⟩ := bind_eq_some_iff.mp hrun
  exact (h' a _ _ _ hf).trans (h _ _ _ hd)

theorem Local.keeps (h : Local d) : Keeps d := by
  intro it it' a hrun
  obtain ⟨used, -, hbefore, hrest⟩ := h _ _ _ hrun
  rw [Iter.buffer, Iter.buffer, hbefore, hrest, append_assoc]

end Rules

def le : Nat → Nat → Bytes
  | 0, _ => []
  | n + 1, v => (v % 256).toUInt8 :: le n (v / 256)

def fromLe : Bytes → Nat
  | [] => 0
  | b :: bytes => b.toNat + 256 * fromLe bytes

@[simp]
theorem length_le (n v : Nat) : (le n v).length = n := by
  induction n generalizing v with
  | zero => rfl
  | succ n ih => simp [le, ih]

theorem fromLe_le (n v : Nat) : fromLe (le n v) = v % 256 ^ n := by
  induction n generalizing v with
  | zero => simp [le, fromLe, Nat.mod_one]
  | succ n ih =>
    have hbyte : (v % 256).toUInt8.toNat = v % 256 := by
      simp [UInt8.toNat_ofNat']
    rw [le, fromLe, ih, hbyte, pow_succ, mul_comm (256 ^ n) 256, Nat.mod_mul]

def decodeLe (n : Nat) : Decoder Nat := fromLe <$> copy n

theorem reads_decodeLe (n v : Nat) : Reads (decodeLe n) (le n v) (v % 256 ^ n) := by
  have hcopy := reads_copy (le n v)
  rw [length_le] at hcopy
  have hmap := hcopy.map fromLe
  rwa [fromLe_le] at hmap

theorem reads_decodeLe_of_lt {n v : Nat} (h : v < 256 ^ n) : Reads (decodeLe n) (le n v) v := by
  have hreads := reads_decodeLe n v
  rwa [Nat.mod_eq_of_lt h] at hreads

theorem length_rest_of_decodeLe {α : Type} {g : Nat → α} {n : Nat} {a : α} {it it' : Iter}
    (h : (g <$> decodeLe n) it = some (a, it')) : it.rest.length = n + it'.rest.length := by
  obtain ⟨⟨v, it₁⟩, hdecode, hmap⟩ := bind_eq_some_iff.mp h
  obtain ⟨-, rfl⟩ := Prod.mk.inj (some.inj hmap)
  obtain ⟨⟨bytes, it₂⟩, hcopy, hfrom⟩ := bind_eq_some_iff.mp hdecode
  obtain ⟨-, rfl⟩ := Prod.mk.inj (some.inj hfrom)
  unfold copy at hcopy
  split_ifs at hcopy with hn
  obtain ⟨-, rfl⟩ := Prod.mk.inj (some.inj hcopy)
  change it.rest.length = n + (it.rest.drop n).length
  rw [length_drop]
  omega

theorem local_decodeLe (n : Nat) : Local (decodeLe n) := (local_copy n).map fromLe

end Codec
