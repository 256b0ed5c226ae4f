import RadosGateway.Base.Proc

/-!
# Programs seen from one thread

A call changes what belongs to its thread in a known way, and is answered in any way that this part
of the state allows: everything else may be changed by other threads between two calls. -/

namespace Proc

variable {C : Type} {A : C → Type} {α β σ τ : Type}

inductive Reach (allows : (c : C) → τ → A c → Prop) (next : C → τ → τ) :
    Proc C A α → τ → Proc C A α → τ → Prop
  | refl (p : Proc C A α) (t : τ) : Reach allows next p t p t
  | call {c : C} {k : A c → Proc C A α} {t t' : τ} {a : A c} {q : Proc C A α}
      (hanswer : allows c t a) (hrest : Reach allows next (k a) (next c t) q t') :
      Reach allows next (call c k) t q t'

def Guarded (allows : (c : C) → τ → A c → Prop) (next : C → τ → τ) (permits : C → τ → Prop) :
    Proc C A α → τ → (α → τ → Prop) → Prop
  | done a, t, post => post a t
  | call c k, t, post =>
    permits c t ∧ ∀ a, allows c t a → (k a).Guarded allows next permits (next c t) post
  | undef, _, _ => True

def Only (P : C → Prop) : Proc C A α → Prop
  | done _ => True
  | call c k => P c ∧ ∀ a, (k a).Only P
  | undef => True

variable {allows : (c : C) → τ → A c → Prop} {next : C → τ → τ} {permits : C → τ → Prop}
  {P : C → Prop} {p : Proc C A α} {f : α → Proc C A β} {t t' : τ}

theorem guarded_iff_forall_reach {post : α → τ → Prop} : p.Guarded allows next permits t post ↔
      ∀ q t', Reach allows next p t q t' → (∀ c k, q = call c k → permits c t') ∧ ∀ a, q = done a →
      post a t' := by
  constructor
  · intro hp q t' hreach
    induction hreach with
    | refl p t =>
      constructor
      · rintro c k rfl
        exact hp.1
      · rintro a rfl
        exact hp
    | call hanswer hrest ih => exact ih (hp.2 _ hanswer)
  · intro h
    induction p generalizing t with
    | done a => exact (h _ t (.refl _ t)).2 a rfl
    | call c k ih =>
      refine ⟨(h _ t (.refl _ t)).1 c k rfl, fun a ha => ih a fun q t' hreach => ?_⟩
      exact h q t' (.call ha hreach)
    | undef => trivial

theorem guarded_bind {post : β → τ → Prop} : (p >>= f).Guarded allows next permits t post ↔
      p.Guarded allows next permits t fun a t' => (f a).Guarded allows next permits t' post := by
  induction p generalizing t with
  | done a => rfl
  | call c k ih => exact and_congr_right fun _ => forall₂_congr fun a _ => ih a
  | undef => rfl

theorem Guarded.mono {post post' : α → τ → Prop} (hp : p.Guarded allows next permits t post)
    (hpost : ∀ a t, post a t → post' a t) : p.Guarded allows next permits t post' := by
  induction p generalizing t with
  | done a => exact hpost a t hp
  | call c k ih => exact ⟨hp.1, fun a ha => ih a (hp.2 a ha)⟩
  | undef => trivial

theorem Only.bind (hp : p.Only P) (hf : ∀ a, (f a).Only P) : (p >>= f).Only P := by
  induction p with
  | done a => exact hf a
  | call c k ih => exact ⟨hp.1, fun a => ih a (hp.2 a)⟩
  | undef => trivial

theorem Only.guarded (hp : p.Only P) (hcalls : ∀ c, P c → permits c t ∧ next c t = t) :
    p.Guarded allows next permits t fun _ t' => t' = t := by
  induction p with
  | done a => rfl
  | call c k ih =>
    obtain ⟨hpermits, hnext⟩ := hcalls c hp.1
    refine ⟨hpermits, fun a _ => ?_⟩
    rw [hnext]
    exact ih a (hp.2 a)
  | undef => trivial

end Proc
