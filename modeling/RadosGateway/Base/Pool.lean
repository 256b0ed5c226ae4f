import RadosGateway.Base.Proc
import RadosGateway.Base.Run

/-!
# Programs that share a state

Several programs take turns on one machine: a scheduler picks one of them, which makes its next
call. A call sees a part that belongs to its program and a shared part. -/

namespace Proc

open List

variable {C : Type} {A : C → Type} {α β ε ι ℓ σ X Y V : Type}

def Keeps (inv : σ → Prop) (view : σ → X) (s s' : σ) : Prop := inv s' ∧ view s' = view s

section Keeps

variable {inv : σ → Prop} {view : σ → X} {s s' s'' : σ}

theorem Keeps.refl (h : inv s) : Keeps inv view s s := ⟨h, rfl⟩

theorem Keeps.trans (h : Keeps inv view s s') (h' : Keeps inv view s' s'') : Keeps inv view s s'' :=
  ⟨h'.1, h'.2.trans h.2⟩

end Keeps

/-- As long as the others keep the invariant and leave `mine` as it is, the program runs without
undefined behaviour, keeps the invariant, leaves `theirs` as it is, and returns as `post` says. -/
def Safe (h : (c : C) → ℓ × σ → A c × (ℓ × σ)) (inv : σ → Prop) (mine : σ → X) (theirs : σ → Y)
    (post : α → σ → Prop) : Proc C A α → ℓ → σ → Prop
  | done a, _, s => ∀ s', Keeps inv mine s s' → post a s'
  | call c k, l, s => ∀ s', Keeps inv mine s s' →
      Keeps inv theirs s' (h c (l, s')).2.2 ∧
        Safe h inv mine theirs post (k (h c (l, s')).1) (h c (l, s')).2.1 (h c (l, s')).2.2
  | undef, _, _ => False

section Safe

variable {h : (c : C) → ℓ × σ → A c × (ℓ × σ)} {inv : σ → Prop} {mine : σ → X} {theirs : σ → Y}
  {post : α → σ → Prop} {post' : β → σ → Prop} {p : Proc C A α} {l : ℓ} {s s' : σ}

theorem Safe.stable (hp : p.Safe h inv mine theirs post l s) (hs : Keeps inv mine s s') :
    p.Safe h inv mine theirs post l s' := by
  cases p with
  | done a =>
    intro s'' hs'
    exact hp s'' (hs.trans hs')
  | call c k =>
    intro s'' hs'
    exact hp s'' (hs.trans hs')
  | undef => exact hp

theorem Safe.post_of_done {a : α} (hp : (done a : Proc C A α).Safe h inv mine theirs post l s)
    (hs : inv s) : post a s :=
  hp s (Keeps.refl hs)

theorem Safe.mono {post₁ : α → σ → Prop} (hp : p.Safe h inv mine theirs post l s)
    (hpost : ∀ a s, post a s → post₁ a s) : p.Safe h inv mine theirs post₁ l s := by
  induction p generalizing l s with
  | done a => exact fun s' hs' => hpost a s' (hp s' hs')
  | call c k ih =>
    intro s' hs'
    obtain ⟨hkeeps, hrest⟩ := hp s' hs'
    exact ⟨hkeeps, ih _ hrest⟩
  | undef => exact hp

theorem Safe.bind {f : α → Proc C A β} (hp : p.Safe h inv mine theirs post l s) (hs : inv s)
    (hf : ∀ a l s, inv s → post a s → (f a).Safe h inv mine theirs post' l s) :
    (p >>= f).Safe h inv mine theirs post' l s := by
  induction p generalizing l s with
  | done a => exact hf a l s hs (hp.post_of_done hs)
  | call c k ih =>
    intro s' hs'
    obtain ⟨hkeeps, hrest⟩ := hp s' hs'
    exact ⟨hkeeps, ih _ hrest hkeeps.1⟩
  | undef => exact hp.elim

theorem Safe.pure {a : α} (hpost : ∀ s', Keeps inv mine s s' → post a s') :
    (Pure.pure a : Proc C A α).Safe h inv mine theirs post l s :=
  hpost

theorem Safe.perform_bind {c : C} {f : A c → Proc C A β}
    (hf : ∀ s', Keeps inv mine s s' → Keeps inv theirs s' (h c (l, s')).2.2 ∧
      (f (h c (l, s')).1).Safe h inv mine theirs post' (h c (l, s')).2.1 (h c (l, s')).2.2) :
    (perform c >>= f).Safe h inv mine theirs post' l s :=
  hf

theorem Safe.run (hp : p.Safe h inv mine theirs post l s) (hs : inv s) :
    ∃ a l' s', p.run h (l, s) = some (a, (l', s')) ∧ Keeps inv theirs s s' ∧ post a s' := by
  induction p generalizing l s with
  | done a => exact ⟨a, l, s, rfl, .refl hs, hp.post_of_done hs⟩
  | call c k ih =>
    obtain ⟨hkeeps, hrest⟩ := hp s (.refl hs)
    obtain ⟨a, l', s', hrun, hkeeps', hpost⟩ := ih _ hrest hkeeps.1
    exact ⟨a, l', s', hrun, hkeeps.trans hkeeps', hpost⟩
  | undef => exact hp.elim

end Safe

structure Task (C : Type) (A : C → Type) (ε α : Type) where
  before : Proc C A ε
  critical : ε → Option (Proc C A Unit)
  after : ε → Proc C A α

def Task.program (T : Task C A ε α) : Proc C A α := do
  let e ← T.before
  match T.critical e with
  | none => T.after e
  | some p =>
    p
    T.after e

inductive Thread (C : Type) (A : C → Type) (ε α : Type) where
  | before (p : Proc C A ε)
  | critical (e : ε) (p : Proc C A Unit)
  | after (p : Proc C A α)

namespace Thread

def inside : Thread C A ε α → Bool
  | critical _ _ => true
  | _ => false

def isAfter : Thread C A ε α → Bool
  | after _ => true
  | _ => false

def entering (T : Task C A ε α) : Thread C A ε α → Bool
  | before (done e) => (T.critical e).isSome
  | _ => false

def returned : Thread C A ε α → Option α
  | after (done a) => some a
  | _ => none

def step (h : (c : C) → ℓ × σ → A c × (ℓ × σ)) (T : Task C A ε α) :
    Thread C A ε α → ℓ × σ → Option (Thread C A ε α × (ℓ × σ))
  | before (done e), x =>
    match T.critical e with
    | none => some (after (T.after e), x)
    | some p => some (critical e p, x)
  | before (call c k), x => some (before (k (h c x).1), (h c x).2)
  | critical e (done _), x => some (after (T.after e), x)
  | critical e (call c k), x => some (critical e (k (h c x).1), (h c x).2)
  | after (call c k), x => some (after (k (h c x).1), (h c x).2)
  | _, _ => none

end Thread

structure Pool (C : Type) (A : C → Type) (ε α ι ℓ σ : Type) where
  shared : σ
  locals : ι → ℓ
  threads : ι → Thread C A ε α

namespace Pool

def start (T : ι → Task C A ε α) (l : ι → ℓ) (s : σ) : Pool C A ε α ι ℓ σ :=
  ⟨s, l, fun i => .before (T i).before⟩

def Exclusive (T : ι → Task C A ε α) (P : Pool C A ε α ι ℓ σ) (i : ι) : Prop :=
  (P.threads i).entering (T i) = true → ∀ j, (P.threads j).inside = false

instance [Fintype ι] (T : ι → Task C A ε α) (P : Pool C A ε α ι ℓ σ) (i : ι) :
    Decidable (P.Exclusive T i) :=
  inferInstanceAs (Decidable ((P.threads i).entering (T i) = true →
    ∀ j, (P.threads j).inside = false))

variable [DecidableEq ι]

def set (P : Pool C A ε α ι ℓ σ) (i : ι) (r : Thread C A ε α × (ℓ × σ)) : Pool C A ε α ι ℓ σ :=
  ⟨r.2.2, Function.update P.locals i r.2.1, Function.update P.threads i r.1⟩

def step (h : (c : C) → ℓ × σ → A c × (ℓ × σ)) (T : ι → Task C A ε α) (P : Pool C A ε α ι ℓ σ)
    (i : ι) : Option (Pool C A ε α ι ℓ σ) :=
  ((P.threads i).step h (T i) (P.locals i, P.shared)).map (P.set i)

section Set

variable (P : Pool C A ε α ι ℓ σ) (r : Thread C A ε α × (ℓ × σ)) {i j : ι}

theorem threads_set_self : (P.set i r).threads i = r.1 := Function.update_self ..

theorem threads_set_of_ne (hj : j ≠ i) : (P.set i r).threads j = P.threads j :=
  Function.update_of_ne hj ..

theorem locals_set_self : (P.set i r).locals i = r.2.1 := Function.update_self ..

theorem locals_set_of_ne (hj : j ≠ i) : (P.set i r).locals j = P.locals j :=
  Function.update_of_ne hj ..

end Set

end Pool

/-- Outside of its critical section a task depends on its private view only and leaves the cell and
the other views alone; in it, it depends on the cell only, leaves all views alone and applies its
effect to the cell. -/
structure Disciplined (h : (c : C) → ℓ × σ → A c × (ℓ × σ)) (T : ι → Task C A ε α)
    (inv : σ → Prop) (priv : ι → σ → X) (cell : σ → Y) (value : Y → Option V)
    (effect : ι → V → V) (good : ι → ε → Prop) (s₀ : σ) : Prop where
  before : ∀ i l s, inv s → priv i s = priv i s₀ →
    (T i).before.Safe h inv (priv i) (fun s => (cell s, fun j : {j // j ≠ i} => priv j s))
      (fun e _ => good i e) l s
  skip : ∀ i e, good i e → (T i).critical e = none → ∀ v, effect i v = v
  critical : ∀ i e p l s v, good i e → (T i).critical e = some p → inv s → value (cell s) = some v →
    p.Safe h inv cell (fun s j => priv j s) (fun _ s => value (cell s) = some (effect i v)) l s
  after : ∀ i e l s, inv s → ((T i).after e).Safe h inv (fun _ => ())
    (fun s => (cell s, fun j => priv j s)) (fun _ _ => True) l s

section Serial

variable {h : (c : C) → ℓ × σ → A c × (ℓ × σ)} {T : ι → Task C A ε α} {inv : σ → Prop}
  {priv : ι → σ → X} {cell : σ → Y} {value : Y → Option V} {effect : ι → V → V}
  {good : ι → ε → Prop} {s₀ : σ}

/-- One program alone: it ends, keeps the invariant, and has its effect on the shared value. -/
theorem Disciplined.run_program (D : Disciplined h T inv priv cell value effect good s₀) {i : ι}
    {l : ℓ} {s : σ} {v : V} (hs : inv s) (hpriv : priv i s = priv i s₀)
    (hv : value (cell s) = some v) :
    ∃ a l' s', (T i).program.run h (l, s) = some (a, (l', s')) ∧ inv s' ∧
      value (cell s') = some (effect i v) ∧ ∀ j, j ≠ i → priv j s' = priv j s := by
  obtain ⟨e, l₁, s₁, hbefore, ⟨hs₁, hview₁⟩, hgood⟩ := (D.before i l s hs hpriv).run hs
  obtain ⟨hcell₁, hpriv₁⟩ := Prod.mk.inj hview₁
  unfold Task.program
  rw [run_bind_of_some h hbefore]
  cases hcritical : (T i).critical e with
  | none =>
    obtain ⟨a, l₂, s₂, hafter, ⟨hs₂, hview₂⟩, -⟩ := (D.after i e l₁ s₁ hs₁).run hs₁
    obtain ⟨hcell₂, hpriv₂⟩ := Prod.mk.inj hview₂
    refine ⟨a, l₂, s₂, hafter, hs₂, ?_, ?_⟩
    · rw [hcell₂, hcell₁, hv, D.skip i e hgood hcritical]
    · intro j hj
      exact (congrFun hpriv₂ j).trans (congrFun hpriv₁ ⟨j, hj⟩)
  | some p =>
    have hv₁ : value (cell s₁) = some v := by rw [hcell₁, hv]
    obtain ⟨u, l₂, s₂, hsection, ⟨hs₂, hview₂⟩, hv₂⟩ :=
      (D.critical i e p l₁ s₁ v hgood hcritical hs₁ hv₁).run hs₁
    obtain ⟨a, l₃, s₃, hafter, ⟨hs₃, hview₃⟩, -⟩ := (D.after i e l₂ s₂ hs₂).run hs₂
    obtain ⟨hcell₃, hpriv₃⟩ := Prod.mk.inj hview₃
    refine ⟨a, l₃, s₃, ?_, hs₃, ?_, ?_⟩
    · rw [run_bind_of_some h hsection, hafter]
    · rw [hcell₃, hv₂]
    · intro j hj
      exact (congrFun hpriv₃ j).trans ((congrFun hview₂ j).trans (congrFun hpriv₁ ⟨j, hj⟩))

/-- Programs one after another have their effects in that order. -/
theorem Disciplined.run_all (D : Disciplined h T inv priv cell value effect good s₀)
    {order : List ι} {l : ℓ} {s : σ} {v : V} (hnodup : order.Nodup) (hs : inv s)
    (hpriv : ∀ i ∈ order, priv i s = priv i s₀) (hv : value (cell s) = some v) :
    ∃ x, order.foldlM (fun x i => ((T i).program.run h x).map Prod.snd) (l, s) = some x ∧
      value (cell x.2) = some (order.foldl (fun v i => effect i v) v) := by
  induction order generalizing l s v with
  | nil => exact ⟨(l, s), rfl, hv⟩
  | cons i order ih =>
    obtain ⟨hi, hnodup⟩ := nodup_cons.mp hnodup
    obtain ⟨hprivi, hpriv⟩ := forall_mem_cons.mp hpriv
    obtain ⟨a, l', s', hrun, hs', hv', hothers⟩ := D.run_program (l := l) hs hprivi hv
    have hpriv' : ∀ j ∈ order, priv j s' = priv j s₀ := by
      intro j hj
      have hne : j ≠ i := by
        rintro rfl
        exact hi hj
      rw [hothers j hne, hpriv j hj]
    obtain ⟨x, hx, hvalue⟩ := ih (l := l') hnodup hs' hpriv' hv'
    refine ⟨x, ?_, hvalue⟩
    rw [foldlM_cons, hrun]
    exact hx

def Thread.Sound (h : (c : C) → ℓ × σ → A c × (ℓ × σ)) (inv : σ → Prop) (priv : ι → σ → X)
    (cell : σ → Y) (value : Y → Option V) (effect : ι → V → V) (good : ι → ε → Prop) (i : ι) (v : V)
    (l : ℓ) (s : σ) : Thread C A ε α → Prop
  | before p => p.Safe h inv (priv i) (fun s => (cell s, fun j : {j // j ≠ i} => priv j s))
      (fun e _ => good i e) l s
  | critical _ p => p.Safe h inv cell (fun s j => priv j s)
      (fun _ s => value (cell s) = some (effect i v)) l s
  | after p => p.Safe h inv (fun _ => ()) (fun s => (cell s, fun j => priv j s))
      (fun _ _ => True) l s

structure Pool.Sound (h : (c : C) → ℓ × σ → A c × (ℓ × σ)) (inv : σ → Prop) (priv : ι → σ → X)
    (cell : σ → Y) (value : Y → Option V) (effect : ι → V → V) (good : ι → ε → Prop) (v₀ : V)
    (log : List ι) (P : Pool C A ε α ι ℓ σ) : Prop where
  holds : inv P.shared
  thread : ∀ i, (P.threads i).Sound h inv priv cell value effect good i
    (log.foldl (fun v i => effect i v) v₀) (P.locals i) P.shared
  mem_log : ∀ i, i ∈ log ↔ (P.threads i).isAfter = true
  nodup : log.Nodup
  alone : ∀ i j, (P.threads i).inside = true → (P.threads j).inside = true → i = j
  value_eq : (∀ i, (P.threads i).inside = false) →
    value (cell P.shared) = some (log.foldl (fun v i => effect i v) v₀)

variable {i j : ι} {v v' : V} {l : ℓ} {s s' : σ} {th : Thread C A ε α}

theorem Thread.Sound.stable (hth : th.Sound h inv priv cell value effect good j v l s)
    (hs' : inv s')
    (hpriv : priv j s' = priv j s) (hcell : th.inside = true → cell s' = cell s) :
    th.Sound h inv priv cell value effect good j v l s' := by
  cases th with
  | before p => exact Safe.stable hth ⟨hs', hpriv⟩
  | critical e p => exact Safe.stable hth ⟨hs', hcell rfl⟩
  | after p => exact Safe.stable hth ⟨hs', rfl⟩

theorem Thread.Sound.of_not_inside (hth : th.Sound h inv priv cell value effect good j v l s)
    (hinside : th.inside = false) : th.Sound h inv priv cell value effect good j v' l s := by
  cases th with
  | before p => exact hth
  | critical e p => cases hinside
  | after p => exact hth

variable {P P' : Pool C A ε α ι ℓ σ} {v₀ : V} {log : List ι}

theorem Pool.Sound.start (D : Disciplined h T inv priv cell value effect good s₀) (l : ι → ℓ)
    (hs₀ : inv s₀) (hv₀ : value (cell s₀) = some v₀) :
    (Pool.start T l s₀).Sound h inv priv cell value effect good v₀ [] where
  holds := hs₀
  thread := fun i => D.before i (l i) s₀ hs₀ rfl
  mem_log := by simp [Pool.start, Thread.isAfter]
  nodup := nodup_nil
  alone := by simp [Pool.start, Thread.inside]
  value_eq := fun _ => hv₀

variable [DecidableEq ι]

section

variable (hP : P.Sound h inv priv cell value effect good v₀ log)
include hP

/-- A call that stays on its side of the critical section. -/
theorem Pool.Sound.call (hs' : inv s')
    (hth : th.Sound h inv priv cell value effect good i (log.foldl (fun v i => effect i v) v₀) l s')
    (hinside : th.inside = (P.threads i).inside) (hafter : th.isAfter = (P.threads i).isAfter)
    (hpriv : ∀ j, j ≠ i → priv j s' = priv j P.shared)
    (hcell : (P.threads i).inside = false → cell s' = cell P.shared) :
    (P.set i (th, (l, s'))).Sound h inv priv cell value effect good v₀ log := by
  have hsame : ∀ j, ((P.set i (th, (l, s'))).threads j).inside = (P.threads j).inside := by
    intro j
    by_cases hj : j = i
    · rw [hj, P.threads_set_self, hinside]
    · rw [P.threads_set_of_ne _ hj]
  refine ⟨hs', ?_, ?_, hP.nodup, ?_, ?_⟩
  · intro j
    by_cases hj : j = i
    · rw [hj, P.threads_set_self, P.locals_set_self]
      exact hth
    · rw [P.threads_set_of_ne _ hj, P.locals_set_of_ne _ hj]
      refine (hP.thread j).stable hs' (hpriv j hj) fun hjin => hcell ?_
      cases hiin : (P.threads i).inside with
      | false => rfl
      | true => exact absurd (hP.alone j i hjin hiin) hj
  · intro j
    by_cases hj : j = i
    · rw [hj, P.threads_set_self, hafter]
      exact hP.mem_log i
    · rw [P.threads_set_of_ne _ hj]
      exact hP.mem_log j
  · intro a b ha hb
    rw [hsame] at ha hb
    exact hP.alone a b ha hb
  · intro hnone
    have hfree : ∀ j, (P.threads j).inside = false := fun j => (hsame j).symm.trans (hnone j)
    change value (cell s') = _
    rw [hcell (hfree i)]
    exact hP.value_eq hfree

/-- A thread enters where no other thread is inside. -/
theorem Pool.Sound.enter {p : Proc C A Unit} {e : ε} (hfree : ∀ j, (P.threads j).inside = false)
    (hnew : (P.threads i).isAfter = false)
    (hth : (Thread.critical e p : Thread C A ε α).Sound h inv priv cell value effect good i
      (log.foldl (fun v i => effect i v) v₀) (P.locals i) P.shared) :
    (P.set i (.critical e p, (P.locals i, P.shared))).Sound h inv priv cell value effect good v₀
      log := by
  refine ⟨hP.holds, ?_, ?_, hP.nodup, ?_, ?_⟩
  · intro j
    by_cases hj : j = i
    · rw [hj, P.threads_set_self, P.locals_set_self]
      exact hth
    · rw [P.threads_set_of_ne _ hj, P.locals_set_of_ne _ hj]
      exact hP.thread j
  · intro j
    by_cases hj : j = i
    · rw [hj, P.threads_set_self, hP.mem_log, hnew]
      rfl
    · rw [P.threads_set_of_ne _ hj]
      exact hP.mem_log j
  · have honly : ∀ j, ((P.set i (.critical e p, (P.locals i, P.shared))).threads j).inside = true →
        j = i := by
      intro j hjin
      by_contra hj
      rw [P.threads_set_of_ne _ hj, hfree j] at hjin
      cases hjin
    intro a b ha hb
    rw [honly a ha, honly b hb]
  · intro hnone
    have hi := hnone i
    rw [P.threads_set_self] at hi
    cases hi

/-- A thread leaves, and its effect is appended to the log. -/
theorem Pool.Sound.leave {p : Proc C A α} (hnew : (P.threads i).isAfter = false)
    (hth : p.Safe h inv (fun _ => ()) (fun s => (cell s, fun j => priv j s)) (fun _ _ =>
      True) (P.locals i) P.shared)
    (hothers : ∀ j, j ≠ i → (P.threads j).inside = true →
      effect i (log.foldl (fun v i => effect i v) v₀) = log.foldl (fun v i => effect i v) v₀)
    (hvalue : (∀ j, j ≠ i → (P.threads j).inside = false) →
      value (cell P.shared) = some (effect i (log.foldl (fun v i => effect i v) v₀))) :
    (P.set i (.after p, (P.locals i, P.shared))).Sound h inv priv cell value effect good v₀ (log ++
      [i]) := by
  have hfold : (log ++ [i]).foldl (fun v i => effect i v) v₀ =
      effect i (log.foldl (fun v i => effect i v) v₀) := by
    rw [foldl_append, foldl_cons, foldl_nil]
  have hmem : i ∉ log := by
    rw [hP.mem_log, hnew]
    exact Bool.false_ne_true
  refine ⟨hP.holds, ?_, ?_, ?_, ?_, ?_⟩
  · intro j
    rw [hfold]
    by_cases hj : j = i
    · rw [hj, P.threads_set_self, P.locals_set_self]
      exact hth
    · rw [P.threads_set_of_ne _ hj, P.locals_set_of_ne _ hj]
      cases hjin : (P.threads j).inside with
      | false => exact (hP.thread j).of_not_inside hjin
      | true =>
        rw [hothers j hj hjin]
        exact hP.thread j
  · intro j
    by_cases hj : j = i
    · simp [hj, P.threads_set_self, Thread.isAfter]
    · rw [P.threads_set_of_ne _ hj, ← hP.mem_log]
      simp [hj]
  · rw [nodup_append]
    exact ⟨hP.nodup, nodup_singleton i, by
      intro a ha b hb hab
      rw [mem_singleton] at hb
      exact hmem (hb ▸ hab ▸ ha)⟩
  · have hne : ∀ j, ((P.set i (.after p, (P.locals i, P.shared))).threads j).inside = true →
        (P.threads j).inside = true := by
      intro j hjin
      by_cases hj : j = i
      · rw [hj, P.threads_set_self] at hjin
        cases hjin
      · rwa [P.threads_set_of_ne _ hj] at hjin
    intro a b ha hb
    exact hP.alone a b (hne a ha) (hne b hb)
  · intro hnone
    rw [hfold]
    apply hvalue
    intro j hj
    have hfree := hnone j
    rwa [P.threads_set_of_ne _ hj] at hfree

end

/-- The step lemma: the log grows at most by the thread that leaves its critical section. -/
theorem Pool.Sound.step (D : Disciplined h T inv priv cell value effect good s₀)
    (hP : P.Sound h inv priv cell value effect good v₀ log) (hexclusive : P.Exclusive T i)
    (hstep : P.step h T i = some P') :
    ∃ log', P'.Sound h inv priv cell value effect good v₀ log' := by
  have hs := hP.holds
  have hsound := hP.thread i
  obtain ⟨r, hr, rfl⟩ := Option.map_eq_some_iff.mp hstep
  cases hth : P.threads i with
  | before p =>
    rw [hth] at hr hsound
    cases p with
    | done e =>
      have hgood : good i e := hsound P.shared (.refl hs)
      simp only [Thread.step] at hr
      cases hcritical : (T i).critical e with
      | none =>
        rw [hcritical] at hr
        cases hr
        have hskip := D.skip i e hgood hcritical
        refine ⟨log ++ [i], hP.leave (by rw [hth]; rfl) (D.after i e _ _ hs)
          (fun _ _ _ => hskip _) fun hothers => ?_⟩
        rw [hskip]
        apply hP.value_eq
        intro j
        by_cases hj : j = i
        · rw [hj, hth]
          rfl
        · exact hothers j hj
      | some p =>
        rw [hcritical] at hr
        cases hr
        have hfree := hexclusive (by rw [hth, Thread.entering, hcritical]; rfl)
        exact ⟨log, hP.enter hfree (by rw [hth]; rfl)
          (D.critical i e p _ _ _ hgood hcritical hs (hP.value_eq hfree))⟩
    | call c k =>
      cases hr
      obtain ⟨⟨hs', hview⟩, hrest⟩ := hsound P.shared (.refl hs)
      obtain ⟨hcell, hpriv⟩ := Prod.mk.inj hview
      exact ⟨log, hP.call hs' hrest (by rw [hth]; rfl) (by rw [hth]; rfl)
        (fun j hj => congrFun hpriv ⟨j, hj⟩) fun _ => hcell⟩
    | undef => cases hr
  | critical e p =>
    rw [hth] at hr hsound
    cases p with
    | done u =>
      cases hr
      have hvalue : value (cell P.shared) =
          some (effect i (log.foldl (fun v i => effect i v) v₀)) := hsound P.shared (.refl hs)
      refine ⟨log ++ [i], hP.leave (by rw [hth]; rfl) (D.after i e _ _ hs) ?_ fun _ => hvalue⟩
      intro j hj hjin
      exact absurd (hP.alone j i hjin (by rw [hth]; rfl)) hj
    | call c k =>
      cases hr
      obtain ⟨⟨hs', hpriv⟩, hrest⟩ := hsound P.shared (.refl hs)
      refine ⟨log, hP.call hs' hrest (by rw [hth]; rfl) (by rw [hth]; rfl)
        (fun j _ => congrFun hpriv j) fun hinside => ?_⟩
      rw [hth] at hinside
      cases hinside
    | undef => cases hr
  | after p =>
    rw [hth] at hr hsound
    cases p with
    | done a => cases hr
    | call c k =>
      cases hr
      obtain ⟨⟨hs', hview⟩, hrest⟩ := hsound P.shared (.refl hs)
      obtain ⟨hcell, hpriv⟩ := Prod.mk.inj hview
      exact ⟨log, hP.call hs' hrest (by rw [hth]; rfl) (by rw [hth]; rfl)
        (fun j _ => congrFun hpriv j) fun _ => hcell⟩
    | undef => cases hr

/-- **Serialisation.** Whatever the interleaving, all results are those of the programs one after
another in some order. -/
theorem Disciplined.exists_serial (D : Disciplined h T inv priv cell value effect good s₀)
    {locals : ι → ℓ} {schedule : List ι} (hs₀ : inv s₀) (hv₀ : value (cell s₀) = some v₀)
    (hrun : Transition.Steps (Pool.step h T) (Pool.Exclusive T) (Pool.start T locals s₀) schedule P)
    (hreturned : ∀ i, (P.threads i).returned.isSome) : ∃ order : List ι, order.Nodup ∧
    (∀ i, i ∈ order) ∧ ∀ l, ∃ x,
      order.foldlM (fun x i => ((T i).program.run h x).map Prod.snd) (l, s₀) = some x ∧
        ∃ v, value (cell P.shared) = some v ∧ value (cell x.2) = some v := by
  obtain ⟨log, hP⟩ : ∃ log, P.Sound h inv priv cell value effect good v₀ log :=
    hrun.invariant (I := fun P => ∃ log, P.Sound h inv priv cell value effect good v₀ log)
      (fun ⟨_, hP⟩ hexclusive hstep => hP.step D hexclusive hstep) ⟨[], .start D locals hs₀ hv₀⟩
  have hafter : ∀ i, (P.threads i).isAfter = true := by
    intro i
    have hi := hreturned i
    cases hth : P.threads i with
    | before p => simp [hth, Thread.returned] at hi
    | critical e p => simp [hth, Thread.returned] at hi
    | after p => rfl
  have hfree : ∀ i, (P.threads i).inside = false := by
    intro i
    have hi := hafter i
    cases hth : P.threads i with
    | before p => rfl
    | critical e p => simp [hth, Thread.isAfter] at hi
    | after p => rfl
  refine ⟨log, hP.nodup, fun i => (hP.mem_log i).mpr (hafter i), fun l => ?_⟩
  obtain ⟨x, hx, hvalue⟩ := D.run_all (l := l) hP.nodup hs₀ (fun _ _ => rfl) hv₀
  exact ⟨x, hx, _, hP.value_eq hfree, hvalue⟩

end Serial

end Proc
