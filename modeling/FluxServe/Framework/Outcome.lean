import Mathlib.Init

namespace FluxServe

variable {ε σ τ α β : Type}

/-- Running `x` from `s` either returns with `Q` or stops at a fault with `E`.
A fault keeps the state it was raised in. -/
def Runs (x : EStateM ε σ α) (s : σ) (Q : α → σ → Prop) (E : ε → σ → Prop) : Prop :=
  match x s with
  | .ok a s' => Q a s'
  | .error e s' => E e s'

/-- `x` returns from `s` with `Q` and raises no fault. -/
def Returns (x : EStateM ε σ α) (s : σ) (Q : α → σ → Prop) : Prop :=
  Runs x s Q (fun _ _ => False)

instance Runs.decidable (x : EStateM ε σ α) (s : σ) (Q : α → σ → Prop) (E : ε → σ → Prop)
    [∀ a s', Decidable (Q a s')] [∀ e s', Decidable (E e s')] : Decidable (Runs x s Q E) :=
  match h : x s with
  | .ok a s' => decidable_of_iff (Q a s') (by simp [Runs,h])
  | .error e s' => decidable_of_iff (E e s') (by simp [Runs,h])

instance Returns.decidable (x : EStateM ε σ α) (s : σ) (Q : α → σ → Prop)
    [∀ a s', Decidable (Q a s')] : Decidable (Returns x s Q) :=
  Runs.decidable x s Q fun _ _ => False

section Rules

variable {s : σ} {Q Q' : α → σ → Prop} {E E' : ε → σ → Prop} {x : EStateM ε σ α}

theorem Runs.imp (h : Runs x s Q E) (hQ : ∀ a s', Q a s' → Q' a s')
    (hE : ∀ e s', E e s' → E' e s') : Runs x s Q' E' := by
  unfold Runs at *
  cases hx : x s with
  | ok a s' => rw [hx] at h; exact hQ a s' h
  | error e s' => rw [hx] at h; exact hE e s' h

theorem Runs.of_ok {a : α} {s' : σ} (h : Runs x s Q E) (hx : x s = .ok a s') : Q a s' := by
  simpa only [Runs,hx] using h

theorem Runs.of_error {e : ε} {s' : σ} (h : Runs x s Q E) (hx : x s = .error e s') :
    E e s' := by
  simpa only [Runs,hx] using h

theorem runs_trivial (x : EStateM ε σ α) (s : σ) : Runs x s (fun _ _ => True) (fun _ _ => True) := by
  unfold Runs
  cases x s <;> trivial

/-- A run with its own equation. -/
theorem Runs.and_eq (h : Runs x s Q E) :
    Runs x s (fun a s' => Q a s' ∧ x s = .ok a s') (fun e s' => E e s' ∧ x s = .error e s') := by
  unfold Runs at h ⊢
  cases hx : x s with
  | ok a s' =>
    rw [hx] at h
    exact ⟨h,rfl⟩
  | error e s' =>
    rw [hx] at h
    exact ⟨h,rfl⟩

theorem Returns.runs (h : Returns x s Q) (hQ : ∀ a s', Q a s' → Q' a s') : Runs x s Q' E :=
  Runs.imp h hQ (fun _ _ hf => hf.elim)

theorem Returns.exists (h : Returns x s Q) : ∃ a s', x s = .ok a s' ∧ Q a s' := by
  unfold Returns Runs at h
  cases hx : x s with
  | ok a s' => rw [hx] at h; exact ⟨a,s',rfl,h⟩
  | error e s' => rw [hx] at h; exact h.elim

theorem returns_of_ok {a : α} {s' : σ} (hx : x s = .ok a s') (hQ : Q a s') :
    Returns x s Q := by
  simpa only [Returns,Runs,hx] using hQ

theorem Returns.and_eq (h : Returns x s Q) :
    Returns x s (fun a s' => Q a s' ∧ x s = .ok a s') := by
  obtain ⟨a,s',hx,hQ⟩ := h.exists
  exact returns_of_ok hx ⟨hQ,hx⟩

theorem runs_pure (a : α) : Runs (pure a : EStateM ε σ α) s Q E ↔ Q a s := Iff.rfl

theorem runs_throw (e : ε) : Runs (throw e : EStateM ε σ α) s Q E ↔ E e s := Iff.rfl

theorem runs_get {Q : σ → σ → Prop} : Runs (get : EStateM ε σ σ) s Q E ↔ Q s s := Iff.rfl

theorem runs_set {Q : PUnit → σ → Prop} (s' : σ) :
    Runs (set s' : EStateM ε σ PUnit) s Q E ↔ Q ⟨⟩ s' := Iff.rfl

theorem runs_modify {Q : PUnit → σ → Prop} (f : σ → σ) :
    Runs (modify f : EStateM ε σ PUnit) s Q E ↔ Q ⟨⟩ (f s) := Iff.rfl

theorem runs_bind {Q : β → σ → Prop} (f : α → EStateM ε σ β) :
    Runs (x >>= f) s Q E ↔ Runs x s (fun a s' => Runs (f a) s' Q E) E := by
  change Runs (EStateM.bind x f) s Q E ↔ _
  unfold Runs EStateM.bind
  cases x s <;> rfl

theorem bind_ok {f : α → EStateM ε σ β} {a : α} {s' : σ} (hx : x s = .ok a s') :
    (x >>= f) s = f a s' := by
  change EStateM.bind x f s = _
  simp only [EStateM.bind,hx]

theorem exists_of_bind_ok {f : α → EStateM ε σ β} {b : β} {s₂ : σ} (h : (x >>= f) s = .ok b s₂) :
    ∃ a s₁, x s = .ok a s₁ ∧ f a s₁ = .ok b s₂ := by
  cases hx : x s with
  | ok a s₁ => exact ⟨a,s₁,rfl,(bind_ok hx).symm.trans h⟩
  | error e s₁ =>
    change EStateM.bind x f s = _ at h
    simp [EStateM.bind,hx] at h

theorem Runs.bind {Q : β → σ → Prop} {f : α → EStateM ε σ β} {R : α → σ → Prop}
    (hx : Runs x s R E) (hf : ∀ a s', R a s' → Runs (f a) s' Q E) : Runs (x >>= f) s Q E :=
  (runs_bind f).mpr (hx.imp hf (fun _ _ h => h))

theorem Returns.bind {Q : β → σ → Prop} {f : α → EStateM ε σ β} {R : α → σ → Prop}
    (hx : Returns x s R) (hf : ∀ a s', R a s' → Runs (f a) s' Q E) : Runs (x >>= f) s Q E :=
  (runs_bind f).mpr (hx.runs hf)

end Rules

/-- Run `x` on a component of a larger state. -/
def zoom (get : σ → τ) (put : τ → σ → σ) (x : EStateM ε τ α) : EStateM ε σ α := fun s =>
  match x (get s) with
  | .ok a t => .ok a (put t s)
  | .error e t => .error e (put t s)

theorem runs_zoom (get : σ → τ) (put : τ → σ → σ) (x : EStateM ε τ α) (s : σ)
    (Q : α → σ → Prop) (E : ε → σ → Prop) :
    Runs (zoom get put x) s Q E ↔
      Runs x (get s) (fun a t => Q a (put t s)) (fun e t => E e (put t s)) := by
  unfold Runs zoom
  cases x (get s) <;> rfl

/-- Stack unwinding: when `x` faults, run `cleanup` and let the fault go on. -/
def unwinding (x : EStateM ε σ α) (cleanup : EStateM ε σ Unit) : EStateM ε σ α := fun s =>
  match x s with
  | .ok a s' => .ok a s'
  | .error e s' =>
    match cleanup s' with
    | .ok _ s'' => .error e s''
    | .error e' s'' => .error e' s''

theorem runs_unwinding (x : EStateM ε σ α) (cleanup : EStateM ε σ Unit) (s : σ)
    (Q : α → σ → Prop) (E : ε → σ → Prop) :
    Runs (unwinding x cleanup) s Q E ↔
      Runs x s Q (fun e s' => Runs cleanup s' (fun _ => E e) E) := by
  unfold Runs unwinding
  cases hx : x s with
  | ok a s' => rfl
  | error e s' => dsimp only; cases cleanup s' <;> rfl

theorem Returns.unwinding {x : EStateM ε σ α} {s : σ} {Q : α → σ → Prop} (h : Returns x s Q)
    (cleanup : EStateM ε σ Unit) : Returns (unwinding x cleanup) s Q :=
  (runs_unwinding x cleanup s Q _).mpr (Runs.imp h (fun _ _ hQ => hQ) (fun _ _ hf => hf.elim))

/-- The loop rule: an invariant over the elements still to be visited. -/
theorem runs_forM {s : σ} {E : ε → σ → Prop} (f : α → EStateM ε σ PUnit) (I : List α → σ → Prop)
    (step : ∀ a as s', I (a::as) s' → Runs (f a) s' (fun _ => I as) E) (as : List α)
    (h : I as s) : Runs (as.forM f) s (fun _ => I []) E := by
  induction as generalizing s with
  | nil => exact h
  | cons a as ih =>
    change Runs (f a >>= fun _ => as.forM f) s _ E
    exact (step a as s h).bind (fun _ s' hs' => ih hs')

end FluxServe
