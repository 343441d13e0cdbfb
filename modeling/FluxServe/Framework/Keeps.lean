import FluxServe.Framework.Outcome

namespace FluxServe

variable {ε σ τ α β γ : Type} {f : σ → γ}

/-- Whether it returns or faults, `x` leaves what `f` sees of the state alone. -/
def Keeps (f : σ → γ) (x : EStateM ε σ α) : Prop :=
  ∀ s, Runs x s (fun _ s' => f s' = f s) (fun _ s' => f s' = f s)

theorem Runs.keeps {x : EStateM ε σ α} {s : σ} {Q : α → σ → Prop} {E : ε → σ → Prop}
    (h : Runs x s Q E) (hk : Keeps f x) :
    Runs x s (fun a s' => Q a s' ∧ f s' = f s) (fun e s' => E e s' ∧ f s' = f s) := by
  have hk' := hk s
  unfold Runs at *
  cases hx : x s with
  | ok a s' => rw [hx] at h hk'; exact ⟨h,hk'⟩
  | error e s' => rw [hx] at h hk'; exact ⟨h,hk'⟩

theorem Returns.keeps {x : EStateM ε σ α} {s : σ} {Q : α → σ → Prop} (h : Returns x s Q)
    (hk : Keeps f x) : Returns x s (fun a s' => Q a s' ∧ f s' = f s) :=
  (Runs.keeps h hk).imp (fun _ _ h => h) (fun _ _ h => h.1)

theorem keeps_pure (a : α) : Keeps f (pure a : EStateM ε σ α) := fun _ => rfl

theorem keeps_throw (e : ε) : Keeps f (throw e : EStateM ε σ α) := fun _ => rfl

theorem keeps_get : Keeps f (get : EStateM ε σ σ) := fun _ => rfl

theorem keeps_modify {g : σ → σ} (h : ∀ s, f (g s) = f s) :
    Keeps f (modify g : EStateM ε σ PUnit) := fun s => h s

theorem keeps_bind {x : EStateM ε σ α} {g : α → EStateM ε σ β} (hx : Keeps f x)
    (hg : ∀ a, Keeps f (g a)) : Keeps f (x >>= g) := by
  intro s
  refine (hx s).bind fun a s' hs' => ?_
  refine (hg a s').imp (fun _ _ h => h.trans hs') (fun _ _ h => h.trans hs')

theorem keeps_ite {c : Prop} [Decidable c] {x y : EStateM ε σ α} (hx : Keeps f x) (hy : Keeps f y) :
    Keeps f (if c then x else y) := by
  split
  · exact hx
  · exact hy

theorem keeps_forM {g : α → EStateM ε σ PUnit} (hg : ∀ a, Keeps f (g a)) (as : List α) :
    Keeps f (as.forM g) := by
  induction as with
  | nil => exact keeps_pure PUnit.unit
  | cons a as ih => exact keeps_bind (hg a) fun _ => ih

theorem keeps_unwinding {x : EStateM ε σ α} {cleanup : EStateM ε σ Unit} (hx : Keeps f x)
    (hc : Keeps f cleanup) : Keeps f (unwinding x cleanup) := by
  intro s
  rw [runs_unwinding]
  refine (hx s).imp (fun _ _ h => h) fun e s' hs' => ?_
  exact (hc s').imp (fun _ _ h => h.trans hs') (fun _ _ h => h.trans hs')

theorem keeps_zoom {get : σ → τ} {put : τ → σ → σ} {g : τ → γ} (hget : ∀ s, f s = g (get s))
    (hput : ∀ t s, f (put t s) = g t) {x : EStateM ε τ α} (hx : Keeps g x) :
    Keeps f (zoom get put x) := by
  intro s
  rw [runs_zoom]
  refine (hx (get s)).imp (fun _ t h => ?_) (fun _ t h => ?_)
  · rw [hput,hget,h]
  · rw [hput,hget,h]

/-- Whether it returns or faults, `x` goes to a state that `R` relates to the one it started from. -/
def Follows (R : σ → σ → Prop) (x : EStateM ε σ α) : Prop := ∀ s, Runs x s (fun _ => R s) (fun _ => R s)

section Follows

variable {R : σ → σ → Prop} {x : EStateM ε σ α}

theorem follows_pure (hrefl : ∀ s, R s s) (a : α) : Follows R (pure a : EStateM ε σ α) := hrefl

theorem follows_throw (hrefl : ∀ s, R s s) (e : ε) : Follows R (throw e : EStateM ε σ α) := hrefl

theorem follows_bind (htrans : ∀ {s s' s''}, R s s' → R s' s'' → R s s'') (hx : Follows R x)
    {g : α → EStateM ε σ β} (hg : ∀ a, Follows R (g a)) : Follows R (x >>= g) := by
  intro s
  refine (hx s).bind fun a s' hs' => ?_
  exact (hg a s').imp (fun _ _ h => htrans hs' h) (fun _ _ h => htrans hs' h)

theorem follows_ite {c : Prop} [Decidable c] {y : EStateM ε σ α} (hx : Follows R x)
    (hy : Follows R y) : Follows R (if c then x else y) := by
  split
  · exact hx
  · exact hy

theorem follows_forM (hrefl : ∀ s, R s s) (htrans : ∀ {s s' s''}, R s s' → R s' s'' → R s s'')
    {f : β → EStateM ε σ PUnit} (hf : ∀ b, Follows R (f b)) (bs : List β) :
    Follows R (bs.forM f) := by
  induction bs with
  | nil => exact follows_pure hrefl PUnit.unit
  | cons b bs ih => exact follows_bind (R := R) htrans (hf b) fun _ => ih

theorem follows_unwinding (htrans : ∀ {s s' s''}, R s s' → R s' s'' → R s s'') (hx : Follows R x)
    {cleanup : EStateM ε σ Unit} (hc : Follows R cleanup) : Follows R (unwinding x cleanup) := by
  intro s
  rw [runs_unwinding]
  refine (hx s).imp (fun _ _ h => h) fun e s' hs' => ?_
  exact (hc s').imp (fun _ _ h => htrans hs' h) (fun _ _ h => htrans hs' h)

end Follows

end FluxServe
