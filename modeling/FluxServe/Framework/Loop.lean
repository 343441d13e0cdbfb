import Mathlib.Init

namespace FluxServe

variable {σ : Type} {done : σ → Bool} {step : σ → σ}

/-- A while loop that is given at most `fuel` turns. -/
def loop (done : σ → Bool) (step : σ → σ) : Nat → σ → Option σ
  | fuel,s =>
    if done s then some s
    else match fuel with
      | 0 => none
      | fuel+1 => loop done step fuel (step s)

/-- The loop comes to its end in `r` after `n` turns. -/
inductive Ends (done : σ → Bool) (step : σ → σ) : σ → σ → Nat → Prop
  | done {s : σ} (stop : done s = true) : Ends done step s s 0
  | turn {s r : σ} {n : Nat} (go : done s = false) (rest : Ends done step (step s) r n) :
      Ends done step s r (n+1)

theorem Ends.loop_eq {s r : σ} {n fuel : Nat} (h : Ends done step s r n) (hle : n ≤ fuel) :
    loop done step fuel s = some r := by
  induction h generalizing fuel with
  | done stop =>
    unfold loop
    rw [if_pos stop]
  | turn go rest ih =>
    obtain ⟨fuel,rfl⟩ : ∃ k, fuel = k+1 := ⟨fuel-1,by omega⟩
    unfold loop
    rw [if_neg (by simp [go])]
    exact ih (by omega)

theorem ends_of_loop {s r : σ} {fuel : Nat} (h : loop done step fuel s = some r) :
    ∃ n, n ≤ fuel ∧ Ends done step s r n := by
  induction fuel generalizing s with
  | zero =>
    unfold loop at h
    split at h
    · rename_i stop
      injection h with h
      subst h
      exact ⟨0,Nat.le_refl 0,.done stop⟩
    · cases h
  | succ fuel ih =>
    unfold loop at h
    split at h
    · rename_i stop
      injection h with h
      subst h
      exact ⟨0,Nat.zero_le _,.done stop⟩
    · rename_i go
      obtain ⟨n,hle,hends⟩ := ih h
      exact ⟨n+1,Nat.succ_le_succ hle,.turn (by simpa using go) hends⟩

theorem Ends.stopped {s r : σ} {n : Nat} (h : Ends done step s r n) : done r = true := by
  induction h with
  | done stop => exact stop
  | turn _ _ ih => exact ih

theorem Ends.unique {s r r' : σ} {n n' : Nat} (h : Ends done step s r n)
    (h' : Ends done step s r' n') : r = r' ∧ n = n' := by
  induction h generalizing r' n' with
  | done stop =>
    cases h' with
    | done => exact ⟨rfl,rfl⟩
    | turn go => simp [stop] at go
  | turn go rest ih =>
    cases h' with
    | done stop => simp [stop] at go
    | turn _ rest' =>
      obtain ⟨rfl,rfl⟩ := ih rest'
      exact ⟨rfl,rfl⟩

theorem loop_unique {s r r' : σ} {fuel fuel' : Nat} (h : loop done step fuel s = some r)
    (h' : loop done step fuel' s = some r') : r = r' := by
  obtain ⟨n,_,hn⟩ := ends_of_loop h
  obtain ⟨n',_,hn'⟩ := ends_of_loop h'
  exact (hn.unique hn').1

/-- A loop over the images of the states. -/
theorem loop_map {τ : Type} (f : σ → τ) {done' : τ → Bool} {step' : τ → τ}
    (hdone : ∀ s, done' (f s) = done s) (hstep : ∀ s, step' (f s) = f (step s)) (fuel : Nat)
    (s : σ) : loop done' step' fuel (f s) = (loop done step fuel s).map f := by
  induction fuel generalizing s with
  | zero =>
    unfold loop
    rw [hdone]
    cases done s <;> rfl
  | succ fuel ih =>
    unfold loop
    rw [hdone,hstep]
    cases done s
    · exact ih (step s)
    · rfl

/-- What every turn keeps holds at the end. -/
theorem Ends.invariant {P : σ → Prop} {s r : σ} {n : Nat} (h : Ends done step s r n)
    (hs : P s) (hstep : ∀ s, P s → done s = false → P (step s)) : P r := by
  induction h with
  | done => exact hs
  | turn go _ ih => exact ih (hstep _ hs go)

end FluxServe
