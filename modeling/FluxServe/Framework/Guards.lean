import Mathlib.Init

namespace FluxServe

variable {ε α β : Type}

/-- A check that stops the rest of a block. -/
def throwIf (c : Prop) [Decidable c] (e : ε) : Except ε Unit := if c then throw e else pure ()

theorem throwIf_eq_ok {c : Prop} [Decidable c] {e : ε} {u : Unit} :
    throwIf c e = .ok u ↔ ¬c := by
  unfold throwIf
  by_cases h : c
  · rw [if_pos h]
    exact ⟨fun h' => (nomatch h'),fun h' => absurd h h'⟩
  · rw [if_neg h]
    exact ⟨fun _ => h,fun _ => rfl⟩

theorem bind_eq_ok {x : Except ε α} {f : α → Except ε β} {b : β}
    (h : x >>= f = .ok b) : ∃ a, x = .ok a ∧ f a = .ok b := by
  cases x with
  | error e =>
    injection h
  | ok a => exact ⟨a,rfl,h⟩

theorem bind_eq_error {x : Except ε α} {f : α → Except ε β} {e : ε}
    (h : x >>= f = .error e) : x = .error e ∨ ∃ a, x = .ok a ∧ f a = .error e := by
  cases x with
  | error e' =>
    injection h with h
    exact .inl (congrArg _ h)
  | ok a => exact .inr ⟨a,rfl,h⟩

theorem throwIf_bind_eq_ok {c : Prop} [Decidable c] {e : ε} {f : Unit → Except ε β} {b : β} :
    (throwIf c e >>= f) = .ok b ↔ ¬c ∧ f () = .ok b := by
  constructor
  · intro h
    obtain ⟨_,hc,hf⟩ := bind_eq_ok h
    exact ⟨throwIf_eq_ok.mp hc,hf⟩
  · rintro ⟨hc,hf⟩
    rw [throwIf,if_neg hc]
    exact hf

theorem pure_eq_ok {a b : α} : (pure a : Except ε α) = .ok b ↔ a = b :=
  ⟨fun h => Except.ok.inj h,fun h => congrArg _ h⟩

end FluxServe
