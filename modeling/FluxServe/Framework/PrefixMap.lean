import Mathlib.Data.List.Basic

namespace FluxServe

/-- A map from sequences: what is known of a sequence is known of its whole pages, from the front. -/
abbrev PrefixMap (τ α : Type) := List τ → Option α

namespace PrefixMap

variable {τ α : Type} {m : PrefixMap τ α} {ps k : Nat} {T : List τ} {pages : List α}

/-- How many pages of `T` are mapped, from the front and without a gap. -/
def longest (m : PrefixMap τ α) (ps : Nat) (T : List τ) : Nat :=
  ((List.range (T.length/ps)).takeWhile fun k => (m (T.take ((k+1)*ps))).isSome).length

/-- Every unmapped page of `T` gets its entry of `pages`; what is mapped stays. -/
def fill [DecidableEq τ] (m : PrefixMap τ α) (ps : Nat) (T : List τ) (pages : List α) :
    PrefixMap τ α := fun P =>
  (m P).or (if P ≠ [] ∧ P.length % ps = 0 ∧ P <+: T then pages[P.length/ps-1]? else none)

theorem longest_eq (hk : k ≤ T.length/ps) (hin : ∀ j < k, (m (T.take ((j+1)*ps))).isSome = true)
    (hout : k < T.length/ps → m (T.take ((k+1)*ps)) = none) : longest m ps T = k := by
  unfold longest
  obtain ⟨d,hd⟩ := Nat.exists_eq_add_of_le hk
  rw [hd,List.range_add,List.takeWhile_append_of_pos]
  · cases d with
    | zero => simp
    | succ d =>
      have hnone := hout (by omega)
      rw [List.range_succ_eq_map]
      simp [hnone]
  · intro j hj
    exact hin j (List.mem_range.mp hj)

/-- A sequence that was filled is mapped to its end. -/
theorem longest_fill [DecidableEq τ] (hps : 0 < ps) (hlen : T.length/ps ≤ pages.length) :
    longest (m.fill ps T pages) ps T = T.length/ps := by
  refine longest_eq (Nat.le_refl _) (fun j hj => ?_) (fun h => absurd h (Nat.lt_irrefl _))
  have hle : (j+1)*ps ≤ T.length := Nat.le_trans (Nat.mul_le_mul_right ps hj) (Nat.div_mul_le_self _ _)
  have hP : (T.take ((j+1)*ps)).length = (j+1)*ps := by
    rw [List.length_take,Nat.min_eq_left hle]
  have hpos : 0 < (j+1)*ps := Nat.mul_pos (Nat.succ_pos j) hps
  unfold fill
  rw [Option.isSome_or,if_pos]
  · rw [hP,Nat.mul_div_cancel _ hps]
    simp only [Nat.add_sub_cancel,isSome_getElem?,Bool.or_eq_true]
    right
    omega
  · refine ⟨?_,by rw [hP,Nat.mul_mod_left],List.take_prefix _ _⟩
    rw [← List.length_pos_iff,hP]
    exact hpos

end PrefixMap

end FluxServe
