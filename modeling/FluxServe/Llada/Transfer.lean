import FluxServe.Llada.BlockCommit
import FluxServe.Llada.LevenshteinProof

namespace FluxServe.Llada

open Engine

section Transferred

variable {L : Nat} {Conf : Type} [LinearOrder Conf] {slack : Conf → Conf} {threshold : Conf}
  {conf : Fin L → WithBot Conf} {i : Fin L}

/-- Only candidates are transferred, -/
theorem transferred_candidate (h : transferred slack threshold conf i = true) : conf i ≠ ⊥ := by
  intro hbot
  unfold transferred at h
  split at h
  · next hsome => cases hsome.symm.trans hbot
  · cases h

theorem foldr_max_of_greatest (h : ∀ j, conf j ≤ conf i) :
    (List.finRange L).foldr (fun i m => max (conf i) m) ⊥ = conf i := by
  have hle (l : List (Fin L)) : l.foldr (fun i m => max (conf i) m) ⊥ ≤ conf i := by
    induction l with
    | nil => exact bot_le
    | cons j l ih => exact max_le (h j) ih
  have hge (l : List (Fin L)) (hi : i ∈ l) : conf i ≤ l.foldr (fun i m => max (conf i) m) ⊥ := by
    induction l with
    | nil => cases hi
    | cons j l ih =>
      obtain rfl | hi := List.mem_cons.mp hi
      · exact le_max_left _ _
      · exact (ih hi).trans (le_max_right _ _)
  exact le_antisymm (hle _) (hge _ (List.mem_finRange i))

/-- and those with the greatest confidence are. -/
theorem transferred_of_greatest (hslack : ∀ c, slack c ≤ c) (hi : conf i ≠ ⊥)
    (h : ∀ j, conf j ≤ conf i) : transferred slack threshold conf i = true := by
  obtain ⟨c,hc⟩ := WithBot.ne_bot_iff_exists.mp hi
  have hsome : conf i = some c := hc.symm
  simp only [transferred,foldr_max_of_greatest h,hsome]
  exact decide_eq_true (min_le_of_left_le (hslack c))

theorem exists_transferred (hslack : ∀ c, slack c ≤ c) (hi : conf i ≠ ⊥) :
    ∃ j, transferred slack threshold conf j = true := by
  have : NeZero L := ⟨(Nat.zero_lt_of_lt i.isLt).ne'⟩
  have hmax := le_argmax conf
  refine ⟨argmax conf,transferred_of_greatest hslack (fun hbot => hi ?_) hmax⟩
  have hle := hmax i
  rwa [hbot,le_bot_iff] at hle

end Transferred

section Masks

variable {L : Nat} {maskId : Token} {block after : Fin L → Token} {i : Fin L}

/-- How many masks a block has. -/
def masks (maskId : Token) (block : Fin L → Token) : Nat := count fun i => block i == maskId

theorem masks_le (maskId : Token) (block : Fin L → Token) : masks maskId block ≤ L := by
  have h := List.countP_le_length (p := fun i => block i == maskId) (l := List.finRange L)
  rwa [List.length_finRange] at h

theorem masks_eq_zero : masks maskId block = 0 ↔ ∀ i, block i ≠ maskId := by
  unfold masks
  rw [count_eq_zero]
  simp

theorem masks_mono (h : ∀ i, after i = maskId → block i = maskId) :
    masks maskId after ≤ masks maskId block := by
  apply List.countP_mono_left
  intro i _ hi
  simpa using h i (by simpa using hi)

/-- Fewer masks are left where one is replaced and none is written. -/
theorem masks_lt (h : ∀ i, after i = maskId → block i = maskId) (hi : block i = maskId)
    (hi' : after i ≠ maskId) : masks maskId after < masks maskId block := by
  have hsplit (f : Fin L → Token) : masks maskId f =
      ((List.finRange L).erase i).countP (fun j => f j == maskId) + (f i == maskId).toNat := by
    unfold masks count
    rw [(List.perm_cons_erase (List.mem_finRange i)).countP_eq,List.countP_cons]
    congr 1
    cases f i == maskId <;> rfl
  have hrest : ((List.finRange L).erase i).countP (fun j => after j == maskId) ≤
      ((List.finRange L).erase i).countP fun j => block j == maskId := by
    apply List.countP_mono_left
    intro j _ hj
    simpa using h j (by simpa using hj)
  rw [hsplit after,hsplit block,hi,beq_self_eq_true,beq_false_of_ne hi']
  simp only [Bool.toNat_true,Bool.toNat_false]
  omega

end Masks

section Column

variable {V : Nat} [NeZero V] {id : Token}

/-- An id that some column has is the column it suppresses. -/
theorem column_val (v : Fin V) : LevenshteinJointDecoder.column V ((v : Nat) : Token) = v := by
  have hmod : ((v : Nat) : Int) % (V : Int) = ((v : Nat) : Int) := by
    rw [← Int.natCast_emod,Nat.mod_eq_of_lt v.isLt]
  unfold LevenshteinJointDecoder.column
  apply Fin.ext
  rw [Fin.val_ofNat]
  change (((v : Nat) : Int) % (V : Int)).toNat % V = v
  rw [hmod,Int.toNat_natCast]
  exact Nat.mod_eq_of_lt v.isLt

theorem ne_of_ne_column {v : Fin V} (h : v ≠ LevenshteinJointDecoder.column V id) :
    ((v : Nat) : Token) ≠ id := by
  rintro rfl
  exact h (column_val v).symm

end Column

end FluxServe.Llada
