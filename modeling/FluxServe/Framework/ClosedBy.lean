import Mathlib.Data.List.Basic

namespace FluxServe

variable {α : Type} {marker : α} {n k : Nat} {out rest : List α}

/-- A list of more than `n` elements has the marker at an index up to `n`. -/
def ClosedBy (marker : α) (n : Nat) (out : List α) : Prop :=
  n < out.length → ∃ i ≤ n, out[i]? = some marker

theorem closedBy_of_length (h : out.length ≤ n) : ClosedBy marker n out :=
  fun hlong => absurd h (by omega)

/-- What is closed stays so, whatever follows. -/
theorem ClosedBy.append (h : ClosedBy marker n out) (hlong : n < out.length) (rest : List α) :
    ClosedBy marker n (out ++ rest) := by
  intro _
  obtain ⟨i,hi,hget⟩ := h hlong
  refine ⟨i,hi,?_⟩
  rw [List.getElem?_append_left (by omega)]
  exact hget

theorem ClosedBy.of_isPrefix (h : ClosedBy marker n out) (hpref : rest <+: out) :
    ClosedBy marker n rest := by
  intro hlong
  obtain ⟨i,hi,hget⟩ := h (Nat.lt_of_lt_of_le hlong hpref.length_le)
  refine ⟨i,hi,?_⟩
  rw [← hget,List.prefix_iff_getElem?.mp hpref i (by omega)]
  exact List.getElem?_eq_getElem (by omega)

theorem closedBy_of_mem (h : marker ∈ out) (hshort : out.length ≤ n) (rest : List α) :
    ClosedBy marker n (out ++ rest) := by
  intro _
  obtain ⟨i,hi,hget⟩ := List.mem_iff_getElem.mp h
  refine ⟨i,by omega,?_⟩
  rw [List.getElem?_append_left hi,List.getElem?_eq_getElem hi,hget]

/-- A marker that is kept closes what follows, if that reaches it. -/
theorem closedBy_filter {whole part : List α} {keep : α → Bool} (hpref : part <+: whole)
    (hmarker : whole[k]? = some marker) (hkeep : keep marker = true) (hle : out.length+k ≤ n) :
    ClosedBy marker n (out ++ part.filter keep) := by
  intro hlong
  have hfilter := List.length_filter_le keep part
  rw [List.length_append] at hlong
  have hk : k < part.length := by omega
  have hget : part[k]? = some marker := by
    rw [← hmarker,List.prefix_iff_getElem?.mp hpref k hk]
    exact List.getElem?_eq_getElem hk
  have hmem : marker ∈ (part.take (k+1)).filter keep := by
    apply List.mem_filter.mpr ⟨List.mem_of_getElem? (i := k) ?_,hkeep⟩
    rw [List.getElem?_take_of_lt (Nat.lt_succ_self k)]
    exact hget
  obtain ⟨i,hi,hi'⟩ := List.mem_iff_getElem.mp hmem
  have hshort := List.length_filter_le keep (part.take (k+1))
  rw [List.length_take] at hshort
  refine ⟨out.length+i,by omega,?_⟩
  rw [List.getElem?_append_right (Nat.le_add_right _ _),Nat.add_sub_cancel_left]
  have hsplit : part.filter keep =
      (part.take (k+1)).filter keep ++ (part.drop (k+1)).filter keep := by
    rw [← List.filter_append,List.take_append_drop]
  rw [hsplit,List.getElem?_append_left hi,List.getElem?_eq_getElem hi,hi']

end FluxServe
