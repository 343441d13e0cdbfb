import Mathlib.Algebra.BigOperators.Group.List.Basic
import Mathlib.Algebra.GroupWithZero.Nat
import Mathlib.Data.List.OfFn
import Mathlib.Logic.Equiv.Basic
import Mathlib.Order.Monotone.Basic

namespace FluxServe

section Scatter

variable {L W : Nat} {α : Type} {order : Equiv.Perm (Fin L)} {idx : Fin L → Fin W}
  {src : Fin L → α} {dst : Fin W → α}

/-- Every source is written to its index, in some order: of the sources of one index any may stay. -/
def scatter (order : Equiv.Perm (Fin L)) (idx : Fin L → Fin W) (src : Fin L → α)
    (dst : Fin W → α) : Fin W → α :=
  (List.finRange L).foldl (fun d i => Function.update d (idx (order i)) (src (order i))) dst

theorem foldl_update_eq {ι β : Type} [DecidableEq β] {place : ι → β} {val : ι → α} {j : β} {v : α}
    (l : List ι) (hval : ∀ i ∈ l, place i = j → val i = v) (dst : β → α)
    (hany : dst j = v ∨ ∃ i ∈ l, place i = j) :
    l.foldl (fun d i => Function.update d (place i) (val i)) dst j = v := by
  induction l generalizing dst with
  | nil =>
    obtain h | ⟨_,h,_⟩ := hany
    · exact h
    · cases h
  | cons i l ih =>
    apply ih fun k hk => hval k (List.mem_cons_of_mem _ hk)
    by_cases hi : place i = j
    · left
      change Function.update dst (place i) (val i) j = v
      rw [← hi,Function.update_self]
      exact hval i List.mem_cons_self hi
    · obtain h | ⟨k,hk,hkj⟩ := hany
      · left
        change Function.update dst (place i) (val i) j = v
        rw [Function.update_of_ne (Ne.symm hi)]
        exact h
      · obtain rfl | hk := List.mem_cons.mp hk
        · exact absurd hkj hi
        · exact .inr ⟨k,hk,hkj⟩

/-- An index without a source keeps its value. -/
theorem scatter_of_notMem {j : Fin W} (h : ∀ i, idx i ≠ j) : scatter order idx src dst j = dst j :=
  foldl_update_eq _ (fun i _ hi => absurd hi (h (order i))) dst (.inl rfl)

/-- An index with one source takes it. -/
theorem scatter_of_unique {i : Fin L} (h : ∀ k, idx k = idx i → k = i) :
    scatter order idx src dst (idx i) = src i := by
  apply foldl_update_eq
  · intro k _ hk
    rw [h (order k) hk]
  · right
    refine ⟨order.symm i,List.mem_finRange _,?_⟩
    rw [Equiv.apply_symm_apply]

end Scatter

section Offset

variable {L : Nat} {count : Fin L → Nat} {i i' : Fin L} {k k' : Nat}

/-- The inclusive cumulative sum. -/
def cumsum (count : Fin L → Nat) (i : Fin L) : Nat := ((List.ofFn count).take (i+1)).sum

/-- The exclusive one, at any place of the row and at its end. -/
def offset (count : Fin L → Nat) (n : Nat) : Nat := ((List.ofFn count).take n).sum

theorem offset_succ (count : Fin L → Nat) (i : Fin L) :
    offset count (i+1) = offset count i + count i := by
  have hi : (i : Nat) < (List.ofFn count).length := by simp
  rw [offset,offset,List.take_succ_eq_append_getElem hi,List.sum_append]
  simp

theorem cumsum_sub_count (count : Fin L → Nat) (i : Fin L) :
    cumsum count i - count i = offset count i := by
  change offset count (i+1) - count i = _
  rw [offset_succ,Nat.add_sub_cancel]

theorem offset_mono (count : Fin L → Nat) : Monotone (offset count) := by
  apply monotone_nat_of_le_succ
  intro n
  by_cases hn : n < L
  · rw [offset_succ count ⟨n,hn⟩]
    exact Nat.le_add_right _ _
  · have hlen : (List.ofFn count).length ≤ n := by simp; omega
    rw [offset,offset,List.take_of_length_le hlen,List.take_of_length_le (by omega)]

theorem offset_le {bound : Nat} (h : ∀ i, count i ≤ bound) (n : Nat) :
    offset count n ≤ bound*n := by
  induction n with
  | zero => simp [offset]
  | succ n ih =>
    by_cases hn : n < L
    · rw [offset_succ count ⟨n,hn⟩,Nat.mul_succ]
      exact Nat.add_le_add ih (h _)
    · have hlen : (List.ofFn count).length ≤ n := by simp; omega
      have hsame : offset count (n+1) = offset count n := by
        rw [offset,offset,List.take_of_length_le hlen,List.take_of_length_le (by omega)]
      rw [hsame,Nat.mul_succ]
      omega

/-- The places of different parts are different. -/
theorem offset_injective (hk : k < count i) (hk' : k' < count i')
    (h : offset count i + k = offset count i' + k') : i = i' ∧ k = k' := by
  have hne {a b : Fin L} {m m' : Nat} (hm : m < count a) (hab : a < b) :
      offset count a + m < offset count b + m' := by
    have hle := offset_mono count (show (a : Nat)+1 ≤ b from hab)
    rw [offset_succ] at hle
    omega
  obtain hlt | heq | hgt := lt_trichotomy i i'
  · exact absurd h (Nat.ne_of_lt (hne hk hlt))
  · subst heq
    exact ⟨rfl,by omega⟩
  · exact absurd h.symm (Nat.ne_of_lt (hne hk' hgt))

/-- Every place below an offset belongs to a part before it. -/
theorem exists_offset {n j : Nat} (hn : n ≤ L) (hj : j < offset count n) :
    ∃ i : Fin L, (i : Nat) < n ∧ ∃ k < count i, j = offset count i + k := by
  induction n with
  | zero => simp [offset] at hj
  | succ n ih =>
    by_cases hlt : j < offset count n
    · obtain ⟨i,hi,hrest⟩ := ih (by omega) hlt
      exact ⟨i,by omega,hrest⟩
    · rw [offset_succ count ⟨n,hn⟩] at hj
      refine ⟨⟨n,hn⟩,Nat.lt_succ_self n,j-offset count n,?_,?_⟩
      · dsimp only at hj ⊢
        omega
      · dsimp only
        omega

/-- A part of a concatenation is found at its offset. -/
theorem getElem?_flatten_ofFn {α : Type} (parts : Fin L → List α) (i : Fin L) (k : Nat)
    (hk : k < (parts i).length) :
    (List.ofFn parts).flatten[offset (fun i => (parts i).length) i + k]? = (parts i)[k]? := by
  have hlen : offset (fun i => (parts i).length) i =
      (((List.ofFn parts).take i).flatten).length := by
    rw [List.length_flatten,List.map_take,List.map_ofFn]
    rfl
  have hi : (i : Nat) < (List.ofFn parts).length := by simp
  have hsplit : (List.ofFn parts).flatten = ((List.ofFn parts).take i).flatten ++
      (parts i ++ ((List.ofFn parts).drop (i+1)).flatten) := by
    conv_lhs => rw [← List.take_append_drop i (List.ofFn parts),List.flatten_append,
      List.drop_eq_getElem_cons hi,List.flatten_cons,List.getElem_ofFn]
  rw [hsplit,hlen,List.getElem?_append_right (Nat.le_add_right _ _),Nat.add_sub_cancel_left,
    List.getElem?_append_left hk]

theorem length_flatten_ofFn {α : Type} (parts : Fin L → List α) :
    (List.ofFn parts).flatten.length = offset (fun i => (parts i).length) L := by
  rw [List.length_flatten,List.map_ofFn,offset,List.take_of_length_le (by simp)]
  rfl

end Offset

end FluxServe
