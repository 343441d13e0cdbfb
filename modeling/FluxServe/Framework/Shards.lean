import Mathlib.Algebra.BigOperators.Group.List.Basic
import Mathlib.Algebra.GroupWithZero.Nat
import Mathlib.Algebra.Ring.Defs

namespace FluxServe

section Shards

variable {α β γ : Type} {l : List α} {size count r i : Nat}

/-- The `r`-th piece of the given size. -/
def shard (size r : Nat) (l : List α) : List α := (l.drop (r*size)).take size

theorem getElem?_shard (l : List α) :
    (shard size r l)[i]? = if i < size then l[r*size+i]? else none := by
  rw [shard,List.getElem?_take]
  split
  · rw [List.getElem?_drop]
  · rfl

theorem length_shard (h : l.length = count*size) (hr : r < count) :
    (shard size r l).length = size := by
  have hle : (r+1)*size ≤ count*size := Nat.mul_le_mul_right _ hr
  rw [Nat.succ_mul] at hle
  rw [shard,List.length_take,List.length_drop]
  omega

/-- A range of a piece. -/
theorem shard_part {a n : Nat} (h : a+n ≤ size) :
    ((shard size r l).drop a).take n = (l.drop (r*size+a)).take n := by
  rw [shard,List.drop_take,List.take_take,List.drop_drop,Nat.min_eq_left (by omega)]

theorem map_getD_range' {a n : Nat} (d : α) (h : a+n ≤ l.length) :
    (List.range' a n).map (fun i => l.getD i d) = (l.drop a).take n := by
  apply List.ext_getElem?
  intro i
  rw [List.getElem?_map,List.getElem?_take,List.getElem?_drop]
  by_cases hi : i < n
  · have hlt : a+i < l.length := by omega
    rw [List.getElem?_range' hi,if_pos hi,Option.map_some,Nat.one_mul,
      List.getD_eq_getElem?_getD,List.getElem?_eq_getElem hlt,Option.getD_some]
  · rw [if_neg hi,List.getElem?_eq_none_iff.mpr (by rw [List.length_range']; omega),
      Option.map_none]

theorem shard_replicate (a : α) (n : Nat) :
    shard size r (List.replicate n a) = List.replicate (min size (n-r*size)) a := by
  rw [shard,List.drop_replicate,List.take_replicate]

theorem shard_map (f : α → β) (l : List α) : shard size r (l.map f) = (shard size r l).map f := by
  simp [shard]

theorem shard_zipWith (f : α → β → γ) (l : List α) (m : List β) :
    shard size r (List.zipWith f l m) = List.zipWith f (shard size r l) (shard size r m) := by
  simp [shard,List.drop_zipWith,List.take_zipWith]

theorem shard_range (h : r < count) :
    shard size r (List.range (count*size)) = List.range' (size*r) size := by
  have hle : (r+1)*size ≤ count*size := Nat.mul_le_mul_right _ h
  rw [Nat.succ_mul] at hle
  apply List.ext_getElem?
  intro i
  rw [getElem?_shard]
  by_cases hi : i < size
  · rw [if_pos hi,List.getElem?_range (by omega),List.getElem?_range' hi,Nat.one_mul,Nat.mul_comm]
  · rw [if_neg hi,List.getElem?_eq_none_iff.mpr (by rw [List.length_range']; omega)]

/-- The pieces in their order make the whole; the last ones may be short or empty. -/
theorem flatMap_shard (h : l.length ≤ count*size) :
    (List.range count).flatMap (fun r => shard size r l) = l := by
  induction count generalizing l with
  | zero =>
    rw [Nat.zero_mul] at h
    rw [List.eq_nil_of_length_eq_zero (Nat.le_zero.mp h)]
    rfl
  | succ count ih =>
    rw [Nat.succ_mul] at h
    have hfront : (l.take (count*size)).length ≤ count*size := by
      rw [List.length_take]
      exact Nat.min_le_left _ _
    have hpieces : ∀ r ∈ List.range count, shard size r l = shard size r (l.take (count*size)) := by
      intro r hr
      have hle : (r+1)*size ≤ count*size := Nat.mul_le_mul_right _ (List.mem_range.mp hr)
      rw [Nat.succ_mul] at hle
      rw [shard,shard,List.drop_take,List.take_take,Nat.min_eq_left (by omega)]
    have hlast : shard size count l = l.drop (count*size) := by
      rw [shard,List.take_of_length_le]
      rw [List.length_drop]
      omega
    rw [List.range_succ,List.flatMap_append,List.flatMap_congr hpieces,ih hfront]
    simp [hlast]

/-- A piece of what is put together from pieces. -/
theorem shard_flatMap {f : Nat → List α} (hf : ∀ r < count, (f r).length = size) (hr : r < count) :
    shard size r ((List.range count).flatMap f) = f r := by
  have hlen : ∀ n ≤ count, ((List.range n).flatMap f).length = n*size := by
    intro n hn
    induction n with
    | zero => simp
    | succ n ih =>
      rw [List.range_succ,List.flatMap_append,List.length_append,ih (by omega),Nat.succ_mul]
      simp [hf n hn]
  obtain ⟨k,rfl⟩ : ∃ k, count = r+(k+1) := ⟨count-r-1,by omega⟩
  have hsplit : (List.range (r+(k+1))).flatMap f = (List.range r).flatMap f ++ (f r ++
      ((List.range k).map (r+1+·)).flatMap f) := by
    rw [List.range_add,List.flatMap_append,List.range_succ_eq_map]
    simp [Function.comp_def,Nat.add_comm,Nat.add_left_comm]
  rw [hsplit,shard,← hlen r (by omega),List.drop_left,List.take_append_of_le_length,
    List.take_of_length_le]
  · exact Nat.le_of_eq (hf r hr)
  · exact Nat.le_of_eq (hf r hr).symm

/-- A piece of a piece. -/
theorem shard_shard {inner : Nat} (hi : i < inner) (l : List α) :
    shard size i (shard (inner*size) r l) = shard size (r*inner+i) l := by
  apply List.ext_getElem?
  intro j
  rw [getElem?_shard,getElem?_shard,getElem?_shard]
  have hle : (i+1)*size ≤ inner*size := Nat.mul_le_mul_right _ hi
  rw [Nat.succ_mul] at hle
  split
  · rw [if_pos (by omega)]
    congr 1
    rw [Nat.add_mul,Nat.mul_assoc,Nat.add_assoc]
  · rfl

end Shards

section Sums

variable {R : Type} {size count : Nat}

/-- A sum over the pieces. -/
theorem sum_shards [AddMonoid R] {l : List R} (h : l.length = count*size) :
    l.sum = ((List.range count).map fun r => (shard size r l).sum).sum := by
  conv_lhs => rw [← flatMap_shard (Nat.le_of_eq h)]
  rw [List.flatMap_def,List.sum_flatten,List.map_map]
  rfl

def dot [Add R] [Mul R] [Zero R] (v w : List R) : R := (List.zipWith (· * ·) v w).sum

theorem dot_zeros [NonUnitalNonAssocSemiring R] (n : Nat) (w : List R) :
    dot (List.replicate n 0) w = 0 := by
  induction w generalizing n with
  | nil => simp [dot]
  | cons a w ih =>
    cases n with
    | zero => simp [dot]
    | succ n =>
      have hrest := ih n
      simp only [dot] at hrest
      simp [dot,List.replicate_succ,hrest]

theorem dot_shards [NonUnitalNonAssocSemiring R] {v w : List R} (hv : v.length = count*size)
    (hw : w.length = count*size) :
    dot v w = ((List.range count).map fun r => dot (shard size r v) (shard size r w)).sum := by
  have hlen : (List.zipWith (· * ·) v w).length = count*size := by
    rw [List.length_zipWith,hv,hw,Nat.min_self]
  rw [dot,sum_shards hlen]
  simp only [shard_zipWith,dot]

/-- Vectors of one length, added up. -/
def addVectors [Add R] : List (List R) → List R
  | [] => []
  | v :: rest => rest.foldl (List.zipWith (· + ·)) v

theorem foldl_map_add [AddMonoid R] {α : Type} (ws : List α) (f : α → R) (g : Nat → α → R)
    (ranks : List Nat) :
    (ranks.map fun r => ws.map (g r)).foldl (List.zipWith (· + ·)) (ws.map f) =
      ws.map fun w => f w+(ranks.map fun r => g r w).sum := by
  induction ranks generalizing f with
  | nil => simp
  | cons r ranks ih =>
    rw [List.map_cons,List.foldl_cons,List.zipWith_map,List.zipWith_self,ih]
    simp [add_assoc]

/-- Vectors with one entry for each of `ws` add up entry by entry. -/
theorem addVectors_map [AddMonoid R] {α : Type} (ws : List α) (g : Nat → α → R) (h : 0 < count) :
    addVectors ((List.range count).map fun r => ws.map (g r)) =
      ws.map fun w => ((List.range count).map fun r => g r w).sum := by
  obtain ⟨n,rfl⟩ : ∃ n, count = n+1 := ⟨count-1,by omega⟩
  rw [List.range_succ_eq_map,List.map_cons,List.map_map,addVectors]
  have hfold := foldl_map_add ws (g 0) g ((List.range n).map Nat.succ)
  rw [List.map_map] at hfold
  rw [hfold]
  simp [Function.comp_def]

/-- At most one of the terms is not zero. -/
theorem sum_single [AddMonoid R] (a : R) (r count : Nat) :
    ((List.range count).map fun i => if i = r then a else 0).sum = if r < count then a else 0 := by
  induction count with
  | zero => simp
  | succ count ih =>
    rw [List.range_succ,List.map_append,List.sum_append,ih]
    by_cases hlast : count = r
    · simp [hlast]
    · by_cases hr : r < count
      · simp [hlast,hr,Nat.lt_succ_of_lt hr]
      · simp [hlast,hr,show ¬r < count+1 by omega]

/-- All vectors but one are zero. -/
theorem addVectors_single [AddMonoid R] {row : List R} {r : Nat} (h : r < count) :
    addVectors ((List.range count).map fun i =>
      if i = r then row else List.replicate row.length 0) = row := by
  have hvectors : ((List.range count).map fun i =>
      if i = r then row else List.replicate row.length 0) =
      (List.range count).map fun i => row.map fun a => if i = r then a else 0 := by
    refine List.map_congr_left fun i _ => ?_
    by_cases hi : i = r <;> simp [hi]
  rw [hvectors,addVectors_map row _ (Nat.zero_lt_of_lt h)]
  simp [sum_single,h]

theorem addVectors_zeros [AddMonoid R] {dim : Nat} (h : 0 < count) :
    addVectors ((List.range count).map fun _ => List.replicate dim (0 : R)) =
      List.replicate dim 0 := by
  have hzeros : List.replicate dim (0 : R) = (List.range dim).map fun _ => 0 := by
    simp
  rw [hzeros,addVectors_map _ _ h]
  simp

end Sums

end FluxServe
