import FluxServe.Llada.BlockCommit
import Mathlib.Data.List.Sort

namespace FluxServe.Llada

/-- `cuda_graph_capture_batch_sizes` as `RunnerConfig` takes it: the sizes once each in ascending
order, or the error about sizes that are neither one nor positive and even. -/
def captureBatchSizes (sizes : List Int) : Option (List Nat) :=
  let sizes := sizes.dedup.insertionSort (· ≤ ·)
  if sizes.isEmpty || sizes.any fun x => decide (x ≤ 0 ∨ x ≠ 1 ∧ x % 2 ≠ 0) then none
  else some (sizes.map Int.toNat)

/-- What is over once all captured sizes are taken out of a batch, the greatest ones first. -/
def remainder (sizes : List Nat) (batchSize : Nat) : Nat :=
  sizes.foldr (fun bucket n => n % bucket) batchSize

namespace LladaRunner

section Greedy

variable {sizes : List Nat} {bucket size batchSize : Nat}

theorem decomposeBatchSize_nil (batchSize : Nat) : decomposeBatchSize [] batchSize = [] := rfl

theorem decomposeBatchSize_cons (bucket : Nat) (sizes : List Nat) (batchSize : Nat) :
    decomposeBatchSize (bucket::sizes) batchSize = decomposeBatchSize sizes batchSize ++
      List.replicate (remainder sizes batchSize/bucket) bucket := by
  have hpair (sizes : List Nat) : (sizes.reverse.foldl (fun (x : List Nat × Nat) bucket =>
      (x.1 ++ List.replicate (x.2/bucket) bucket,x.2 % bucket)) ([],batchSize)).2 =
      remainder sizes batchSize := by
    rw [List.foldl_reverse]
    induction sizes with
    | nil => rfl
    | cons bucket sizes ih =>
      rw [List.foldr_cons]
      exact congrArg (· % bucket) ih
  unfold decomposeBatchSize
  rw [List.reverse_cons,List.foldl_append,List.foldl_cons,List.foldl_nil,hpair]

theorem decomposeBatchSize_sum (sizes : List Nat) (batchSize : Nat) :
    (decomposeBatchSize sizes batchSize).sum + remainder sizes batchSize = batchSize := by
  induction sizes with
  | nil => exact Nat.zero_add _
  | cons bucket sizes ih =>
    have hdiv := Nat.div_add_mod (remainder sizes batchSize) bucket
    have hrem : remainder (bucket::sizes) batchSize = remainder sizes batchSize % bucket := rfl
    rw [decomposeBatchSize_cons,List.sum_append,List.sum_replicate_nat,hrem]
    rw [Nat.mul_comm] at hdiv
    omega

theorem mem_of_mem_decompose (h : size ∈ decomposeBatchSize sizes batchSize) : size ∈ sizes := by
  induction sizes with
  | nil => cases h
  | cons bucket sizes ih =>
    rw [decomposeBatchSize_cons,List.mem_append] at h
    obtain h | h := h
    · exact List.mem_cons_of_mem _ (ih h)
    · rw [List.eq_of_mem_replicate h]
      exact List.mem_cons_self

theorem decompose_pos (h : size ∈ decomposeBatchSize sizes batchSize)
    (hpos : ∀ size ∈ sizes, 0 < size) : 0 < size := hpos size (mem_of_mem_decompose h)

/-- A size that fits is taken, or a greater one. -/
theorem exists_ge_mem_decompose (hpos : ∀ size ∈ sizes, 0 < size)
    (hsorted : sizes.Pairwise (· < ·)) (hmem : size ∈ sizes) (hle : size ≤ batchSize) :
    ∃ part ∈ decomposeBatchSize sizes batchSize, size ≤ part := by
  induction sizes with
  | nil => cases hmem
  | cons bucket sizes ih =>
    have hpos' : ∀ size ∈ sizes, 0 < size := fun size h => hpos size (List.mem_cons_of_mem _ h)
    have hsorted' := List.pairwise_cons.mp hsorted
    rw [decomposeBatchSize_cons]
    obtain rfl | hmem := List.mem_cons.mp hmem
    · by_cases hnil : decomposeBatchSize sizes batchSize = []
      · have hsum := decomposeBatchSize_sum sizes batchSize
        rw [hnil,List.sum_nil,Nat.zero_add] at hsum
        have hdiv : remainder sizes batchSize/size ≠ 0 := by
          rw [hsum]
          exact (Nat.div_pos hle (hpos size List.mem_cons_self)).ne'
        exact ⟨size,List.mem_append_right _ (List.mem_replicate.mpr ⟨hdiv,rfl⟩),le_rfl⟩
      · obtain ⟨part,hpart⟩ := List.exists_mem_of_ne_nil _ hnil
        exact ⟨part,List.mem_append_left _ hpart,(hsorted'.1 part (mem_of_mem_decompose hpart)).le⟩
    · obtain ⟨part,hpart,hle⟩ := ih hpos' hsorted'.2 hmem
      exact ⟨part,List.mem_append_left _ hpart,hle⟩

/-- A batch is not split where what is taken out of it is nothing or a captured size. -/
theorem decompose_length_le_one_iff (hpos : ∀ size ∈ sizes, 0 < size)
    (hsorted : sizes.Pairwise (· < ·)) : (decomposeBatchSize sizes batchSize).length ≤ 1 ↔
      batchSize - remainder sizes batchSize ∈ 0::sizes := by
  have hsum := decomposeBatchSize_sum sizes batchSize
  have htaken : batchSize - remainder sizes batchSize =
      (decomposeBatchSize sizes batchSize).sum := by omega
  rw [htaken]
  constructor
  · intro hlength
    cases hparts : decomposeBatchSize sizes batchSize with
    | nil => exact List.mem_cons_self
    | cons part parts =>
      have hnil : parts = [] := by
        rw [hparts,List.length_cons] at hlength
        exact List.length_eq_zero_iff.mp (by omega)
      have hmem : part ∈ decomposeBatchSize sizes batchSize := hparts ▸ List.mem_cons_self
      rw [hnil,List.sum_singleton]
      exact List.mem_cons_of_mem _ (mem_of_mem_decompose hmem)
  · intro hmem
    have hone (part : Nat) (hpart : part ∈ decomposeBatchSize sizes batchSize)
        (hge : (decomposeBatchSize sizes batchSize).sum ≤ part) :
        (decomposeBatchSize sizes batchSize).length ≤ 1 := by
      have hperm := List.perm_cons_erase hpart
      have hrest := hperm.sum_eq
      rw [List.sum_cons] at hrest
      have hzero : ((decomposeBatchSize sizes batchSize).erase part).sum = 0 := by omega
      have hnil : (decomposeBatchSize sizes batchSize).erase part = [] := by
        rw [List.eq_nil_iff_forall_not_mem]
        intro other hother
        have hle := List.single_le_sum (fun _ _ => Nat.zero_le _) other hother
        have hother' := decompose_pos (List.mem_of_mem_erase hother) hpos
        omega
      rw [hperm.length_eq,hnil]
      exact le_rfl
    obtain hzero | hsize := List.mem_cons.mp hmem
    · cases hparts : decomposeBatchSize sizes batchSize with
      | nil => exact Nat.zero_le _
      | cons part parts =>
        have hpart : part ∈ decomposeBatchSize sizes batchSize := hparts ▸ List.mem_cons_self
        rw [← hparts]
        exact hone part hpart (by omega)
    · obtain ⟨part,hpart,hge⟩ := exists_ge_mem_decompose hpos hsorted hsize
        (Nat.le_of_add_right_le hsum.le)
      exact hone part hpart hge

/-- A captured size is one part. -/
theorem decompose_captured (hpos : ∀ size ∈ sizes, 0 < size) (hsorted : sizes.Pairwise (· < ·))
    (hmem : size ∈ sizes) : (decomposeBatchSize sizes size).length ≤ 1 := by
  obtain ⟨part,hpart,hge⟩ := exists_ge_mem_decompose hpos hsorted hmem le_rfl
  have hsum := decomposeBatchSize_sum sizes size
  have hle := List.single_le_sum (fun _ _ => Nat.zero_le _) part hpart
  rw [decompose_length_le_one_iff hpos hsorted]
  have htaken : size - remainder sizes size = size := by omega
  rw [htaken]
  exact List.mem_cons_of_mem _ hmem

end Greedy

section Parts

theorem splitParts_flatten_eq_take (parts seqIds : List Nat) :
    (splitParts parts seqIds).flatten = seqIds.take parts.sum := by
  induction parts generalizing seqIds with
  | nil => rfl
  | cons part parts ih =>
    rw [List.sum_cons,List.take_add,← ih]
    rfl

theorem length_of_mem_splitParts {parts seqIds part : List Nat} (hle : parts.sum ≤ seqIds.length)
    (h : part ∈ splitParts parts seqIds) : part.length ∈ parts := by
  induction parts generalizing seqIds with
  | nil => cases h
  | cons size parts ih =>
    rw [List.sum_cons] at hle
    obtain rfl | h := List.mem_cons.mp h
    · rw [List.length_take_of_le (by omega)]
      exact List.mem_cons_self
    · exact List.mem_cons_of_mem _ (ih (by rw [List.length_drop]; omega) h)

variable {Logits Kv S : Type} (R : LladaRunner Logits Kv S) (seqIds : List Nat)

/-- A call of `_decode_selected_batch` runs the decoder once on each row: the batches it calls
itself with hold them all, and none of these is split further. -/
structure RunsOnce : Prop where
  partition : (R.components seqIds).flatten.Perm seqIds
  whole : ∀ part ∈ R.components seqIds, R.components part = [part]

variable {R seqIds} {captured : List Int} {sizes : List Nat}

theorem captureBatchSizes_sorted (h : captureBatchSizes captured = some sizes) :
    (∀ size ∈ sizes, 0 < size) ∧ sizes.Pairwise (· < ·) := by
  unfold captureBatchSizes at h
  dsimp only at h
  split at h
  · cases h
  · next haccepted =>
    cases h
    rw [Bool.or_eq_true,not_or] at haccepted
    have hpos : ∀ x ∈ captured.dedup.insertionSort (· ≤ ·), 0 < x := by
      intro x hx
      have hany := haccepted.2
      rw [List.any_eq_true,not_exists] at hany
      have hx' := hany x
      simp only [hx,true_and,decide_eq_true_eq,not_or] at hx'
      exact not_le.mp hx'.1
    have hnd : (captured.dedup.insertionSort (· ≤ ·)).Nodup :=
      (List.perm_insertionSort _ _).nodup_iff.mpr (List.nodup_dedup _)
    have hle := List.pairwise_insertionSort (· ≤ ·) captured.dedup
    constructor
    · intro size hsize
      obtain ⟨x,hx,rfl⟩ := List.mem_map.mp hsize
      have hx' := hpos x hx
      omega
    · rw [List.pairwise_map]
      apply (hle.and hnd).imp_of_mem
      intro x y hx hy hlt
      have hx' := hpos x hx
      have hne := hlt.2
      have hle' := hlt.1
      omega

/-- Every row is decoded once by a call if and only if no row is over once the captured sizes are
taken out of the batch, or what is taken out is one part at most. -/
theorem decodeSelected_runsOnce_iff (haccepts : captureBatchSizes captured = some sizes)
    (hdecomposed : R.captureSizes = some sizes) : R.RunsOnce seqIds ↔
      remainder sizes seqIds.length = 0 ∨
        seqIds.length - remainder sizes seqIds.length ∈ 0::sizes := by
  obtain ⟨hpos,hsorted⟩ := captureBatchSizes_sorted haccepts
  have hunfold (ids : List Nat) : R.components ids =
      if 1 < (decomposeBatchSize sizes ids.length).length then
        splitParts (decomposeBatchSize sizes ids.length) ids
      else [ids] := by
    unfold components
    rw [hdecomposed]
  have hsum := decomposeBatchSize_sum sizes seqIds.length
  rw [← decompose_length_le_one_iff hpos hsorted]
  by_cases hsplit : 1 < (decomposeBatchSize sizes seqIds.length).length
  · have hparts := hunfold seqIds
    rw [if_pos hsplit] at hparts
    have htake : (R.components seqIds).flatten =
        seqIds.take (decomposeBatchSize sizes seqIds.length).sum := by
      rw [hparts,splitParts_flatten_eq_take]
    constructor
    · intro honce
      have hlength := honce.partition.length_eq
      rw [htake,List.length_take] at hlength
      exact .inl (by omega)
    · intro hrem
      have hzero : remainder sizes seqIds.length = 0 := hrem.resolve_right (by omega)
      constructor
      · rw [htake,List.take_of_length_le (by omega)]
      · intro part hpart
        rw [hparts] at hpart
        have hmem := mem_of_mem_decompose (length_of_mem_splitParts (by omega) hpart)
        have hone := decompose_captured hpos hsorted hmem
        rw [hunfold,if_neg (by omega)]
  · have hwhole := hunfold seqIds
    rw [if_neg hsplit] at hwhole
    constructor
    · intro _
      exact .inr (not_lt.mp hsplit)
    · intro _
      constructor
      · rw [hwhole,List.flatten_cons,List.flatten_nil,List.append_nil]
      · intro part hpart
        rw [hwhole,List.mem_singleton] at hpart
        rw [hpart,hwhole]

/-- A runner with graphs for batches of these sizes. -/
def capturedRunner (sizes : List Nat) : LladaRunner (Fin 2 → Fin 4 → Nat) Token (Nat → Unit) :=
  { smallRunner .flashinferMaxBatch false 2 with captureSizes := some sizes }

/-- With graphs for one and two rows a batch of five is decoded once. -/
theorem five_rows_runOnce : (capturedRunner [1,2]).RunsOnce [0,1,2,3,4] := by
  have haccepts : captureBatchSizes [2,1] = some [1,2] := by decide
  exact (decodeSelected_runsOnce_iff haccepts rfl).mpr (by decide)

/-- With graphs for two rows only the last one of five is left out. -/
theorem five_rows_not_runOnce : captureBatchSizes [2] = some [2] ∧
    ¬(capturedRunner [2]).RunsOnce [0,1,2,3,4] := by
  constructor
  · decide
  · intro h
    have hmem : 4 ∈ ((capturedRunner [2]).components [0,1,2,3,4]).flatten :=
      h.partition.mem_iff.mpr (by decide)
    revert hmem
    decide

end Parts

end LladaRunner

end FluxServe.Llada
