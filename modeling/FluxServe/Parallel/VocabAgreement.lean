import FluxServe.Parallel.VocabEmbedding
import Mathlib.Data.List.Perm.Basic

namespace FluxServe.Parallel

variable {R α : Type} {l : List α} {num org padding tpSize tpRank size addedSize dim : Nat}

/-- The padded sizes when they divide among the ranks. -/
structure VocabSplit (num org padding tpSize : Nat) where
  size : Nat
  addedSize : Nat
  org_pos : 0 < org
  org_le : org ≤ num
  padding_pos : 0 < padding
  tp_pos : 0 < tpSize
  orgPadded_eq : padVocabSize org padding = tpSize*size
  numPadded_eq : padVocabSize (tpSize*size+(num-org)) padding = tpSize*(size+addedSize)

theorem le_padVocabSize (n : Nat) (h : 0 < padding) : n ≤ padVocabSize n padding := by
  have hdiv := Nat.div_add_mod (n+padding-1) padding
  have hmod := Nat.mod_lt (n+padding-1) h
  rw [padVocabSize,Nat.mul_comm]
  omega

/-- The sizes of a vocabulary that the layer accepts. -/
def vocabSplit (horg : 0 < org) (hle : org ≤ num) (hpadding : 0 < padding) (htp : 0 < tpSize)
    (hdvd : tpSize ∣ padVocabSize org padding)
    (hdvd' : tpSize ∣ padVocabSize (padVocabSize org padding+(num-org)) padding) :
    VocabSplit num org padding tpSize :=
  have hsize : tpSize*(padVocabSize org padding/tpSize) = padVocabSize org padding :=
    Nat.mul_div_cancel' hdvd
  have hsum := Nat.mul_div_cancel' hdvd'
  { size := padVocabSize org padding/tpSize
    addedSize := padVocabSize (padVocabSize org padding+(num-org)) padding/tpSize-
      padVocabSize org padding/tpSize
    org_pos := horg
    org_le := hle
    padding_pos := hpadding
    tp_pos := htp
    orgPadded_eq := hsize.symm
    numPadded_eq := by
      have hmono : padVocabSize org padding/tpSize ≤
          padVocabSize (padVocabSize org padding+(num-org)) padding/tpSize :=
        Nat.div_le_div_right (Nat.le_trans (Nat.le_add_right _ _) (le_padVocabSize _ hpadding))
      rw [Nat.add_sub_cancel' hmono,hsum,hsize] }

namespace VocabSplit

variable (s : VocabSplit num org padding tpSize)

theorem org_fits : org ≤ tpSize*s.size := by
  rw [← s.orgPadded_eq]
  exact le_padVocabSize org s.padding_pos

theorem added_fits : num ≤ org+tpSize*s.addedSize := by
  have hle := le_padVocabSize (tpSize*s.size+(num-org)) s.padding_pos
  rw [s.numPadded_eq,Nat.mul_add] at hle
  have horg := s.org_le
  omega

/-- The indices of a rank. -/
def indices (tpRank : Nat) : VocabParallelEmbeddingShardIndices :=
  shardIndices num org s.size s.addedSize tpRank

theorem getIndices_eq (tpRank : Nat) :
    getIndices (tpSize*(s.size+s.addedSize)) (tpSize*s.size) num org tpRank tpSize =
      some (s.indices tpRank) := by
  have hadded : tpSize*(s.size+s.addedSize)-tpSize*s.size = tpSize*s.addedSize := by
    rw [Nat.mul_add,Nat.add_sub_cancel_left]
  simp [getIndices,divide_mul s.tp_pos,hadded,indices]

theorem numOrgElementsPadded_eq (tpRank : Nat) :
    (s.indices tpRank).numOrgElementsPadded = s.size := by
  simp [indices,shardIndices,VocabParallelEmbeddingShardIndices.numOrgElementsPadded]

theorem numAddedElementsPadded_eq (tpRank : Nat) :
    (s.indices tpRank).numAddedElementsPadded = s.addedSize := by
  simp [indices,shardIndices,VocabParallelEmbeddingShardIndices.numAddedElementsPadded]
  omega

theorem numOrgElements_eq (tpRank : Nat) :
    (s.indices tpRank).numOrgElements = min s.size (org-tpRank*s.size) := by
  simp [indices,shardIndices,VocabParallelEmbeddingShardIndices.numOrgElements]
  omega

theorem length_shard_org {table : List α} (h : table.length = org) (tpRank : Nat) :
    (shard s.size tpRank table).length = (s.indices tpRank).numOrgElements := by
  rw [numOrgElements_eq,shard,List.length_take,List.length_drop,h]

theorem length_shard_le (table : List α) (tpRank : Nat) :
    (shard s.size tpRank table).length ≤ s.size := by
  rw [shard,List.length_take]
  exact Nat.min_le_left _ _

end VocabSplit

variable [NonUnitalNonAssocSemiring R] {data : Nat → Nat → R} {table : Weight R}

/-- The rows of a rank: its rows of the table, and zeros. -/
def rankRows (s : VocabSplit num org padding tpSize) (dim : Nat) (table : Weight R) (tpRank : Nat) :
    Weight R :=
  let part := shard s.size tpRank table
  part ++ List.replicate (s.size+s.addedSize-part.length) (List.replicate dim 0)

theorem length_rankRows (s : VocabSplit num org padding tpSize) (h : table.length = org)
    (tpRank : Nat) : (rankRows s dim table tpRank).length = s.size+s.addedSize := by
  have hle := s.length_shard_le table tpRank
  simp only [rankRows,List.length_append,List.length_replicate]
  omega

/-- The layer of a rank once the table is loaded. -/
def rankEmbedding (s : VocabSplit num org padding tpSize) (dim : Nat) (table : Weight R)
    (tpRank : Nat) : VocabParallelEmbedding R where
  numEmbeddings := num
  orgVocabSize := org
  orgVocabSizePadded := tpSize*s.size
  numEmbeddingsPadded := tpSize*(s.size+s.addedSize)
  embeddingDim := dim
  tpSize := tpSize
  shardIndices := s.indices tpRank
  numEmbeddingsPerPartition := s.size+s.addedSize
  weight := rankRows s dim table tpRank

/-- What a rank takes of the table. -/
theorem narrow_org (s : VocabSplit num org padding tpSize) {l : List α} (h : l.length = org)
    (tpRank : Nat) :
    narrow (s.indices tpRank).orgVocabStartIndex
      ((s.indices tpRank).orgVocabEndIndex-(s.indices tpRank).orgVocabStartIndex) l =
      some (shard s.size tpRank l) := by
  have hstart : (s.indices tpRank).orgVocabStartIndex = min (tpRank*s.size) org := rfl
  have hend : (s.indices tpRank).orgVocabEndIndex = min (tpRank*s.size+s.size) org := rfl
  rw [hstart,hend,narrow,if_pos (by omega),shard]
  by_cases hin : tpRank*s.size ≤ org
  · rw [Nat.min_eq_left hin]
    by_cases hfull : tpRank*s.size+s.size ≤ org
    · rw [Nat.min_eq_left hfull,Nat.add_sub_cancel_left]
    · have hlen : (l.drop (tpRank*s.size)).length = org-tpRank*s.size := by
        rw [List.length_drop,h]
      rw [Nat.min_eq_right (by omega),List.take_of_length_le (Nat.le_of_eq hlen),
        List.take_of_length_le (by omega)]
  · rw [Nat.min_eq_right (by omega),List.drop_eq_nil_of_le (by omega),
      List.drop_eq_nil_of_le (by omega),List.take_nil,List.take_nil]

/-- The layer of a rank whose weight is arbitrary. -/
theorem embedding_new (s : VocabSplit num org padding tpSize) (table : Weight R) (tpRank : Nat) :
    ∃ old : Weight R, old.length = s.size+s.addedSize ∧
      VocabParallelEmbedding.new data num dim org padding tpRank tpSize =
        some { rankEmbedding s dim table tpRank with weight := old } := by
  have horg : ¬org = 0 := Nat.ne_of_gt s.org_pos
  have hle : tpSize*s.size ≤ tpSize*(s.size+s.addedSize) :=
    Nat.mul_le_mul_left _ (Nat.le_add_right _ _)
  have helements : (s.indices tpRank).numElementsPadded = s.size+s.addedSize := by
    rw [VocabParallelEmbeddingShardIndices.numElementsPadded,s.numOrgElementsPadded_eq,
      s.numAddedElementsPadded_eq]
  refine ⟨emptyWeight data (s.size+s.addedSize) dim,length_emptyWeight data _ _,?_⟩
  simp [VocabParallelEmbedding.new,horg,s.orgPadded_eq,s.numPadded_eq,hle,s.getIndices_eq,
    divide_mul s.tp_pos,helements,rankEmbedding]

theorem embedding_weightLoader (s : VocabSplit num org padding tpSize) (hrows : table.length = org)
    (hcolumns : hasColumns dim table = true) (tpRank : Nat) {old : Weight R}
    (hold : old.length = s.size+s.addedSize) :
    ({ rankEmbedding s dim table tpRank with weight := old } :
      VocabParallelEmbedding R).weightLoader table = some (rankEmbedding s dim table tpRank) := by
  have hshort := s.length_shard_le table tpRank
  have hfits : (shard s.size tpRank table).length ≤ s.size+s.addedSize := by omega
  simp [VocabParallelEmbedding.weightLoader,rankEmbedding,hrows,narrow_org s hrows tpRank,hold,
    hfits,hasColumns_shard hcolumns,rankRows]

theorem embedding_load (s : VocabSplit num org padding tpSize) (hrows : table.length = org)
    (hcolumns : hasColumns dim table = true) (tpRank : Nat) :
    VocabParallelEmbedding.loaded data table num dim org padding tpRank tpSize =
      some (rankEmbedding s dim table tpRank) := by
  obtain ⟨old,hold,hnew⟩ := @embedding_new _ _ _ _ _ dim _ data s table tpRank
  rw [VocabParallelEmbedding.loaded,hnew]
  exact embedding_weightLoader s hrows hcolumns tpRank hold

end FluxServe.Parallel
