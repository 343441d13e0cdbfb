import FluxServe.Parallel.VocabAgreement
import Mathlib.Algebra.Ring.Int.Defs

namespace FluxServe.Parallel

variable {R : Type} [NonUnitalNonAssocSemiring R] {num org padding tpSize tpRank dim i : Nat}
  {table : Weight R} (s : VocabSplit num org padding tpSize)

/-- An id of the rank's own part of the vocabulary. -/
theorem masked_own (hi : i < org) (hrank : tpRank*s.size ≤ i) (hend : i < tpRank*s.size+s.size) :
    getMaskedInputAndMask i (s.indices tpRank).orgVocabStartIndex
      (s.indices tpRank).orgVocabEndIndex (s.indices tpRank).numOrgVocabPadding
      (s.indices tpRank).addedVocabStartIndex (s.indices tpRank).addedVocabEndIndex =
      (((i-tpRank*s.size : Nat) : Int),false) := by
  have hstart : (s.indices tpRank).orgVocabStartIndex = min (tpRank*s.size) org := rfl
  have hstop : (s.indices tpRank).orgVocabEndIndex = min (tpRank*s.size+s.size) org := rfl
  have hadded : org ≤ (s.indices tpRank).addedVocabStartIndex := by
    have hle := s.org_le
    show org ≤ min (tpRank*s.addedSize+org) num
    omega
  have hmask : ¬((s.indices tpRank).addedVocabStartIndex : Int) ≤ i := by omega
  have hmask' : ((s.indices tpRank).orgVocabStartIndex : Int) ≤ i ∧
      (i : Int) < (s.indices tpRank).orgVocabEndIndex := by omega
  simp only [getMaskedInputAndMask,hmask,hmask',false_and,decide_false,decide_true,and_self]
  simp
  omega

/-- An added id, which the rank reads behind its padded part of the vocabulary. -/
theorem masked_added {input : Int}
    (hin : ((s.indices tpRank).addedVocabStartIndex : Int) ≤ input)
    (hend : input < (s.indices tpRank).addedVocabEndIndex) :
    ∃ k : Nat, s.size ≤ k ∧ k < s.size+s.addedSize ∧
      getMaskedInputAndMask input (s.indices tpRank).orgVocabStartIndex
        (s.indices tpRank).orgVocabEndIndex (s.indices tpRank).numOrgVocabPadding
        (s.indices tpRank).addedVocabStartIndex (s.indices tpRank).addedVocabEndIndex =
        ((k : Int),false) := by
  have hle := s.org_le
  have hstart : (s.indices tpRank).orgVocabStartIndex = min (tpRank*s.size) org := rfl
  have hstop : (s.indices tpRank).orgVocabEndIndex = min (tpRank*s.size+s.size) org := rfl
  have hadded : (s.indices tpRank).addedVocabStartIndex = min (tpRank*s.addedSize+org) num := rfl
  have hlast : (s.indices tpRank).addedVocabEndIndex =
      min (tpRank*s.addedSize+s.addedSize+org) num := rfl
  have hpadding : (s.indices tpRank).numOrgVocabPadding =
      s.size-((s.indices tpRank).orgVocabEndIndex-(s.indices tpRank).orgVocabStartIndex) := by
    rw [VocabParallelEmbeddingShardIndices.numOrgVocabPadding,s.numOrgElementsPadded_eq]
    rfl
  refine ⟨s.size+(input-(s.indices tpRank).addedVocabStartIndex).toNat,by omega,by omega,?_⟩
  have hmask : ¬input < (s.indices tpRank).orgVocabEndIndex := by omega
  simp only [getMaskedInputAndMask,hmask,hin,hend,and_false,decide_false,decide_true,and_self]
  simp
  omega

/-- An id of no part of the rank. -/
theorem masked_none {input : Int}
    (horg : ¬(((s.indices tpRank).orgVocabStartIndex : Int) ≤ input ∧
      input < (s.indices tpRank).orgVocabEndIndex))
    (hadded : ¬(((s.indices tpRank).addedVocabStartIndex : Int) ≤ input ∧
      input < (s.indices tpRank).addedVocabEndIndex)) :
    getMaskedInputAndMask input (s.indices tpRank).orgVocabStartIndex
      (s.indices tpRank).orgVocabEndIndex (s.indices tpRank).numOrgVocabPadding
      (s.indices tpRank).addedVocabStartIndex (s.indices tpRank).addedVocabEndIndex =
      (0,true) := by
  simp [getMaskedInputAndMask,horg,hadded]

/-- Behind its rows of the table a rank holds zeros. -/
theorem rankRows_zeros (hrows : table.length = org) {k : Nat}
    (hk : (s.indices tpRank).numOrgElements ≤ k) (hlt : k < s.size+s.addedSize) :
    (rankRows s dim table tpRank)[k]? = some (List.replicate dim 0) := by
  have hlen := s.length_shard_org hrows tpRank
  rw [rankRows,List.getElem?_append_right (by omega),List.getElem?_replicate,if_pos (by omega)]

theorem rankRows_own (hrows : table.length = org) (hi : i < org) (hrank : tpRank*s.size ≤ i)
    (hend : i < tpRank*s.size+s.size) :
    (rankRows s dim table tpRank)[i-tpRank*s.size]? = table[i]? := by
  have hlen := s.length_shard_org hrows tpRank
  rw [s.numOrgElements_eq] at hlen
  rw [rankRows,List.getElem?_append_left (by omega),getElem?_shard,if_pos (by omega)]
  congr 1
  omega

theorem size_pos : 0 < s.size := by
  have hfits := s.org_fits
  have horg := s.org_pos
  exact Nat.pos_of_ne_zero fun hzero => by simp [hzero] at hfits; omega

theorem length_rankRow (hcolumns : hasColumns dim table = true)
    {row : List R} (hrow : row ∈ rankRows s dim table tpRank) : row.length = dim := by
  rcases List.mem_append.mp hrow with hpart | hzero
  · exact hasColumns_iff.mp (hasColumns_shard hcolumns) row hpart
  · rw [(List.mem_replicate.mp hzero).2,List.length_replicate]

theorem outputParallel_own (htp : 1 < tpSize) (hrows : table.length = org) (hi : i < org)
    (hrank : tpRank*s.size ≤ i) (hend : i < tpRank*s.size+s.size) :
    (rankEmbedding s dim table tpRank).outputParallel i = table[i]? := by
  have hmasked := masked_own s hi hrank hend
  have hrow : (rankRows s dim table tpRank)[i-tpRank*s.size]? = table[i]? :=
    rankRows_own s hrows hi hrank hend
  simp only [VocabParallelEmbedding.outputParallel,rankEmbedding,htp,if_true,hmasked]
  simp [VocabParallelEmbedding.embedding,hrow]

/-- A rank adds zeros for every id but the ones of its own rows of the table. -/
theorem outputParallel_other (htp : 1 < tpSize) (hrows : table.length = org)
    (hcolumns : hasColumns dim table = true) {input : Int}
    (hin : ¬(((s.indices tpRank).orgVocabStartIndex : Int) ≤ input ∧
      input < (s.indices tpRank).orgVocabEndIndex)) :
    (rankEmbedding s dim table tpRank).outputParallel input = some (List.replicate dim 0) := by
  by_cases hadded : ((s.indices tpRank).addedVocabStartIndex : Int) ≤ input ∧
      input < (s.indices tpRank).addedVocabEndIndex
  · obtain ⟨k,hk,hlt,hmasked⟩ := masked_added s hadded.1 hadded.2
    have hnum := s.numOrgElements_eq tpRank
    have hrow : (rankRows s dim table tpRank)[k]? = some (List.replicate dim 0) :=
      rankRows_zeros s hrows (by omega) hlt
    simp only [VocabParallelEmbedding.outputParallel,rankEmbedding,htp,if_true,hmasked]
    simp [VocabParallelEmbedding.embedding,hrow]
  · have hmasked := masked_none s hin hadded
    have hpos : 0 < (rankRows s dim table tpRank).length := by
      have hsize := size_pos s
      rw [length_rankRows s hrows]
      omega
    have hrow := List.getElem?_eq_getElem hpos
    have hdim := length_rankRow s hcolumns (List.getElem_mem hpos)
    simp only [VocabParallelEmbedding.outputParallel,rankEmbedding,htp,if_true,hmasked]
    simp [VocabParallelEmbedding.embedding,hrow,hdim]

/-- Of all ranks only the one that holds the id's row adds something to the embedding. -/
theorem forward_own {ranks : Nat → VocabParallelEmbedding R}
    (hranks : ∀ r < tpSize, ranks r = rankEmbedding s dim table r) (htp : 1 < tpSize)
    (hrows : table.length = org) (hcolumns : hasColumns dim table = true) (hi : i < org) :
    VocabParallelEmbedding.forward tpSize ranks i = table[i]? := by
  have hsize := size_pos s
  have hfits := s.org_fits
  have howner : i/s.size < tpSize :=
    Nat.div_lt_of_lt_mul (Nat.lt_of_lt_of_le hi (Nat.mul_comm _ _ ▸ hfits))
  have hlen : i < table.length := hrows ▸ hi
  have hrow := List.getElem?_eq_getElem hlen
  have hdim := hasColumns_iff.mp hcolumns _ (List.getElem_mem hlen)
  have houtputs : (List.range tpSize).mapM (fun r => (ranks r).outputParallel i) =
      some ((List.range tpSize).map fun r => if r = i/s.size then table[i]
        else List.replicate table[i].length 0) := by
    refine mapM_eq_map fun r hr => ?_
    rw [hranks r (List.mem_range.mp hr)]
    by_cases hown : r = i/s.size
    · have hle := Nat.div_mul_le_self i s.size
      have hlt := Nat.lt_div_mul_add hsize (a := i)
      rw [if_pos hown,hown,outputParallel_own s htp hrows hi hle hlt,hrow]
    · rw [if_neg hown,hdim]
      refine outputParallel_other s htp hrows hcolumns fun hin => hown ?_
      have hstart : (s.indices r).orgVocabStartIndex = min (r*s.size) org := rfl
      have hstop : (s.indices r).orgVocabEndIndex = min (r*s.size+s.size) org := rfl
      refine (Nat.div_eq_of_lt_le ?_ ?_).symm
      · omega
      · rw [Nat.succ_mul]
        omega
  rw [VocabParallelEmbedding.forward,houtputs,Option.map_some,addVectors_single howner,hrow]

/-- No rank holds a row of the table for another id. -/
theorem forward_other {ranks : Nat → VocabParallelEmbedding R}
    (hranks : ∀ r < tpSize, ranks r = rankEmbedding s dim table r) (htp : 1 < tpSize)
    (hrows : table.length = org) (hcolumns : hasColumns dim table = true) {input : Int}
    (hin : ¬(0 ≤ input ∧ input < org)) :
    VocabParallelEmbedding.forward tpSize ranks input = some (List.replicate dim 0) := by
  have houtputs : (List.range tpSize).mapM (fun r => (ranks r).outputParallel input) =
      some ((List.range tpSize).map fun _ => List.replicate dim 0) := by
    refine mapM_eq_map fun r hr => ?_
    rw [hranks r (List.mem_range.mp hr)]
    refine outputParallel_other s htp hrows hcolumns fun hown => hin ?_
    have hstop : (s.indices r).orgVocabEndIndex = min (r*s.size+s.size) org := rfl
    omega
  rw [VocabParallelEmbedding.forward,houtputs,Option.map_some,
    addVectors_zeros (Nat.zero_lt_of_lt htp)]

/-- The layer of a single rank looks every id up as it is. -/
theorem forward_single (s : VocabSplit num org padding 1)
    {ranks : Nat → VocabParallelEmbedding R} (hranks : ranks 0 = rankEmbedding s dim table 0)
    (hrows : table.length = org) (input : Int) :
    VocabParallelEmbedding.forward 1 ranks input =
      if 0 ≤ input ∧ input < org then table[input.toNat]?
      else if 0 ≤ input ∧ input < (s.size+s.addedSize : Nat) then some (List.replicate dim 0)
      else none := by
  have hforward : VocabParallelEmbedding.forward 1 ranks input =
      if 0 ≤ input then (rankRows s dim table 0)[input.toNat]? else none := by
    simp only [VocabParallelEmbedding.forward,List.range_one,List.mapM_cons,List.mapM_nil,hranks]
    simp only [VocabParallelEmbedding.outputParallel,rankEmbedding,VocabParallelEmbedding.embedding,
      Nat.lt_irrefl,if_false]
    cases hrow : if 0 ≤ input then (rankRows s dim table 0)[input.toNat]? else none with
    | none => rfl
    | some row => rfl
  have hfits := s.org_fits
  have hnum := s.numOrgElements_eq 0
  rw [hforward]
  by_cases hneg : 0 ≤ input
  · obtain ⟨i,rfl⟩ := Int.eq_ofNat_of_zero_le hneg
    by_cases hi : i < org
    · have hrow : (rankRows s dim table 0)[i-0*s.size]? = table[i]? :=
        rankRows_own s hrows hi (by omega) (by omega)
      simpa [hi] using hrow
    · by_cases hlt : i < s.size+s.addedSize
      · have hrow : (rankRows s dim table 0)[i]? = some (List.replicate dim 0) :=
          rankRows_zeros s hrows (by omega) hlt
        simp [hi,hrow,show (i : Int) < s.size+s.addedSize by omega]
      · have hrow : (rankRows s dim table 0)[i]? = none := by
          rw [List.getElem?_eq_none_iff,length_rankRows s hrows]
          omega
        simp [hi,hrow,show ¬(i : Int) < s.size+s.addedSize by omega]
  · simp [hneg]

/-- The embedding of an id by all ranks, each with its rows of the table. -/
theorem forward_eq (hrows : table.length = org) (hcolumns : hasColumns dim table = true)
    (input : Int) :
    VocabParallelEmbedding.forward tpSize (rankEmbedding s dim table) input =
      if 0 ≤ input ∧ input < org then table[input.toNat]?
      else if 1 < tpSize ∨ 0 ≤ input ∧ input < (tpSize*(s.size+s.addedSize) : Nat) then
        some (List.replicate dim 0)
      else none := by
  by_cases hmany : 1 < tpSize
  · by_cases hin : 0 ≤ input ∧ input < org
    · obtain ⟨i,rfl⟩ := Int.eq_ofNat_of_zero_le hin.1
      have hi : i < org := Int.ofNat_lt.mp hin.2
      rw [if_pos hin]
      exact forward_own s (fun _ _ => rfl) hmany hrows hcolumns hi
    · rw [if_neg hin,if_pos (.inl hmany)]
      exact forward_other s (fun _ _ => rfl) hmany hrows hcolumns hin
  · have htp := s.tp_pos
    obtain rfl : tpSize = 1 := by omega
    simp only [Nat.lt_irrefl,false_or,Nat.one_mul]
    exact forward_single s rfl hrows input

/-- The ranks together look up the table. Several of them give zeros for an id that it does not
have, where a single one fails for an id that is not padding either. -/
theorem embedding_lookup (data : Nat → Nat → Nat → R) (horg : 0 < org) (hle : org ≤ num)
    (hpadding : 0 < padding) (htp : 0 < tpSize) (hdvd : tpSize ∣ padVocabSize org padding)
    (hdvd' : tpSize ∣ padVocabSize (padVocabSize org padding+(num-org)) padding)
    (hrows : table.length = org) (hcolumns : hasColumns dim table = true) :
    ∃ ranks : Nat → VocabParallelEmbedding R,
      (∀ r < tpSize, VocabParallelEmbedding.loaded (data r) table num dim org padding r tpSize =
        some (ranks r)) ∧
      ∀ input : Int, VocabParallelEmbedding.forward tpSize ranks input =
        if 0 ≤ input ∧ input < org then table[input.toNat]?
        else if 1 < tpSize ∨
            0 ≤ input ∧ input < padVocabSize (padVocabSize org padding+(num-org)) padding then
          some (List.replicate dim 0)
        else none := by
  let s := vocabSplit horg hle hpadding htp hdvd hdvd'
  refine ⟨rankEmbedding s dim table,fun r _ => embedding_load s hrows hcolumns r,
    fun input => ?_⟩
  have hpadded : padVocabSize (padVocabSize org padding+(num-org)) padding =
      tpSize*(s.size+s.addedSize) := by
    rw [s.orgPadded_eq,s.numPadded_eq]
  rw [hpadded]
  exact forward_eq s hrows hcolumns input

theorem embedding_lookup_two :
    ∃ ranks : Nat → VocabParallelEmbedding Int,
      (∀ r < 2, VocabParallelEmbedding.loaded (fun _ _ => 9) [[1,2],[3,4],[5,6]] 4 2 3 2 r 2 =
        some (ranks r)) ∧
      ∀ input : Int, VocabParallelEmbedding.forward 2 ranks input =
        if 0 ≤ input ∧ input < (3 : Nat) then [[1,2],[3,4],[5,6]][input.toNat]?
        else if 1 < 2 ∨ 0 ≤ input ∧ input < padVocabSize (padVocabSize 3 2+(4-3)) 2 then
          some (List.replicate 2 0)
        else none :=
  embedding_lookup (fun _ _ _ => 9) (by decide) (by decide) (by decide) (by decide) (by decide)
    (by decide) rfl rfl

end FluxServe.Parallel
