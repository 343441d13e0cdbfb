import FluxServe.Parallel.VocabLookup

namespace FluxServe.Parallel

variable {R : Type} {num org padding tpSize tpRank dim : Nat}

namespace VocabSplit

variable (s : VocabSplit num org padding tpSize)

/-- Where the logits of the table's rows stand among the gathered ones. -/
def baseSlots : List Nat :=
  (List.range tpSize).flatMap fun r =>
    List.range' ((s.size+s.addedSize)*r) (s.indices r).numOrgElements

def addedSlots : List Nat :=
  (List.range tpSize).flatMap fun r =>
    List.range' ((s.size+s.addedSize)*r+s.size) (s.indices r).numAddedElements

def paddingSlots : List Nat :=
  (List.range tpSize).flatMap fun r =>
    List.range' ((s.size+s.addedSize)*r+(s.indices r).numOrgElements)
        (s.size-(s.indices r).numOrgElements) ++
      List.range' ((s.size+s.addedSize)*r+s.size+(s.indices r).numAddedElements)
        (s.addedSize-(s.indices r).numAddedElements)

def fullMapping : List Nat := s.baseSlots ++ s.addedSlots ++ s.paddingSlots

theorem numAddedElements_eq (tpRank : Nat) :
    (s.indices tpRank).numAddedElements = min s.addedSize (num-org-tpRank*s.addedSize) := by
  have hle := s.org_le
  simp [indices,shardIndices,VocabParallelEmbeddingShardIndices.numAddedElements]
  omega

/-- The slots of a rank. -/
theorem slots_perm (r : Nat) :
    (List.range' ((s.size+s.addedSize)*r) (s.indices r).numOrgElements ++
      List.range' ((s.size+s.addedSize)*r+s.size) (s.indices r).numAddedElements ++
      (List.range' ((s.size+s.addedSize)*r+(s.indices r).numOrgElements)
        (s.size-(s.indices r).numOrgElements) ++
      List.range' ((s.size+s.addedSize)*r+s.size+(s.indices r).numAddedElements)
        (s.addedSize-(s.indices r).numAddedElements))).Perm
      (List.range' ((s.size+s.addedSize)*r) (s.size+s.addedSize)) := by
  have hnum := s.numOrgElements_eq r
  have hadded := s.numAddedElements_eq r
  generalize (s.indices r).numOrgElements = n at *
  generalize (s.indices r).numAddedElements = m at *
  generalize (s.size+s.addedSize)*r = start
  have hsplit : List.range' start (s.size+s.addedSize) =
      List.range' start n ++ List.range' (start+n) (s.size-n) ++
        (List.range' (start+s.size) m ++ List.range' (start+s.size+m) (s.addedSize-m)) := by
    rw [List.range'_append_1,List.range'_append_1,Nat.add_sub_cancel' (by omega),
      Nat.add_sub_cancel' (by omega),List.range'_append_1]
  rw [hsplit]
  simp only [List.append_assoc]
  refine List.Perm.append_left _ ?_
  simp only [← List.append_assoc]
  exact List.perm_append_comm.append_right _

/-- No logit is left out and none is read twice. -/
theorem fullMapping_perm : s.fullMapping.Perm (List.range (tpSize*(s.size+s.addedSize))) := by
  have hranges : ((List.range tpSize).flatMap fun r =>
      List.range' ((s.size+s.addedSize)*r) (s.size+s.addedSize)) =
      List.range (tpSize*(s.size+s.addedSize)) := by
    rw [← List.flatMap_congr fun r hr => shard_range (List.mem_range.mp hr)]
    exact flatMap_shard (Nat.le_of_eq List.length_range)
  rw [← hranges]
  refine ((List.flatMap_append_perm _ _ _).append_right _).trans ?_
  refine (List.flatMap_append_perm _ _ _).trans ?_
  exact List.Perm.flatMap_left _ fun r _ => s.slots_perm r

end VocabSplit

variable [NonUnitalNonAssocSemiring R] {table : Weight R} {ranks : Nat → VocabParallelEmbedding R}
  (s : VocabSplit num org padding tpSize)

theorem mapping_eq (htp : 1 < tpSize) :
    (rankEmbedding s dim table tpRank).getShardedToFullMapping = some (some s.fullMapping) := by
  have hshards : (List.range tpSize).mapM (fun r =>
      getIndices (tpSize*(s.size+s.addedSize)) (tpSize*s.size) num org r tpSize) =
      some ((List.range tpSize).map s.indices) :=
    mapM_eq_map fun r _ => s.getIndices_eq r
  have hlen : s.fullMapping.length = tpSize*(s.size+s.addedSize) := by
    rw [s.fullMapping_perm.length_eq,List.length_range]
  have hranked : ((List.range tpSize).map s.indices).mapIdx
      (fun r x => ((s.size+s.addedSize)*r,x)) =
      (List.range tpSize).map fun r => ((s.size+s.addedSize)*r,s.indices r) := by
    apply List.ext_getElem?
    intro i
    by_cases hi : i < tpSize <;> simp [hi]
  have hmapping := hlen
  simp only [VocabSplit.fullMapping,VocabSplit.baseSlots,VocabSplit.addedSlots,
    VocabSplit.paddingSlots] at hmapping
  simp only [VocabParallelEmbedding.getShardedToFullMapping,rankEmbedding,
    show ¬tpSize < 2 by omega,if_false,hshards,Option.bind_eq_bind,Option.bind_some,hranked,
    List.all_map,Function.comp_def,List.flatMap_map,s.numOrgElementsPadded_eq,
    s.numAddedElementsPadded_eq,hmapping]
  simp [Nat.add_assoc,VocabSplit.fullMapping,VocabSplit.baseSlots,VocabSplit.addedSlots,
    VocabSplit.paddingSlots]

/-- The logits of the ranks' rows, one rank after another. -/
def gathered (s : VocabSplit num org padding tpSize) (dim : Nat) (table : Weight R) (x : List R) :
    List R :=
  (List.range tpSize).flatMap fun r => (rankRows s dim table r).map fun row => dot row x

variable {x : List R}

theorem length_rankLogits (hrows : table.length = org) (r : Nat) :
    ((rankRows s dim table r).map fun row => dot row x).length = s.size+s.addedSize := by
  rw [List.length_map,length_rankRows s hrows]

theorem length_gathered (hrows : table.length = org) :
    (gathered s dim table x).length = tpSize*(s.size+s.addedSize) := by
  simp [gathered,List.length_flatMap,length_rankRows s hrows]

/-- What stands in a range of the slots of a rank. -/
theorem gathered_range (hrows : table.length = org) {r a n : Nat} (hr : r < tpSize)
    (h : a+n ≤ s.size+s.addedSize) :
    (List.range' ((s.size+s.addedSize)*r+a) n).map (fun i => (gathered s dim table x).getD i 0) =
      (((rankRows s dim table r).map fun row => dot row x).drop a).take n := by
  have hlen : ∀ r < tpSize, ((rankRows s dim table r).map fun row => dot row x).length =
      s.size+s.addedSize := fun r _ => length_rankLogits s hrows r
  have hshard := shard_flatMap hlen hr
  have hle : (r+1)*(s.size+s.addedSize) ≤ tpSize*(s.size+s.addedSize) :=
    Nat.mul_le_mul_right _ hr
  rw [Nat.succ_mul] at hle
  rw [← hshard,shard_part h,Nat.mul_comm r,← gathered,map_getD_range']
  rw [length_gathered s hrows,Nat.mul_comm (s.size+s.addedSize)]
  omega

theorem base_logits (hrows : table.length = org) :
    s.baseSlots.map (fun i => (gathered s dim table x).getD i 0) =
      table.map fun row => dot row x := by
  have hranks : ∀ r ∈ List.range tpSize,
      (List.range' ((s.size+s.addedSize)*r) (s.indices r).numOrgElements).map
        (fun i => (gathered s dim table x).getD i 0) =
      (shard s.size r table).map fun row => dot row x := by
    intro r hr
    have hnum := s.numOrgElements_eq r
    have hfits : 0+(s.indices r).numOrgElements ≤ s.size+s.addedSize := by omega
    rw [← Nat.add_zero ((s.size+s.addedSize)*r),
      gathered_range s hrows (List.mem_range.mp hr) hfits,List.drop_zero,rankRows,List.map_append,
      ← s.length_shard_org hrows,List.take_left']
    rw [List.length_map]
  rw [VocabSplit.baseSlots,List.map_flatMap,List.flatMap_congr hranks,← List.map_flatMap,
    flatMap_shard (hrows ▸ s.org_fits)]

theorem added_logits (hrows : table.length = org) :
    s.addedSlots.map (fun i => (gathered s dim table x).getD i 0) =
      List.replicate (num-org) 0 := by
  have hranks : ∀ r ∈ List.range tpSize,
      (List.range' ((s.size+s.addedSize)*r+s.size) (s.indices r).numAddedElements).map
        (fun i => (gathered s dim table x).getD i 0) =
      shard s.addedSize r (List.replicate (num-org) (0 : R)) := by
    intro r hr
    have hnum := s.numAddedElements_eq r
    have hshort := s.length_shard_le table r
    rw [gathered_range s hrows (List.mem_range.mp hr) (by omega),shard_replicate,← hnum,rankRows,
      List.map_append,List.drop_append,
      List.drop_eq_nil_of_le (by rw [List.length_map]; exact hshort)]
    simp [dot_zeros]
    omega
  have hfits : (List.replicate (num-org) (0 : R)).length ≤ tpSize*s.addedSize := by
    have hadded := s.added_fits
    rw [List.length_replicate]
    omega
  rw [VocabSplit.addedSlots,List.map_flatMap,List.flatMap_congr hranks,flatMap_shard hfits]

theorem getLogits_many (hranks : ∀ r < tpSize, ranks r = rankEmbedding s dim table r)
    (htp : 1 < tpSize) (hr : tpRank < tpSize) (hrows : table.length = org) :
    VocabParallelEmbedding.getLogits tpSize num ranks tpRank x =
      some ((table.map fun row => dot row x) ++ List.replicate (num-org) 0) := by
  have hle := s.org_le
  have hgathered : (List.range tpSize).flatMap (fun r => linear (ranks r).weight none x) =
      gathered s dim table x := by
    refine List.flatMap_congr fun r hmem => ?_
    rw [hranks r (List.mem_range.mp hmem)]
    rfl
  have hmap : s.fullMapping.mapM (fun i => (gathered s dim table x)[i]?) =
      some (s.fullMapping.map fun i => (gathered s dim table x).getD i 0) := by
    refine mapM_eq_map fun i hi => ?_
    have hlt : i < (gathered s dim table x).length := by
      rw [length_gathered s hrows]
      exact List.mem_range.mp (s.fullMapping_perm.mem_iff.mp hi)
    rw [List.getElem?_eq_getElem hlt,List.getD_eq_getElem?_getD,List.getElem?_eq_getElem hlt,
      Option.getD_some]
  have hlen : ((table.map fun row => dot row x) ++ List.replicate (num-org) 0).length = num := by
    rw [List.length_append,List.length_map,List.length_replicate,hrows,Nat.add_sub_cancel' hle]
  simp only [VocabParallelEmbedding.getLogits,htp,if_true,hgathered,hranks tpRank hr,
    mapping_eq s htp,Option.bind_eq_bind,Option.bind_some,hmap]
  rw [VocabSplit.fullMapping,List.map_append,List.map_append,base_logits s hrows,
    added_logits s hrows,List.take_left' hlen]
  rfl

theorem getLogits_single (s : VocabSplit num org padding 1)
    (hranks : ranks 0 = rankEmbedding s dim table 0) (hrows : table.length = org) :
    VocabParallelEmbedding.getLogits 1 num ranks 0 x =
      some ((table.map fun row => dot row x) ++ List.replicate (num-org) 0) := by
  have hle := s.org_le
  have hfits := s.org_fits
  have hadded := s.added_fits
  have hpart : shard s.size 0 table = table := by
    rw [shard,Nat.zero_mul,List.drop_zero,List.take_of_length_le (by omega)]
  simp only [VocabParallelEmbedding.getLogits,Nat.lt_irrefl,if_false,hranks,rankEmbedding,rankRows,
    hpart,linear,List.map_append,List.map_replicate,dot_zeros]
  have hmin : min (num-org) (s.size+s.addedSize-org) = num-org := by omega
  rw [List.take_append,List.take_of_length_le (by rw [List.length_map]; omega),List.length_map,
    hrows,List.take_replicate,hmin]
  rfl

theorem getLogits_eq (hr : tpRank < tpSize) (hrows : table.length = org) :
    VocabParallelEmbedding.getLogits tpSize num (rankEmbedding s dim table) tpRank x =
      some ((table.map fun row => dot row x) ++ List.replicate (num-org) 0) := by
  by_cases hmany : 1 < tpSize
  · exact getLogits_many s (fun _ _ => rfl) hmany hr hrows
  · obtain rfl : tpSize = 1 := by omega
    obtain rfl : tpRank = 0 := by omega
    exact getLogits_single s rfl hrows

/-- Every rank has the logits of the whole vocabulary in the order of the ids, as one rank has. The
added ids have no weight of their own. -/
theorem logits_agree (data : Nat → Nat → Nat → R) (horg : 0 < org) (hle : org ≤ num)
    (hpadding : 0 < padding) (htp : 0 < tpSize) (hdvd : tpSize ∣ padVocabSize org padding)
    (hdvd' : tpSize ∣ padVocabSize (padVocabSize org padding+(num-org)) padding)
    (hrows : table.length = org) (hcolumns : hasColumns dim table = true) :
    ∃ ranks : Nat → VocabParallelEmbedding R,
      (∀ r < tpSize, VocabParallelEmbedding.loaded (data r) table num dim org padding r tpSize =
        some (ranks r)) ∧
      ∀ r < tpSize, ∀ x, VocabParallelEmbedding.getLogits tpSize num ranks r x =
        some ((table.map fun row => dot row x) ++ List.replicate (num-org) 0) := by
  let s := vocabSplit horg hle hpadding htp hdvd hdvd'
  exact ⟨rankEmbedding s dim table,fun r _ => embedding_load s hrows hcolumns r,
    fun r hr x => getLogits_eq s hr hrows⟩

theorem logits_agree_two :
    ∃ ranks : Nat → VocabParallelEmbedding Int,
      (∀ r < 2, VocabParallelEmbedding.loaded (fun _ _ => 9) [[1,2],[3,4],[5,6]] 4 2 3 2 r 2 =
        some (ranks r)) ∧
      ∀ r < 2, ∀ x, VocabParallelEmbedding.getLogits 2 4 ranks r x =
        some (([[1,2],[3,4],[5,6]].map fun row => dot row x) ++ List.replicate (4-3) 0) :=
  logits_agree (fun _ _ _ => 9) (by decide) (by decide) (by decide) (by decide) (by decide)
    (by decide) rfl rfl

end FluxServe.Parallel
