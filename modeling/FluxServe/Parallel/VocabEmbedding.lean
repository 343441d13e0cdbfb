import FluxServe.Parallel.Loading

namespace FluxServe.Parallel

def padVocabSize (vocabSize padTo : Nat) : Nat := (vocabSize+padTo-1)/padTo*padTo

def vocabRangeFromPerPartitionVocabSize (perPartitionVocabSize rank offset : Nat) : Nat × Nat :=
  let indexF := rank*perPartitionVocabSize
  (indexF+offset,indexF+perPartitionVocabSize+offset)

def vocabRangeFromGlobalVocabSize (globalVocabSize rank worldSize offset : Nat) :
    Option (Nat × Nat) :=
  (divide globalVocabSize worldSize).map fun size =>
    vocabRangeFromPerPartitionVocabSize size rank offset

/-- `VocabParallelEmbeddingShardIndices` with what `__post_init__` asserts of them. -/
structure VocabParallelEmbeddingShardIndices where
  paddedOrgVocabStartIndex : Nat
  paddedOrgVocabEndIndex : Nat
  paddedAddedVocabStartIndex : Nat
  paddedAddedVocabEndIndex : Nat
  orgVocabStartIndex : Nat
  orgVocabEndIndex : Nat
  addedVocabStartIndex : Nat
  addedVocabEndIndex : Nat
  paddedOrg : paddedOrgVocabStartIndex ≤ paddedOrgVocabEndIndex
  paddedAdded : paddedAddedVocabStartIndex ≤ paddedAddedVocabEndIndex
  org : orgVocabStartIndex ≤ orgVocabEndIndex
  added : addedVocabStartIndex ≤ addedVocabEndIndex
  orgStart : orgVocabStartIndex ≤ paddedOrgVocabStartIndex
  addedStart : addedVocabStartIndex ≤ paddedAddedVocabStartIndex
  orgEnd : orgVocabEndIndex ≤ paddedOrgVocabEndIndex
  addedEnd : addedVocabEndIndex ≤ paddedAddedVocabEndIndex
  orgElements : orgVocabEndIndex-orgVocabStartIndex ≤
    paddedOrgVocabEndIndex-paddedOrgVocabStartIndex
  addedElements : addedVocabEndIndex-addedVocabStartIndex ≤
    paddedAddedVocabEndIndex-paddedAddedVocabStartIndex

namespace VocabParallelEmbeddingShardIndices

variable (s : VocabParallelEmbeddingShardIndices)

def numOrgElements : Nat := s.orgVocabEndIndex-s.orgVocabStartIndex
def numAddedElements : Nat := s.addedVocabEndIndex-s.addedVocabStartIndex
def numOrgElementsPadded : Nat := s.paddedOrgVocabEndIndex-s.paddedOrgVocabStartIndex
def numAddedElementsPadded : Nat := s.paddedAddedVocabEndIndex-s.paddedAddedVocabStartIndex
def numOrgVocabPadding : Nat := s.numOrgElementsPadded-s.numOrgElements
def numElementsPadded : Nat := s.numOrgElementsPadded+s.numAddedElementsPadded

end VocabParallelEmbeddingShardIndices

/-- The indices of a rank with `size` and `addedSize` padded entries of each vocabulary. -/
def shardIndices (vocabSize orgVocabSize size addedSize tpRank : Nat) :
    VocabParallelEmbeddingShardIndices where
  paddedOrgVocabStartIndex := tpRank*size
  paddedOrgVocabEndIndex := tpRank*size+size
  paddedAddedVocabStartIndex := tpRank*addedSize+orgVocabSize
  paddedAddedVocabEndIndex := tpRank*addedSize+addedSize+orgVocabSize
  orgVocabStartIndex := min (tpRank*size) orgVocabSize
  orgVocabEndIndex := min (tpRank*size+size) orgVocabSize
  addedVocabStartIndex := min (tpRank*addedSize+orgVocabSize) vocabSize
  addedVocabEndIndex := min (tpRank*addedSize+addedSize+orgVocabSize) vocabSize
  paddedOrg := by omega
  paddedAdded := by omega
  org := by omega
  added := by omega
  orgStart := by omega
  addedStart := by omega
  orgEnd := by omega
  addedEnd := by omega
  orgElements := by omega
  addedElements := by omega

/-- `_get_indices`. -/
def getIndices (vocabSizePadded orgVocabSizePadded vocabSize orgVocabSize tpRank tpSize : Nat) :
    Option VocabParallelEmbeddingShardIndices := do
  let size ← divide orgVocabSizePadded tpSize
  let addedSize ← divide (vocabSizePadded-orgVocabSizePadded) tpSize
  return shardIndices vocabSize orgVocabSize size addedSize tpRank

/-- `get_masked_input_and_mask`, on one id. -/
def getMaskedInputAndMask (input orgStart orgEnd numOrgPadding addedStart addedEnd : Int) :
    Int × Bool :=
  let orgMask := decide (orgStart ≤ input ∧ input < orgEnd)
  let addedMask := decide (addedStart ≤ input ∧ input < addedEnd)
  let addedOffset := addedStart-(orgEnd-orgStart)-numOrgPadding
  let validOffset := orgStart*orgMask.toInt+addedOffset*addedMask.toInt
  let vocabMask := orgMask || addedMask
  (vocabMask.toInt*(input-validOffset),!vocabMask)

/-- `VocabParallelEmbedding` of one rank. -/
structure VocabParallelEmbedding (R : Type) where
  numEmbeddings : Nat
  orgVocabSize : Nat
  orgVocabSizePadded : Nat
  numEmbeddingsPadded : Nat
  embeddingDim : Nat
  tpSize : Nat
  shardIndices : VocabParallelEmbeddingShardIndices
  numEmbeddingsPerPartition : Nat
  weight : Weight R

namespace VocabParallelEmbedding

variable {R : Type} [NonUnitalNonAssocSemiring R]

def new (data : Nat → Nat → R) (numEmbeddings embeddingDim orgNumEmbeddings paddingSize tpRank
    tpSize : Nat) : Option (VocabParallelEmbedding R) := do
  let orgVocabSize := if orgNumEmbeddings = 0 then numEmbeddings else orgNumEmbeddings
  let numAddedEmbeddings := numEmbeddings-orgVocabSize
  let orgVocabSizePadded := padVocabSize orgVocabSize paddingSize
  let numEmbeddingsPadded := padVocabSize (orgVocabSizePadded+numAddedEmbeddings) paddingSize
  guard (orgVocabSizePadded ≤ numEmbeddingsPadded)
  let indices ← getIndices numEmbeddingsPadded orgVocabSizePadded numEmbeddings orgVocabSize tpRank
    tpSize
  let perPartition ← divide numEmbeddingsPadded tpSize
  guard (indices.numElementsPadded = perPartition)
  return ⟨numEmbeddings,orgVocabSize,orgVocabSizePadded,numEmbeddingsPadded,embeddingDim,tpSize,
    indices,perPartition,emptyWeight data perPartition embeddingDim⟩

def weightLoader (e : VocabParallelEmbedding R) (loaded : Weight R) :
    Option (VocabParallelEmbedding R) := do
  let startIdx := e.shardIndices.orgVocabStartIndex
  let shardSize := e.shardIndices.orgVocabEndIndex-startIdx
  guard (loaded.length = e.orgVocabSize)
  let part ← narrow startIdx shardSize loaded
  guard (part.length ≤ e.weight.length ∧ hasColumns e.embeddingDim part)
  let zeros := List.replicate e.embeddingDim 0
  return { e with weight := part ++ List.replicate (e.weight.length-part.length) zeros }

/-- The layer of a rank with its part of the loaded weight. -/
def loaded (data : Nat → Nat → R) (weight : Weight R) (numEmbeddings embeddingDim orgNumEmbeddings
    paddingSize tpRank tpSize : Nat) : Option (VocabParallelEmbedding R) := do
  let e ← new data numEmbeddings embeddingDim orgNumEmbeddings paddingSize tpRank tpSize
  e.weightLoader weight

/-- `F.embedding`; none is an index that is out of range. -/
def embedding (e : VocabParallelEmbedding R) (input : Int) : Option (List R) :=
  if 0 ≤ input then e.weight[input.toNat]? else none

/-- What a rank adds to the embedding of an id. -/
def outputParallel (e : VocabParallelEmbedding R) (input : Int) : Option (List R) :=
  if 1 < e.tpSize then
    let s := e.shardIndices
    let masked := getMaskedInputAndMask input s.orgVocabStartIndex s.orgVocabEndIndex
      s.numOrgVocabPadding s.addedVocabStartIndex s.addedVocabEndIndex
    (e.embedding masked.1).map fun row =>
      if masked.2 then List.replicate row.length 0 else row
  else e.embedding input

/-- `forward` of all ranks together. -/
def forward (tpSize : Nat) (ranks : Nat → VocabParallelEmbedding R) (input : Int) :
    Option (List R) :=
  ((List.range tpSize).mapM fun r => (ranks r).outputParallel input).map addVectors

/-- `get_sharded_to_full_mapping`; for one rank there is none. -/
def getShardedToFullMapping (e : VocabParallelEmbedding R) : Option (Option (List Nat)) :=
  if e.tpSize < 2 then some none
  else do
    let shards ← (List.range e.tpSize).mapM fun tpRank =>
      getIndices e.numEmbeddingsPadded e.orgVocabSizePadded e.numEmbeddings e.orgVocabSize tpRank
        e.tpSize
    let ranked := shards.mapIdx fun tpRank s => (e.numEmbeddingsPerPartition*tpRank,s)
    let baseEmbeddings := ranked.flatMap fun x => List.range' x.1 x.2.numOrgElements
    let addedEmbeddings := ranked.flatMap fun x =>
      List.range' (x.1+x.2.numOrgElementsPadded) x.2.numAddedElements
    let padding := ranked.flatMap fun x =>
      List.range' (x.1+x.2.numOrgElements) (x.2.numOrgElementsPadded-x.2.numOrgElements) ++
        List.range' (x.1+x.2.numOrgElementsPadded+x.2.numAddedElements)
          (x.2.numAddedElementsPadded-x.2.numAddedElements)
    guard (ranked.all fun x => x.1+x.2.numOrgElementsPadded+x.2.numAddedElementsPadded =
      x.1+e.numEmbeddingsPerPartition)
    let ret := baseEmbeddings ++ addedEmbeddings ++ padding
    guard (ret.length = e.numEmbeddingsPadded)
    return some ret

/-- `_get_logits` of the language model, on one token, with the logits of all ranks. -/
def getLogits (tpSize vocabSize : Nat) (ranks : Nat → VocabParallelEmbedding R) (rank : Nat)
    (x : List R) : Option (List R) := do
  let localLogits := fun r => linear (ranks r).weight none x
  if 1 < tpSize then
    let gathered := (List.range tpSize).flatMap localLogits
    match ← (ranks rank).getShardedToFullMapping with
    | some mapping => return (← mapping.mapM fun i => gathered[i]?).take vocabSize
    | none => return gathered.take vocabSize
  else return (localLogits rank).take vocabSize

end VocabParallelEmbedding

end FluxServe.Parallel
