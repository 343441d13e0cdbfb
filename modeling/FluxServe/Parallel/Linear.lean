import FluxServe.Framework.Shards

namespace FluxServe.Parallel

variable {R α : Type} [NonUnitalNonAssocSemiring R]

/-- A weight as it is stored, one row for each output. -/
abbrev Weight (R : Type) := List (List R)

def divide (numerator denominator : Nat) : Option Nat :=
  if numerator%denominator = 0 then some (numerator/denominator) else none

/-- `torch.empty`; what it holds is arbitrary. -/
def emptyWeight (data : Nat → Nat → R) (rows columns : Nat) : Weight R :=
  (List.range rows).map fun i => (List.range columns).map (data i)

/-- `tensor.narrow` in the first dimension. -/
def narrow (start size : Nat) (l : List α) : Option (List α) :=
  if start+size ≤ l.length then some ((l.drop start).take size) else none

def padOrNarrowWeight (zero : α) (start size : Nat) (l : List α) : List α :=
  let validSize := l.length-start
  if 0 < validSize then (l.drop start).take validSize ++ List.replicate (size-validSize) zero
  else List.replicate size zero

/-- The part of a loaded weight for one rank. -/
def partFor (zero : α) (start size : Nat) (l : List α) : Option (List α) :=
  if l.length < start+size then some (padOrNarrowWeight zero start size l) else narrow start size l

/-- The part of a parameter from `offset` on is overwritten; none is a shape that does not fit. -/
def copyAt (offset size : Nat) (part param : List α) : Option (List α) :=
  if offset+size ≤ param.length ∧ part.length = size then
    some (param.take offset ++ part ++ param.drop (offset+size))
  else none

def hasColumns (columns : Nat) (w : Weight R) : Bool := w.all fun row => row.length = columns

/-- `F.linear` on one token. -/
def linear (w : Weight R) (bias : Option (List R)) (x : List R) : List R :=
  match bias with
  | none => w.map fun row => dot row x
  | some bias => List.zipWith (· + ·) (w.map fun row => dot row x) bias

/-- `MergedColumnParallelLinear` without a bias, which no model here gives it. -/
structure MergedColumnParallelLinear (R : Type) where
  inputSize : Nat
  outputSizes : List Nat
  tpRank : Nat
  tpSize : Nat
  weight : Weight R

namespace MergedColumnParallelLinear

def new (data : Nat → Nat → R) (inputSize : Nat) (outputSizes : List Nat) (tpRank tpSize : Nat) :
    Option (MergedColumnParallelLinear R) := do
  guard (outputSizes.all fun size => size%tpSize = 0)
  let _ ← divide outputSizes.sum tpSize
  let sizes ← outputSizes.mapM fun size => divide size tpSize
  return ⟨inputSize,outputSizes,tpRank,tpSize,emptyWeight data sizes.sum inputSize⟩

/-- `weight_loader` for a weight that is one of the merged ones. -/
def weightLoader (c : MergedColumnParallelLinear R) (loaded : Weight R) (shardId : Nat) :
    Option (MergedColumnParallelLinear R) := do
  guard (shardId < c.outputSizes.length)
  let shardOffset := (c.outputSizes.take shardId).sum/c.tpSize
  let shardSize := c.outputSizes.getD shardId 0/c.tpSize
  let zeros := List.replicate (loaded.headD []).length 0
  let part ← partFor zeros (c.tpRank*shardSize) shardSize loaded
  guard (hasColumns c.inputSize part)
  let weight ← copyAt shardOffset shardSize part c.weight
  return { c with weight }

def forward (c : MergedColumnParallelLinear R) (x : List R) : List R := linear c.weight none x

end MergedColumnParallelLinear

inductive QKVShard
  | q
  | k
  | v

/-- `QKVParallelLinear` without a bias. -/
structure QKVParallelLinear (R : Type) where
  hiddenSize : Nat
  headSize : Nat
  tpRank : Nat
  numHeads : Nat
  numKvHeads : Nat
  numKvHeadReplicas : Nat
  weight : Weight R

namespace QKVParallelLinear

/-- The key-value heads of a rank, and how many ranks hold the same. -/
def kvHeadsPerRank (totalNumKvHeads tpSize : Nat) : Option (Nat × Nat) :=
  if totalNumKvHeads ≤ tpSize then
    (divide tpSize totalNumKvHeads).map fun replicas => (1,replicas)
  else (divide totalNumKvHeads tpSize).map fun heads => (heads,1)

def new (data : Nat → Nat → R) (hiddenSize headSize totalNumHeads totalNumKvHeads tpRank
    tpSize : Nat) : Option (QKVParallelLinear R) := do
  let numHeads ← divide totalNumHeads tpSize
  let (numKvHeads,numKvHeadReplicas) ← kvHeadsPerRank totalNumKvHeads tpSize
  let rows := numHeads*headSize+2*(numKvHeads*headSize)
  return ⟨hiddenSize,headSize,tpRank,numHeads,numKvHeads,numKvHeadReplicas,
    emptyWeight data rows hiddenSize⟩

def shardOffset (c : QKVParallelLinear R) : QKVShard → Nat
  | .q => 0
  | .k => c.numHeads*c.headSize
  | .v => (c.numHeads+c.numKvHeads)*c.headSize

def shardSize (c : QKVParallelLinear R) : QKVShard → Nat
  | .q => c.numHeads*c.headSize
  | _ => c.numKvHeads*c.headSize

def shardId (c : QKVParallelLinear R) : QKVShard → Nat
  | .q => c.tpRank
  | _ => c.tpRank/c.numKvHeadReplicas

def weightLoader (c : QKVParallelLinear R) (loaded : Weight R) (loadedShardId : QKVShard) :
    Option (QKVParallelLinear R) := do
  let part ← narrow (c.shardId loadedShardId*c.shardSize loadedShardId)
    (c.shardSize loadedShardId) loaded
  guard (hasColumns c.hiddenSize part)
  let weight ← copyAt (c.shardOffset loadedShardId) (c.shardSize loadedShardId) part c.weight
  return { c with weight }

def forward (c : QKVParallelLinear R) (x : List R) : List R := linear c.weight none x

end QKVParallelLinear

/-- `RowParallelLinear` that adds its results up over the ranks. -/
structure RowParallelLinear (R : Type) where
  outputSize : Nat
  inputSizePerPartition : Nat
  tpRank : Nat
  weight : Weight R
  bias : Option (List R) := none

namespace RowParallelLinear

def new (data : Nat → Nat → R) (inputSize outputSize tpRank tpSize : Nat)
    (bias : Option (List R)) : Option (RowParallelLinear R) := do
  let inputSizePerPartition ← divide inputSize tpSize
  return ⟨outputSize,inputSizePerPartition,tpRank,
    emptyWeight data outputSize inputSizePerPartition,bias⟩

def weightLoader (c : RowParallelLinear R) (loaded : Weight R) : Option (RowParallelLinear R) := do
  let shardSize := c.inputSizePerPartition
  let part ← loaded.mapM (partFor 0 (c.tpRank*shardSize) shardSize)
  guard (part.length = c.outputSize ∧ hasColumns shardSize part)
  return { c with weight := part }

def biasLoader (c : RowParallelLinear R) (loaded : List R) : Option (RowParallelLinear R) := do
  guard (loaded.length = c.outputSize)
  return { c with bias := some loaded }

/-- What a rank adds to the output. -/
def outputParallel (c : RowParallelLinear R) (x : List R) : List R :=
  linear c.weight (if 0 < c.tpRank then none else c.bias) x

end RowParallelLinear

/-- `tensor_model_parallel_all_reduce` of the outputs of the ranks. -/
def allReduce (tpSize : Nat) (output : Nat → List R) : List R :=
  addVectors ((List.range tpSize).map output)

end FluxServe.Parallel
