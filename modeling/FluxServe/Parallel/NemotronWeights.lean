import FluxServe.Parallel.VocabEmbedding

namespace FluxServe.Parallel

structure NemotronConfig where
  hiddenSize : Nat
  vocabSize : Nat
  intermediateSize : Nat
  headDim : Nat
  numAttentionHeads : Nat
  numKeyValueHeads : Nat
  numHiddenLayers : Nat

inductive LayerWeight
  | inputLayernorm
  | postAttentionLayernorm
  | qProj
  | kProj
  | vProj
  | oProj
  | gateProj
  | upProj
  | downProj
  deriving DecidableEq

/-- The name of a checkpoint's tensor. -/
inductive Source
  | embedTokens
  | norm
  | diffusionHead
  | layer (layerId : Nat) (weight : LayerWeight)
  | other (name : String)
  deriving DecidableEq

/-- A tensor with the rows of its shape. -/
inductive Tensor (R : Type)
  | vector (data : List R)
  | matrix (columns : Nat) (rows : Weight R) (rect : ∀ row ∈ rows, row.length = columns)

namespace Tensor

variable {R : Type}

def shape : Tensor R → List Nat
  | vector data => [data.length]
  | matrix columns rows _ => [rows.length,columns]

def rows : Tensor R → Weight R
  | vector data => [data]
  | matrix _ rows _ => rows

end Tensor

namespace LayerWeight

def all : List LayerWeight :=
  [inputLayernorm,postAttentionLayernorm,qProj,kProj,vProj,oProj,gateProj,upProj,downProj]

theorem mem_all (w : LayerWeight) : w ∈ all := by
  cases w <;> simp [all]

def shape (config : NemotronConfig) : LayerWeight → List Nat
  | inputLayernorm | postAttentionLayernorm => [config.hiddenSize]
  | qProj => [config.numAttentionHeads*config.headDim,config.hiddenSize]
  | kProj | vProj => [config.numKeyValueHeads*config.headDim,config.hiddenSize]
  | oProj => [config.hiddenSize,config.numAttentionHeads*config.headDim]
  | gateProj | upProj => [config.intermediateSize,config.hiddenSize]
  | downProj => [config.hiddenSize,config.intermediateSize]

end LayerWeight

namespace NemotronConfig

variable (config : NemotronConfig)

/-- The names of `nemotron_weight_plan`. -/
def plan : List Source :=
  [.embedTokens,.norm,.diffusionHead] ++
    (List.range config.numHiddenLayers).flatMap fun i => LayerWeight.all.map (Source.layer i)

/-- The shape that the plan has for a name. -/
def planShape : Source → Option (List Nat)
  | .embedTokens | .diffusionHead => some [config.vocabSize,config.hiddenSize]
  | .norm => some [config.hiddenSize]
  | .layer i w => if i < config.numHiddenLayers then some (w.shape config) else none
  | .other _ => none

theorem mem_plan (s : Source) : s ∈ config.plan ↔ (config.planShape s).isSome = true := by
  cases s with
  | layer i w => simp [plan,planShape,LayerWeight.mem_all]
  | _ => simp [plan,planShape]

end NemotronConfig

/-- A tensor for each name, of the planned shape. -/
structure NemotronCheckpoint (R : Type) (config : NemotronConfig) where
  tensor : Source → Tensor R
  shape : ∀ s n, config.planShape s = some n → (tensor s).shape = n

namespace NemotronCheckpoint

variable {R : Type} {config : NemotronConfig} (c : NemotronCheckpoint R config)

def rows (s : Source) : Weight R := (c.tensor s).rows

def tensors : List (Source × Tensor R) := config.plan.map fun s => (s,c.tensor s)

end NemotronCheckpoint

end FluxServe.Parallel
