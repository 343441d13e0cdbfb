import FluxServe.Parallel.NemotronModel

namespace FluxServe.Parallel

/-- What loading a checkpoint raises. -/
inductive LoadFault
  | construction
  | shapeMismatch (name : Source) (checkpoint expected : List Nat)
  | parameter (name : Source)
  | unmapped (names : List Source)
  | missing (names : List Source)

variable {R : Type} [NonUnitalNonAssocSemiring R]

/-- The padding of `DEFAULT_VOCAB_PADDING_SIZE`. -/
def defaultVocabPaddingSize : Nat := 64

/-- A norm's weight before it is loaded. -/
def emptyNorm (data : Nat → Nat → R) (hiddenSize : Nat) : List R :=
  (List.range hiddenSize).map (data 0)

/-- `param.data.copy_` of a parameter that has no loader of its own. -/
def copyParam (param : List R) (t : Tensor R) : Option (List R) :=
  if t.shape = [param.length] then some (t.rows.headD []) else none

namespace NemotronDiffusionDecoderLayer

/-- The layer of a rank with arbitrary weights. -/
def new (data : LayerWeight → Nat → Nat → R) (config : NemotronConfig) (tpRank tpSize : Nat) :
    Option (NemotronDiffusionDecoderLayer R) := do
  guard (config.numAttentionHeads%tpSize = 0)
  let numHeads := config.numAttentionHeads/tpSize
  let numKvHeads := max 1 (config.numKeyValueHeads/tpSize)
  let qkvProj ← QKVParallelLinear.new (data .qProj) config.hiddenSize config.headDim
    config.numAttentionHeads config.numKeyValueHeads tpRank tpSize
  let oProj ← RowParallelLinear.new (data .oProj) (config.numAttentionHeads*config.headDim)
    config.hiddenSize tpRank tpSize none
  let gateUpProj ← MergedColumnParallelLinear.new (data .gateProj) config.hiddenSize
    [config.intermediateSize,config.intermediateSize] tpRank tpSize
  let downProj ← RowParallelLinear.new (data .downProj) config.intermediateSize config.hiddenSize
    tpRank tpSize none
  return {
    selfAttn := ⟨config.headDim,numHeads,numKvHeads,qkvProj,oProj⟩
    mlp := ⟨gateUpProj,downProj⟩
    inputLayernorm := emptyNorm (data .inputLayernorm) config.hiddenSize
    postAttentionLayernorm := emptyNorm (data .postAttentionLayernorm) config.hiddenSize }

def withQkv (l : NemotronDiffusionDecoderLayer R) (c : QKVParallelLinear R) :
    NemotronDiffusionDecoderLayer R :=
  { l with selfAttn := { l.selfAttn with qkvProj := c } }

def withGateUp (l : NemotronDiffusionDecoderLayer R) (c : MergedColumnParallelLinear R) :
    NemotronDiffusionDecoderLayer R :=
  { l with mlp := { l.mlp with gateUpProj := c } }

/-- The loader of the parameter that a tensor of the layer goes to. -/
def loadWeight (l : NemotronDiffusionDecoderLayer R) (t : Tensor R) :
    LayerWeight → Option (NemotronDiffusionDecoderLayer R)
  | .inputLayernorm => (copyParam l.inputLayernorm t).map fun inputLayernorm =>
      { l with inputLayernorm }
  | .postAttentionLayernorm => (copyParam l.postAttentionLayernorm t).map
      fun postAttentionLayernorm => { l with postAttentionLayernorm }
  | .qProj => (l.selfAttn.qkvProj.weightLoader t.rows .q).map l.withQkv
  | .kProj => (l.selfAttn.qkvProj.weightLoader t.rows .k).map l.withQkv
  | .vProj => (l.selfAttn.qkvProj.weightLoader t.rows .v).map l.withQkv
  | .oProj => (l.selfAttn.oProj.weightLoader t.rows).map fun oProj =>
      { l with selfAttn := { l.selfAttn with oProj } }
  | .gateProj => (l.mlp.gateUpProj.weightLoader t.rows 0).map l.withGateUp
  | .upProj => (l.mlp.gateUpProj.weightLoader t.rows 1).map l.withGateUp
  | .downProj => (l.mlp.downProj.weightLoader t.rows).map fun downProj =>
      { l with mlp := { l.mlp with downProj } }

end NemotronDiffusionDecoderLayer

namespace NemotronLabsDiffusionLLM

def new (data : Source → Nat → Nat → R) (config : NemotronConfig) (tpRank tpSize : Nat) :
    Option (NemotronLabsDiffusionLLM R) := do
  let embedTokens ← VocabParallelEmbedding.new (data .embedTokens) config.vocabSize
    config.hiddenSize 0 defaultVocabPaddingSize tpRank tpSize
  let layers ← (List.range config.numHiddenLayers).mapM fun i =>
    NemotronDiffusionDecoderLayer.new (fun w => data (.layer i w)) config tpRank tpSize
  let lmHead ← VocabParallelEmbedding.new (data .diffusionHead) config.vocabSize
    config.hiddenSize 0 defaultVocabPaddingSize tpRank tpSize
  return ⟨embedTokens,layers,emptyNorm (data .norm) config.hiddenSize,lmHead⟩

def loadWeight (m : NemotronLabsDiffusionLLM R) (name : Source) (t : Tensor R) :
    Option (NemotronLabsDiffusionLLM R) :=
  match name with
  | .embedTokens => (m.embedTokens.weightLoader t.rows).map fun embedTokens =>
      { m with embedTokens }
  | .norm => (copyParam m.norm t).map fun norm => { m with norm }
  | .diffusionHead => (m.lmHead.weightLoader t.rows).map fun lmHead => { m with lmHead }
  | .layer i w => do
    let l ← m.layers[i]?
    let l ← l.loadWeight t w
    return { m with layers := m.layers.set i l }
  | .other _ => none

/-- The model and the names that `load_weights` has consumed and has not expected. -/
structure LoadProgress (R : Type) where
  model : NemotronLabsDiffusionLLM R
  consumed : List Source := []
  unexpected : List Source := []

def loadTensor (config : NemotronConfig) (p : LoadProgress R) (entry : Source × Tensor R) :
    Except LoadFault (LoadProgress R) :=
  match config.planShape entry.1 with
  | none => .ok { p with unexpected := entry.1 :: p.unexpected }
  | some expected =>
    if entry.2.shape ≠ expected then
      .error (.shapeMismatch entry.1 entry.2.shape expected)
    else match p.model.loadWeight entry.1 entry.2 with
      | none => .error (.parameter entry.1)
      | some model => .ok { p with model, consumed := entry.1 :: p.consumed }

def loadWeights (config : NemotronConfig) (m : NemotronLabsDiffusionLLM R)
    (weights : List (Source × Tensor R)) : Except LoadFault (LoadProgress R) :=
  weights.foldlM (loadTensor config) { model := m }

/-- What `load_model` checks after the tensors are read. -/
def finishLoad (config : NemotronConfig) (p : LoadProgress R) :
    Except LoadFault (NemotronLabsDiffusionLLM R) :=
  if p.unexpected ≠ [] then .error (.unmapped p.unexpected)
  else
    let missing := config.plan.filter fun name => name ∉ p.consumed
    if missing ≠ [] then .error (.missing missing) else .ok p.model

/-- `NemotronModelLoader.load_model` on one rank, over the tensors in the order of the file. -/
def loadModel (data : Source → Nat → Nat → R) (config : NemotronConfig) (tpRank tpSize : Nat)
    (weights : List (Source × Tensor R)) : Except LoadFault (NemotronLabsDiffusionLLM R) :=
  match new data config tpRank tpSize with
  | none => .error .construction
  | some m => loadWeights config m weights >>= finishLoad config

end NemotronLabsDiffusionLLM

end FluxServe.Parallel
