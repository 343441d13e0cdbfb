import FluxServe.Nemotron.ChunkedPrefill
import FluxServe.Nemotron.KvImages
import FluxServe.Parallel.NemotronLoadOrder

namespace FluxServe.Parallel

open FluxServe.Engine

variable {R C : Type} [NonUnitalNonAssocSemiring R] {config : NemotronConfig} {tpSize r : Nat}
  {K : Kernels R}

namespace NemotronLabsDiffusionLLM

/-- The logits of a token on rank 0. -/
def logits (tpSize vocabSize : Nat) (ranks : Nat → NemotronLabsDiffusionLLM R) (K : Kernels R)
    (x : List R) : List R :=
  (VocabParallelEmbedding.getLogits tpSize vocabSize (fun r => (ranks r).lmHead) 0
    (K.rmsNorm (ranks 0).norm x)).getD []

/-- A forward is one of its tokens through the layers. -/
theorem forward_eq_stack (vocabSize : Nat) (ranks : Nat → NemotronLabsDiffusionLLM R)
    (causal : Bool) (past : List (List (List (HeadsKv R)))) (tokens : List Int) :
    forward tpSize vocabSize ranks K causal past tokens =
      let stack := stackForward causal ((layerRanks ranks).map (tokenLayer tpSize K)) past
        (tokens.map (embed tpSize ranks))
      List.zipWith (fun kv x => (kv,logits tpSize vocabSize ranks K x)) stack.2 stack.1 := by
  have hjunk : (List.replicate tokens.length ([] : List (List (HeadsKv R)))).length =
      (tokens.map (embed tpSize ranks)).length := by simp
  have hlayers := @layersForward_eq R _ K tpSize causal (layerRanks ranks) past
    (List.replicate tokens.length []) (tokens.map (embed tpSize ranks)) hjunk
  rw [List.length_map] at hlayers
  rw [forward]
  refine congr (congrArg (List.zipWith _) hlayers.2) hlayers.1

theorem forward_length (vocabSize : Nat) (ranks : Nat → NemotronLabsDiffusionLLM R)
    (causal : Bool) (past : List (List (List (HeadsKv R)))) (tokens : List Int) :
    (forward tpSize vocabSize ranks K causal past tokens).length = tokens.length := by
  rw [forward_eq_stack]
  simp

end NemotronLabsDiffusionLLM

/-- How tokens are chosen by their logits: the greedy token and its confidence. -/
structure Readout (R C : Type) where
  argmax : List R → Token
  confidence : List R → C

/-- `_allocate_prefix_cache`, at one position. -/
def allocatedKv (R : Type) [Zero R] (config : NemotronConfig) (tpSize : Nat) :
    List (List (HeadsKv R)) :=
  let localKvHeads := max 1 (config.numKeyValueHeads/tpSize)
  let zeros := List.replicate localKvHeads (List.replicate config.headDim (0 : R))
  List.replicate config.numHiddenLayers (List.replicate tpSize ⟨zeros,zeros⟩)

/-- The checkpoint as `tpSize` ranks serve it, without a draft adapter. -/
def servedModel [LinearOrder C] (readout : Readout R C) (config : NemotronConfig) (K : Kernels R)
    (tpSize : Nat) (ranks : Nat → NemotronLabsDiffusionLLM R) : NemotronModel where
  Kv := List (List (HeadsKv R))
  Logits := List R
  Confidence := C
  linear := inferInstance
  zero := allocatedKv R config tpSize
  forward := fun _ causal past tokens =>
    NemotronLabsDiffusionLLM.forward tpSize config.vocabSize ranks K causal past tokens
  forward_length := fun _ causal past tokens =>
    NemotronLabsDiffusionLLM.forward_length config.vocabSize ranks causal past tokens
  argmax := readout.argmax
  confidence := readout.confidence

namespace NemotronCheckpoint

variable (c : NemotronCheckpoint R config)

def layerRows (i : Nat) : LayerRows R where
  inputLayernorm := (c.rows (.layer i .inputLayernorm)).headD []
  postAttentionLayernorm := (c.rows (.layer i .postAttentionLayernorm)).headD []
  qProj := c.rows (.layer i .qProj)
  kProj := c.rows (.layer i .kProj)
  vProj := c.rows (.layer i .vProj)
  oProj := c.rows (.layer i .oProj)
  gateProj := c.rows (.layer i .gateProj)
  upProj := c.rows (.layer i .upProj)
  downProj := c.rows (.layer i .downProj)

theorem rows_shape (name : Source) {n m : Nat} (h : config.planShape name = some [n,m]) :
    (c.rows name).length = n ∧ hasColumns m (c.rows name) = true :=
  Tensor.rows_of_shape (c.shape name _ h)

theorem layerRows_hasShape {i : Nat} (hi : i < config.numHiddenLayers) :
    (c.layerRows i).HasShape config := by
  have hlayer : ∀ w : LayerWeight, config.planShape (.layer i w) = some (w.shape config) := by
    intro w
    rw [NemotronConfig.planShape,if_pos hi]
  exact {
    qRows := (c.rows_shape _ (hlayer .qProj)).1
    kRows := (c.rows_shape _ (hlayer .kProj)).1
    vRows := (c.rows_shape _ (hlayer .vProj)).1
    oColumns := hasColumns_iff.mp (c.rows_shape _ (hlayer .oProj)).2
    gateRows := (c.rows_shape _ (hlayer .gateProj)).1
    upRows := (c.rows_shape _ (hlayer .upProj)).1
    downColumns := hasColumns_iff.mp (c.rows_shape _ (hlayer .downProj)).2 }

/-- The row of an id in the table, and zeros for any other. -/
def embed (id : Int) : List R :=
  if 0 ≤ id ∧ id < config.vocabSize then
    ((c.rows .embedTokens)[id.toNat]?).getD (List.replicate config.hiddenSize 0)
  else List.replicate config.hiddenSize 0

def layers (K : Kernels R) : List (AttentionLayer (List R) (HeadsKv R)) :=
  (List.range config.numHiddenLayers).map fun i => denseLayer config K (c.layerRows i)

def logits (K : Kernels R) (x : List R) : List R :=
  (c.rows .diffusionHead).map fun row => dot row (K.rmsNorm ((c.rows .norm).headD []) x)

/-- Each token goes through all heads of the layers by itself. -/
def forward (K : Kernels R) (causal : Bool) (past : List (List (HeadsKv R)))
    (tokens : List Int) : List (List (HeadsKv R) × List R) :=
  let stack := stackForward causal (c.layers K) past (tokens.map c.embed)
  List.zipWith (fun kv x => (kv,c.logits K x)) stack.2 stack.1

theorem forward_length (K : Kernels R) (causal : Bool) (past : List (List (HeadsKv R)))
    (tokens : List Int) : (c.forward K causal past tokens).length = tokens.length := by
  simp [forward]

/-- The new KV of a forward. -/
theorem forward_kv (K : Kernels R) (causal : Bool) (past : List (List (HeadsKv R)))
    (tokens : List Int) : (c.forward K causal past tokens).map Prod.fst =
      (stackForward causal (c.layers K) past (tokens.map c.embed)).2 := by
  have hlen := stackForward_length causal (c.layers K) past (tokens.map c.embed)
  rw [forward,List.map_zipWith]
  apply List.ext_getElem
  · simp
  · simp

theorem forward_append (K : Kernels R) (past : List (List (HeadsKv R))) (ts tokens : List Int) :
    c.forward K true past (ts ++ tokens) = c.forward K true past ts ++
      c.forward K true (past ++ (c.forward K true past ts).map Prod.fst) tokens := by
  have hlen := stackForward_length true (c.layers K) past (ts.map c.embed)
  rw [forward_kv,forward,List.map_append,stackForward_append]
  exact List.zipWith_append (hlen.2.trans hlen.1.symm)

/-- The checkpoint without ranks. -/
def denseModel [LinearOrder C] (readout : Readout R C) (K : Kernels R) : NemotronModel where
  Kv := List (HeadsKv R)
  Logits := List R
  Confidence := C
  linear := inferInstance
  zero :=
    let zeros := List.replicate config.numKeyValueHeads (List.replicate config.headDim (0 : R))
    List.replicate config.numHiddenLayers ⟨zeros,zeros⟩
  forward := fun _ => c.forward K
  forward_length := fun _ => c.forward_length K
  argmax := readout.argmax
  confidence := readout.confidence

theorem denseModel_causal [LinearOrder C] (readout : Readout R C) :
    (c.denseModel readout K).Causal :=
  fun ts tokens => c.forward_append K [] ts tokens

end NemotronCheckpoint

namespace NemotronSplit

variable (s : NemotronSplit config tpSize) (c : NemotronCheckpoint R config)

theorem layerRanks_rankModel :
    (NemotronLabsDiffusionLLM.layerRanks (s.rankModel c)).map (tokenLayer tpSize K) =
      (List.range config.numHiddenLayers).map fun i =>
        tokenLayer tpSize K (rankLayer s.toLayerSplit (c.layerRows i)) := by
  apply List.ext_getElem?
  intro i
  by_cases hi : i < config.numHiddenLayers
  · simp [NemotronLabsDiffusionLLM.layerRanks,rankModel,assemble,List.getElem?_range hi]
    rfl
  · simp [NemotronLabsDiffusionLLM.layerRanks,rankModel,assemble,hi]

theorem embed_rankModel : NemotronLabsDiffusionLLM.embed tpSize (s.rankModel c) = c.embed := by
  obtain ⟨hrows,hcolumns⟩ := c.rows_shape .embedTokens rfl
  funext id
  have hforward := forward_eq s.vocab hrows hcolumns id
  show (VocabParallelEmbedding.forward tpSize
    (rankEmbedding s.vocab config.hiddenSize (c.rows .embedTokens)) id).getD
      (List.replicate config.hiddenSize 0) = _
  rw [hforward,NemotronCheckpoint.embed]
  by_cases hid : 0 ≤ id ∧ id < config.vocabSize
  · rw [if_pos hid,if_pos hid]
  · rw [if_neg hid,if_neg hid]
    split <;> rfl

theorem logits_rankModel : NemotronLabsDiffusionLLM.logits tpSize config.vocabSize (s.rankModel c) K
    = c.logits K := by
  have hrows := (c.rows_shape .diffusionHead rfl).1
  funext x
  have hlogits := @getLogits_eq R _ _ _ tpSize 0 config.hiddenSize _ _ s.vocab
    (K.rmsNorm ((c.rows .norm).headD []) x) s.tp_pos hrows
  rw [Nat.sub_self,List.replicate_zero,List.append_nil] at hlogits
  exact congrArg (Option.getD · []) hlogits

/-- The allocated KV is that of all heads, spread over the ranks. -/
theorem allocatedKv_eq : allocatedKv R config tpSize =
    (List.replicate config.numHiddenLayers (⟨List.replicate config.numKeyValueHeads
      (List.replicate config.headDim 0),List.replicate config.numKeyValueHeads
      (List.replicate config.headDim 0)⟩ : HeadsKv R)).map s.spreadKv := by
  have hshard : ∀ r ∈ List.range tpSize, shard s.numKvHeads (s.kvShard r)
      (List.replicate config.numKeyValueHeads (List.replicate config.headDim (0 : R))) =
      List.replicate s.numKvHeads (List.replicate config.headDim 0) := by
    intro r hr
    rw [shard_replicate]
    have hlen := length_shard (r := s.kvShard r) (l := List.replicate config.numKeyValueHeads ())
      (List.length_replicate.trans s.kvHeads_eq) (s.kvShard_lt (List.mem_range.mp hr))
    rw [shard_replicate,List.length_replicate] at hlen
    rw [hlen]
  have hspread : s.spreadKv (⟨List.replicate config.numKeyValueHeads
      (List.replicate config.headDim 0),List.replicate config.numKeyValueHeads
      (List.replicate config.headDim 0)⟩ : HeadsKv R) = (List.range tpSize).map fun _ =>
      ⟨List.replicate s.numKvHeads (List.replicate config.headDim 0),
        List.replicate s.numKvHeads (List.replicate config.headDim 0)⟩ :=
    List.map_congr_left fun r hr => by rw [hshard r hr]
  rw [List.map_replicate,hspread,List.map_const',List.length_range,allocatedKv,s.numKvHeads_max]

/-- What the ranks give over spread KV is what the checkpoint gives, spread. -/
theorem forward_rankModel (K : Kernels R) (causal : Bool) (past : List (List (HeadsKv R)))
    (tokens : List Int) :
    NemotronLabsDiffusionLLM.forward tpSize config.vocabSize (s.rankModel c) K causal
        (past.map (List.map s.spreadKv)) tokens =
      (c.forward K causal past tokens).map fun x => (x.1.map s.spreadKv,x.2) := by
  have hlayers : List.Forall₂ (AttentionLayer.Maps s.spreadKv) (c.layers K)
      ((List.range config.numHiddenLayers).map fun i =>
        tokenLayer tpSize K (rankLayer s.toLayerSplit (c.layerRows i))) := by
    rw [NemotronCheckpoint.layers,List.forall₂_map_left_iff,List.forall₂_map_right_iff,
      List.forall₂_same]
    exact fun i hi => tokenLayer_maps (c.layerRows_hasShape (List.mem_range.mp hi))
  rw [NemotronLabsDiffusionLLM.forward_eq_stack,s.layerRanks_rankModel,s.embed_rankModel,
    s.logits_rankModel]
  simp only [stackForward_map hlayers]
  rw [NemotronCheckpoint.forward,List.map_zipWith,List.zipWith_map_left]

/-- The checkpoint on the ranks is the one without ranks, with its KV spread over them. -/
def kvImage [LinearOrder C] (readout : Readout R C) (K : Kernels R) :
    KvImage (c.denseModel readout K) where
  Kv := List (List (HeadsKv R))
  zero := allocatedKv R config tpSize
  forward := (servedModel readout config K tpSize (s.rankModel c)).forward
  forward_length := (servedModel readout config K tpSize (s.rankModel c)).forward_length
  image := List.map s.spreadKv
  zero_eq := s.allocatedKv_eq
  forward_eq := fun _ causal past tokens => s.forward_rankModel c K causal past tokens

end NemotronSplit

/-- The runner with its settings, over another placement of the model. -/
def onRanks [LinearOrder C] {readout : Readout R C}
    {ranks : Nat → NemotronLabsDiffusionLLM R}
    (Q : NemotronRunner (servedModel readout config K tpSize ranks)) (tpSize' : Nat)
    (ranks' : Nat → NemotronLabsDiffusionLLM R) :
    NemotronRunner (servedModel readout config K tpSize' ranks') where
  blockLength := Q.blockLength
  blockLength_pos := Q.blockLength_pos
  steps := Q.steps
  prefillChunkSize := Q.prefillChunkSize
  prefillChunkSize_pos := Q.prefillChunkSize_pos
  decoder := Q.decoder
  draftThreshold := Q.draftThreshold
  thinkingBudget := Q.thinkingBudget
  positionLimit := Q.positionLimit

section Serving

open NemotronLabsDiffusionLLM

variable [LinearOrder C] (readout : Readout R C) (K : Kernels R)

/-- Kernels that add the values of all positions up. -/
def summingKernels : Kernels Int where
  silu := id
  rmsNorm := List.zipWith (· * ·)
  rotaryEmb := fun _ head => head
  queryScale := none
  attend := fun headDim _ kvs => (List.range headDim).map fun i => (kvs.map fun kv =>
    kv.2.getD i 0).sum
  attend_length := by simp

def largestLogit : Readout Int Int where
  argmax := fun logits => logits.idxOf (logits.foldr max 0)
  confidence := fun logits => logits.foldr max 0

end Serving

end FluxServe.Parallel
