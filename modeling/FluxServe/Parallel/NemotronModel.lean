import FluxServe.Parallel.NemotronWeights

namespace FluxServe.Parallel

/-- The functions of the libraries below on one token: of the activation, the norm, the rotary
embedding and the attention of one head, which gives a vector of the head's size. -/
structure Kernels (R : Type) where
  silu : R → R
  rmsNorm : (weight x : List R) → List R
  rotaryEmb : (position : Nat) → (head : List R) → List R
  /-- `nemotron_query_scale`, which may be disabled. -/
  queryScale : Option (Nat → R)
  attend : (headDim : Nat) → (query : List R) → (keyValues : List (List R × List R)) → List R
  attend_length : ∀ headDim query keyValues, (attend headDim query keyValues).length = headDim

/-- The heads of a query at a position. -/
def Kernels.scaled {R : Type} [Mul R] (K : Kernels R) (position : Nat) (query : List (List R)) :
    List (List R) :=
  match K.queryScale with
  | none => query
  | some scale => query.map fun head => head.map (· * scale position)

/-- The keys and the values of one position, a vector for each head. -/
structure HeadsKv (R : Type) where
  keys : List (List R)
  values : List (List R)

instance {R : Type} : Inhabited (HeadsKv R) := ⟨⟨[],[]⟩⟩

structure NemotronDiffusionAttention (R : Type) where
  headDim : Nat
  numHeads : Nat
  numKvHeads : Nat
  qkvProj : QKVParallelLinear R
  oProj : RowParallelLinear R

structure NemotronDiffusionMLP (R : Type) where
  gateUpProj : MergedColumnParallelLinear R
  downProj : RowParallelLinear R

structure NemotronDiffusionDecoderLayer (R : Type) where
  selfAttn : NemotronDiffusionAttention R
  mlp : NemotronDiffusionMLP R
  inputLayernorm : List R
  postAttentionLayernorm : List R

/-- What a rank holds of the model. -/
structure NemotronLabsDiffusionLLM (R : Type) where
  embedTokens : VocabParallelEmbedding R
  layers : List (NemotronDiffusionDecoderLayer R)
  norm : List R
  lmHead : VocabParallelEmbedding R

variable {R : Type} [NonUnitalNonAssocSemiring R]

/-- A token's vector seen as heads. -/
def heads (n headDim : Nat) (x : List R) : List (List R) :=
  (List.range n).map fun j => shard headDim j x

/-- Each head `nRep` times. -/
def repeatKv {α : Type} (nRep : Nat) (hs : List α) : List α := hs.flatMap (List.replicate nRep)

/-- `splice_cache`: the new positions are the last ones of the cache. -/
def spliceCache {α : Type} (cache new : List α) : List α :=
  cache.take (cache.length-new.length) ++ new

def siluAndMul (K : Kernels R) (x : List R) : List R :=
  let d := x.length/2
  List.zipWith (· * ·) ((x.take d).map K.silu) (x.drop d)

namespace NemotronDiffusionAttention

variable (a : NemotronDiffusionAttention R)

def qSize : Nat := a.numHeads*a.headDim
def kvSize : Nat := a.numKvHeads*a.headDim
def numKeyValueGroups : Nat := a.numHeads/a.numKvHeads

def queries (K : Kernels R) (position : Nat) (qkv : List R) : List (List R) :=
  K.scaled position ((heads a.numHeads a.headDim (qkv.take a.qSize)).map (K.rotaryEmb position))

def keysValues (K : Kernels R) (position : Nat) (qkv : List R) : HeadsKv R where
  keys := (heads a.numKvHeads a.headDim ((qkv.drop a.qSize).take a.kvSize)).map
    (K.rotaryEmb position)
  values := heads a.numKvHeads a.headDim ((qkv.drop (a.qSize+a.kvSize)).take a.kvSize)

/-- The heads of one token over the positions that take part. -/
def attendHeads (K : Kernels R) (query : List (List R)) (visible : List (HeadsKv R)) : List R :=
  let repeated := visible.map fun x =>
    HeadsKv.mk (repeatKv a.numKeyValueGroups x.keys) (repeatKv a.numKeyValueGroups x.values)
  (List.range a.numHeads).flatMap fun j => K.attend a.headDim (query.getD j [])
    (repeated.map fun x => (x.keys.getD j [],x.values.getD j []))

/-- `F.scaled_dot_product_attention` with a mask, one row of which is the token's. -/
def scaledDotProduct (K : Kernels R) (query : List (List R)) (kv : List (HeadsKv R))
    (mask : Nat → Bool) : List R :=
  a.attendHeads K query ((kv.zipIdx.filter fun x => mask x.2).map Prod.fst)

/-- `forward` up to the output projection, and the keys and values of all positions. -/
def forward (K : Kernels R) (positions : List Nat) (hidden : List (List R))
    (cache : List (HeadsKv R)) (mask : Nat → Nat → Bool) : List (List R) × List (HeadsKv R) :=
  let qkv := hidden.map a.qkvProj.forward
  let q := List.zipWith (a.queries K) positions qkv
  let kv := spliceCache cache (List.zipWith (a.keysValues K) positions qkv)
  (q.mapIdx fun i query => a.scaledDotProduct K query kv (mask i),kv)

end NemotronDiffusionAttention

/-- What a rank adds to the output of the layer. -/
def NemotronDiffusionMLP.outputParallel (m : NemotronDiffusionMLP R) (K : Kernels R) (x : List R) :
    List R :=
  m.downProj.outputParallel (siluAndMul K (m.gateUpProj.forward x))

/-- A decoder layer on all ranks. A sum over the ranks is the same on each of them, so is what
leaves the layer. -/
def layerForward (tpSize : Nat) (ranks : Nat → NemotronDiffusionDecoderLayer R) (K : Kernels R)
    (positions : List Nat) (hidden : List (List R)) (cache : List (List (HeadsKv R)))
    (mask : Nat → Nat → Bool) : List (List R) × List (List (HeadsKv R)) :=
  let attention := fun r => (ranks r).selfAttn.forward K positions
    (hidden.map (K.rmsNorm (ranks r).inputLayernorm)) (cache.map fun kv => kv.getD r default) mask
  let attnOutput := (List.range hidden.length).map fun i => allReduce tpSize fun r =>
    (ranks r).selfAttn.oProj.outputParallel ((attention r).1.getD i [])
  let present := (List.range cache.length).map fun p => (List.range tpSize).map fun r =>
    (attention r).2.getD p default
  let hidden := List.zipWith (List.zipWith (· + ·)) hidden attnOutput
  let output := hidden.map fun x => List.zipWith (· + ·) x (allReduce tpSize fun r =>
    (ranks r).mlp.outputParallel K (K.rmsNorm (ranks r).postAttentionLayernorm x))
  (output,present)

/-- The layers one after another, each with its own part of the cache. -/
def layersForward (tpSize : Nat) (K : Kernels R) (positions : List Nat)
    (mask : Nat → Nat → Bool) : List (Nat → NemotronDiffusionDecoderLayer R) →
    List (List (List (HeadsKv R))) → List (List R) → List (List R) × List (List (List (HeadsKv R)))
  | [],cache,hidden => (hidden,cache.map fun _ => [])
  | ranks :: layers,cache,hidden =>
    let own := cache.map fun kv => kv.headD (List.replicate tpSize default)
    let a := layerForward tpSize ranks K positions hidden own mask
    let b := layersForward tpSize K positions mask layers (cache.map List.tail) a.1
    (b.1,List.zipWith List.cons a.2 b.2)

namespace NemotronLabsDiffusionLLM

/-- A layer of all ranks. -/
def layerRanks (ranks : Nat → NemotronLabsDiffusionLLM R) :
    List (Nat → NemotronDiffusionDecoderLayer R) :=
  (ranks 0).layers.mapIdx fun i layer r => ((ranks r).layers[i]?).getD layer

/-- `embed_tokens`. An id of no vocabulary raises on a single rank; it has zeros here, as several
ranks give it. -/
def embed (tpSize : Nat) (ranks : Nat → NemotronLabsDiffusionLLM R) (id : Int) : List R :=
  (VocabParallelEmbedding.forward tpSize (fun r => (ranks r).embedTokens) id).getD
    (List.replicate (ranks 0).embedTokens.embeddingDim 0)

def causalMask (prefixLength query key : Nat) : Bool := decide (key ≤ prefixLength+query)

/-- A forward of all ranks over the KV of the positions before the tokens: for each token the KV of
its layers and ranks, and the logits of rank 0. -/
def forward (tpSize vocabSize : Nat) (ranks : Nat → NemotronLabsDiffusionLLM R) (K : Kernels R)
    (causal : Bool) (past : List (List (List (HeadsKv R)))) (tokens : List Int) :
    List (List (List (HeadsKv R)) × List R) :=
  let positions := List.range' past.length tokens.length
  let mask := if causal then causalMask past.length else fun _ _ => true
  let cache := past ++ List.replicate tokens.length []
  let out := layersForward tpSize K positions mask (layerRanks ranks) cache
    (tokens.map (embed tpSize ranks))
  List.zipWith (fun kv x => (kv,(VocabParallelEmbedding.getLogits tpSize vocabSize
      (fun r => (ranks r).lmHead) 0 (K.rmsNorm (ranks 0).norm x)).getD []))
    (out.2.drop past.length) out.1

end NemotronLabsDiffusionLLM

end FluxServe.Parallel
