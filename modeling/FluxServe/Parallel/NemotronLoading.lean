import FluxServe.Parallel.NemotronDense
import FluxServe.Parallel.NemotronLoader
import FluxServe.Parallel.VocabLogits
import Mathlib.Logic.Function.Basic

namespace FluxServe.Parallel

variable {R : Type} [NonUnitalNonAssocSemiring R] {config : NemotronConfig} {tpSize r : Nat}

/-- Sizes of a model that divide among the ranks. -/
structure NemotronSplit (config : NemotronConfig) (tpSize : Nat) extends
    LayerSplit config tpSize where
  vocab : VocabSplit config.vocabSize config.vocabSize defaultVocabPaddingSize tpSize

/-- Sizes that the layers accept, with the query heads in groups. -/
structure NemotronConfig.Shardable (config : NemotronConfig) (tpSize : Nat) : Prop where
  tp_pos : 0 < tpSize
  vocab_pos : 0 < config.vocabSize
  heads_pos : 0 < config.numAttentionHeads
  groups : config.numKeyValueHeads ∣ config.numAttentionHeads
  heads : tpSize ∣ config.numAttentionHeads
  kvHeads : config.numKeyValueHeads ∣ tpSize ∨ tpSize ∣ config.numKeyValueHeads
  intermediate : tpSize ∣ config.intermediateSize
  vocab : tpSize ∣ padVocabSize config.vocabSize defaultVocabPaddingSize

theorem defaultVocabPadding_pos : 0 < defaultVocabPaddingSize := by
  decide

theorem padVocabSize_pad {padding : Nat} (n : Nat) (h : 0 < padding) :
    padVocabSize (padVocabSize n padding) padding = padVocabSize n padding := by
  have hdiv : (padVocabSize n padding+padding-1)/padding = (n+padding-1)/padding := by
    rw [Nat.add_sub_assoc h,padVocabSize,Nat.add_comm,Nat.add_mul_div_right _ _ h,
      Nat.div_eq_of_lt (Nat.sub_lt h Nat.zero_lt_one),Nat.zero_add]
  rw [padVocabSize,hdiv,← padVocabSize]

namespace NemotronConfig.Shardable

variable (h : config.Shardable tpSize)
include h

theorem kv_pos : 0 < config.numKeyValueHeads := Nat.pos_of_dvd_of_pos h.groups h.heads_pos

/-- One rank needs no size to divide. -/
theorem single : config.Shardable 1 where
  tp_pos := Nat.one_pos
  vocab_pos := h.vocab_pos
  heads_pos := h.heads_pos
  groups := h.groups
  heads := Nat.one_dvd _
  kvHeads := .inr (Nat.one_dvd _)
  intermediate := Nat.one_dvd _
  vocab := Nat.one_dvd _

theorem padded : tpSize ∣ padVocabSize (padVocabSize config.vocabSize defaultVocabPaddingSize+
    (config.vocabSize-config.vocabSize)) defaultVocabPaddingSize := by
  rw [Nat.sub_self,Nat.add_zero,padVocabSize_pad _ defaultVocabPadding_pos]
  exact h.vocab

end NemotronConfig.Shardable

/-- How the sizes divide. -/
def nemotronSplit (h : config.Shardable tpSize) : NemotronSplit config tpSize where
  toHeadSplit := headSplit h.tp_pos h.kv_pos h.heads h.kvHeads
  tp_pos := h.tp_pos
  groups := config.numAttentionHeads/config.numKeyValueHeads
  groups_pos := Nat.div_pos (Nat.le_of_dvd h.heads_pos h.groups) h.kv_pos
  groups_eq := (Nat.mul_div_cancel' h.groups).symm
  kv_pos := h.kv_pos
  intermediate := config.intermediateSize/tpSize
  intermediate_eq := (Nat.mul_div_cancel' h.intermediate).symm
  vocab := vocabSplit h.vocab_pos (Nat.le_refl _) defaultVocabPadding_pos h.tp_pos h.vocab h.padded

namespace LayerSplit

variable (s : LayerSplit config tpSize)

theorem attention_eq_mul :
    config.numAttentionHeads*config.headDim = tpSize*(s.numHeads*config.headDim) := by
  rw [← Nat.mul_assoc]
  exact congrArg (· * config.headDim) s.heads_eq

theorem numHeads_div : config.numAttentionHeads/tpSize = s.numHeads :=
  Nat.div_eq_of_eq_mul_right s.tp_pos s.heads_eq

/-- The number that the attention and the cache take for the key-value heads of a rank. -/
theorem numKvHeads_max : max 1 (config.numKeyValueHeads/tpSize) = s.numKvHeads := by
  have hkv := s.numKvHeads_pos
  have htp := s.tp_pos
  rcases s.replicated with hone | hone
  · have hle : config.numKeyValueHeads ≤ tpSize := by
      have hkv := s.kvHeads_eq
      rw [hone,Nat.mul_one] at hkv
      have hreplicas : 0 < s.replicas :=
        Nat.pos_of_mul_pos_left (Nat.lt_of_lt_of_eq htp s.tpSize_eq)
      calc config.numKeyValueHeads = s.kvShards*1 := hkv.trans (Nat.mul_one _).symm
        _ ≤ s.kvShards*s.replicas := Nat.mul_le_mul_left _ hreplicas
        _ = tpSize := s.tpSize_eq.symm
    have hdiv : config.numKeyValueHeads/tpSize ≤ 1 := Nat.div_le_of_le_mul (by omega)
    rw [hone]
    omega
  · have hshards : tpSize = s.kvShards := by
      have htp := s.tpSize_eq
      rwa [hone,Nat.mul_one] at htp
    have hdiv : config.numKeyValueHeads/tpSize = s.numKvHeads := by
      refine Nat.div_eq_of_eq_mul_right htp (s.kvHeads_eq.trans ?_)
      exact congrArg (· * s.numKvHeads) hshards.symm
    rw [hdiv]
    omega

/-- What a rank keeps of a layer's tensor. -/
def piece (r : Nat) : LayerWeight → Weight R → Weight R
  | .qProj,rows => shard (s.numHeads*config.headDim) r rows
  | .kProj,rows | .vProj,rows => shard (s.numKvHeads*config.headDim) (s.kvShard r) rows
  | .oProj,rows => rows.map (shard (s.numHeads*config.headDim) r)
  | .gateProj,rows | .upProj,rows => shard s.intermediate r rows
  | .downProj,rows => rows.map (shard s.intermediate r)
  | .inputLayernorm,rows | .postAttentionLayernorm,rows => rows

/-- A layer of a rank, put together from its parts. -/
def assemble (r : Nat) (p : LayerWeight → Weight R) : NemotronDiffusionDecoderLayer R where
  selfAttn := {
    headDim := config.headDim
    numHeads := s.numHeads
    numKvHeads := s.numKvHeads
    qkvProj := ⟨config.hiddenSize,config.headDim,r,s.numHeads,s.numKvHeads,s.replicas,
      p .qProj ++ p .kProj ++ p .vProj⟩
    oProj := ⟨config.hiddenSize,s.numHeads*config.headDim,r,p .oProj,none⟩ }
  mlp := {
    gateUpProj := ⟨config.hiddenSize,[tpSize*s.intermediate,tpSize*s.intermediate],r,tpSize,
      p .gateProj ++ p .upProj⟩
    downProj := ⟨config.hiddenSize,s.intermediate,r,p .downProj,none⟩ }
  inputLayernorm := (p .inputLayernorm).headD []
  postAttentionLayernorm := (p .postAttentionLayernorm).headD []

/-- A part of the size that its parameter has for it. -/
def Fits : LayerWeight → Weight R → Prop
  | .qProj,rows => rows.length = s.numHeads*config.headDim
  | .kProj,rows | .vProj,rows => rows.length = s.numKvHeads*config.headDim
  | .gateProj,rows | .upProj,rows => rows.length = s.intermediate
  | .inputLayernorm,rows | .postAttentionLayernorm,rows =>
    (rows.headD []).length = config.hiddenSize
  | .oProj,_ | .downProj,_ => True

end LayerSplit

namespace Tensor

theorem rows_of_shape {t : Tensor R} {n m : Nat} (h : t.shape = [n,m]) :
    t.rows.length = n ∧ hasColumns m t.rows = true := by
  cases t with
  | vector data => cases h
  | matrix columns rows rect =>
    simp only [shape,List.cons.injEq,and_true] at h
    obtain ⟨hrows,rfl⟩ := h
    exact ⟨hrows,hasColumns_iff.mpr rect⟩

theorem head_of_shape {t : Tensor R} {n : Nat} (h : t.shape = [n]) :
    (t.rows.headD []).length = n := by
  cases t with
  | vector data => exact (List.cons.inj h).1
  | matrix columns rows rect => cases h

end Tensor

namespace LayerSplit

variable (s : LayerSplit config tpSize) {p : LayerWeight → Weight R} {t : Tensor R}

theorem copyParam_eq {param : List R} {n : Nat} (hparam : param.length = n) (h : t.shape = [n]) :
    copyParam param t = some (t.rows.headD []) := by
  rw [copyParam,hparam,if_pos h]

/-- Loading a tensor of the layer puts the rank's part of it where the part before it was. -/
theorem loadWeight_assemble (hr : r < tpSize) (hp : ∀ w, s.Fits w (p w)) (w : LayerWeight)
    (h : t.shape = w.shape config) :
    (s.assemble r p).loadWeight t w =
      some (s.assemble r (Function.update p w (s.piece r w t.rows))) := by
  cases w with
  | inputLayernorm =>
    have hcopy := copyParam_eq (hp .inputLayernorm) h
    refine (congrArg (Option.map _) hcopy).trans (congrArg some ?_)
    simp [assemble,piece]
  | postAttentionLayernorm =>
    have hcopy := copyParam_eq (hp .postAttentionLayernorm) h
    refine (congrArg (Option.map _) hcopy).trans (congrArg some ?_)
    simp [assemble,piece]
  | qProj =>
    obtain ⟨hrows,hcolumns⟩ := Tensor.rows_of_shape h
    have hload := qkv_query s.toHeadSplit hrows hcolumns hr (hp .qProj) (k := p .kProj)
      (v := p .vProj)
    refine (congrArg (Option.map (s.assemble r p).withQkv) hload).trans (congrArg some ?_)
    simp [NemotronDiffusionDecoderLayer.withQkv,assemble,piece]
  | kProj =>
    obtain ⟨hrows,hcolumns⟩ := Tensor.rows_of_shape h
    have hload := qkv_key s.toHeadSplit hrows hcolumns hr (hp .qProj) (hp .kProj) (v := p .vProj)
    refine (congrArg (Option.map (s.assemble r p).withQkv) hload).trans (congrArg some ?_)
    simp [NemotronDiffusionDecoderLayer.withQkv,assemble,piece]
  | vProj =>
    obtain ⟨hrows,hcolumns⟩ := Tensor.rows_of_shape h
    have hload := qkv_value s.toHeadSplit hrows hcolumns hr (hp .qProj) (hp .kProj) (hp .vProj)
    refine (congrArg (Option.map (s.assemble r p).withQkv) hload).trans (congrArg some ?_)
    simp [NemotronDiffusionDecoderLayer.withQkv,assemble,piece]
  | oProj =>
    obtain ⟨hrows,hcolumns⟩ := Tensor.rows_of_shape h
    rw [s.attention_eq_mul] at hcolumns
    have hload := rowParallel_load (p .oProj) hrows hcolumns hr
    refine (congrArg (Option.map _) hload).trans (congrArg some ?_)
    simp [assemble,piece]
  | gateProj =>
    obtain ⟨hrows,hcolumns⟩ := Tensor.rows_of_shape h
    have hload := mergedColumn_first (p .upProj) (hrows.trans s.intermediate_eq) hcolumns hr
      (hp .gateProj)
    refine (congrArg (Option.map (s.assemble r p).withGateUp) hload).trans (congrArg some ?_)
    simp [NemotronDiffusionDecoderLayer.withGateUp,assemble,piece]
  | upProj =>
    obtain ⟨hrows,hcolumns⟩ := Tensor.rows_of_shape h
    have hload := mergedColumn_second (hrows.trans s.intermediate_eq) hcolumns hr
      (hp .gateProj) (hp .upProj)
    refine (congrArg (Option.map (s.assemble r p).withGateUp) hload).trans (congrArg some ?_)
    simp [NemotronDiffusionDecoderLayer.withGateUp,assemble,piece]
  | downProj =>
    obtain ⟨hrows,hcolumns⟩ := Tensor.rows_of_shape h
    rw [s.intermediate_eq] at hcolumns
    have hload := rowParallel_load (p .downProj) hrows hcolumns hr
    refine (congrArg (Option.map _) hload).trans (congrArg some ?_)
    simp [assemble,piece]

/-- The rank's part of a tensor fits. -/
theorem piece_fits (hr : r < tpSize) (w : LayerWeight) (h : t.shape = w.shape config) :
    s.Fits w (s.piece r w t.rows) := by
  cases w with
  | inputLayernorm => exact Tensor.head_of_shape h
  | postAttentionLayernorm => exact Tensor.head_of_shape h
  | qProj => exact length_shard ((Tensor.rows_of_shape h).1.trans s.attention_eq_mul) hr
  | kProj => exact (kvRows s.toHeadSplit (Tensor.rows_of_shape h).1 hr).2
  | vProj => exact (kvRows s.toHeadSplit (Tensor.rows_of_shape h).1 hr).2
  | oProj => trivial
  | gateProj => exact length_shard ((Tensor.rows_of_shape h).1.trans s.intermediate_eq) hr
  | upProj => exact length_shard ((Tensor.rows_of_shape h).1.trans s.intermediate_eq) hr
  | downProj => trivial

/-- The parts of parameters with these contents. -/
def partsOf (s : LayerSplit config tpSize) (qkv gateUp o down : Weight R)
    (norm : LayerWeight → List R) : LayerWeight → Weight R
  | .qProj => qkv.take (s.numHeads*config.headDim)
  | .kProj => (qkv.drop (s.numHeads*config.headDim)).take (s.numKvHeads*config.headDim)
  | .vProj => (qkv.drop (s.numHeads*config.headDim)).drop (s.numKvHeads*config.headDim)
  | .oProj => o
  | .gateProj => gateUp.take s.intermediate
  | .upProj => gateUp.drop s.intermediate
  | .downProj => down
  | w => [norm w]

/-- A new layer is put together from parts that fit. -/
theorem new_assemble (data : LayerWeight → Nat → Nat → R) (r : Nat) :
    ∃ p : LayerWeight → Weight R, (∀ w, s.Fits w (p w)) ∧
      NemotronDiffusionDecoderLayer.new data config r tpSize = some (s.assemble r p) := by
  have htp := s.tp_pos
  obtain ⟨qkv,hqkv,hnewQkv⟩ := @qkv_new R _ (data .qProj) config.hiddenSize tpSize r
    config.numAttentionHeads config.numKeyValueHeads config.headDim s.toHeadSplit htp
  obtain ⟨gateUp,hgateUp,hnewGateUp⟩ := @mergedColumn_new R s.intermediate _ (data .gateProj)
    config.hiddenSize tpSize r htp
  obtain ⟨o,hnewO⟩ := @rowParallel_new R (s.numHeads*config.headDim) _ (data .oProj) tpSize r
    config.hiddenSize htp
  obtain ⟨down,hnewDown⟩ := @rowParallel_new R s.intermediate _ (data .downProj) tpSize r
    config.hiddenSize htp
  rw [← s.attention_eq_mul] at hnewO
  have hheads : config.numAttentionHeads%tpSize = 0 :=
    Nat.mod_eq_zero_of_dvd ⟨s.numHeads,s.heads_eq⟩
  refine ⟨s.partsOf qkv gateUp o down fun w => emptyNorm (data w) config.hiddenSize,?_,?_⟩
  · intro w
    cases w with
    | vProj =>
      simp only [partsOf,Fits,List.length_drop,hqkv]
      omega
    | _ => simp [partsOf,Fits,emptyNorm,hqkv,hgateUp]
  · have hparts : qkv.take (s.numHeads*config.headDim) ++
        (qkv.drop (s.numHeads*config.headDim)).take (s.numKvHeads*config.headDim) ++
        (qkv.drop (s.numHeads*config.headDim)).drop (s.numKvHeads*config.headDim) = qkv := by
      rw [List.append_assoc,List.take_append_drop,List.take_append_drop]
    simp only [NemotronDiffusionDecoderLayer.new,hheads,hnewQkv,hnewO,hnewGateUp,hnewDown,
      s.numHeads_div,s.numKvHeads_max,Option.bind_eq_bind,Option.bind_some,assemble,partsOf,hparts,
      List.take_append_drop,s.intermediate_eq]
    rfl

end LayerSplit

namespace NemotronSplit

variable (s : NemotronSplit config tpSize) {p : Source → Weight R} {t : Tensor R}

/-- What a rank keeps of a tensor. -/
def piece (r : Nat) : Source → Weight R → Weight R
  | .embedTokens,rows | .diffusionHead,rows => rankRows s.vocab config.hiddenSize rows r
  | .layer _ w,rows => s.toLayerSplit.piece r w rows
  | .norm,rows | .other _,rows => rows

/-- The model of a rank, put together from its parts. -/
def assemble (r : Nat) (p : Source → Weight R) : NemotronLabsDiffusionLLM R where
  embedTokens := { rankEmbedding s.vocab config.hiddenSize ([] : Weight R) r with
    weight := p .embedTokens }
  layers := (List.range config.numHiddenLayers).map fun i =>
    s.toLayerSplit.assemble r fun w => p (.layer i w)
  norm := (p .norm).headD []
  lmHead := { rankEmbedding s.vocab config.hiddenSize ([] : Weight R) r with
    weight := p .diffusionHead }

/-- A part of the size that its parameter has for it. -/
def Fits : Source → Weight R → Prop
  | .embedTokens,rows | .diffusionHead,rows => rows.length = s.vocab.size+s.vocab.addedSize
  | .norm,rows => (rows.headD []).length = config.hiddenSize
  | .layer _ w,rows => s.toLayerSplit.Fits w rows
  | .other _,_ => True

theorem layers_update (r i : Nat) (w : LayerWeight) (x : Weight R)
    (hi : i < config.numHiddenLayers) :
    ((List.range config.numHiddenLayers).map fun j =>
      s.toLayerSplit.assemble r fun v => p (.layer j v)).set i
        (s.toLayerSplit.assemble r (Function.update (fun v => p (.layer i v)) w x)) =
      (List.range config.numHiddenLayers).map fun j =>
        s.toLayerSplit.assemble r fun v => Function.update p (.layer i w) x (.layer j v) := by
  apply List.ext_getElem?
  intro j
  rw [List.getElem?_set]
  by_cases hj : i = j
  · subst hj
    have hlen : i < ((List.range config.numHiddenLayers).map fun j =>
        s.toLayerSplit.assemble r fun v => p (.layer j v)).length := by simpa using hi
    rw [if_pos rfl,if_pos hlen,List.getElem?_map,List.getElem?_range hi,Option.map_some]
    congr 2
    funext v
    by_cases hv : v = w
    · subst hv
      simp
    · simp [Function.update_of_ne,hv]
  · rw [if_neg hj]
    by_cases hlt : j < config.numHiddenLayers
    · rw [List.getElem?_map,List.getElem?_map,List.getElem?_range hlt,Option.map_some,
        Option.map_some]
      congr 2
      funext v
      simp [Function.update_of_ne,Ne.symm hj]
    · simp [hlt]

/-- Loading a tensor puts the rank's part of it where the part before it was. -/
theorem loadWeight_assemble (hr : r < tpSize) (hp : ∀ name, s.Fits name (p name)) (name : Source)
    (h : config.planShape name = some t.shape) :
    (s.assemble r p).loadWeight name t =
      some (s.assemble r (Function.update p name (s.piece r name t.rows))) := by
  cases name with
  | embedTokens =>
    obtain ⟨hrows,hcolumns⟩ := Tensor.rows_of_shape (Option.some.inj h).symm
    have hload := embedding_weightLoader s.vocab hrows hcolumns r (hp .embedTokens)
    refine (congrArg (Option.map _) hload).trans (congrArg some ?_)
    simp [assemble,piece,rankEmbedding]
  | norm =>
    have hcopy := LayerSplit.copyParam_eq (hp .norm) (Option.some.inj h).symm
    refine (congrArg (Option.map _) hcopy).trans (congrArg some ?_)
    simp [assemble,piece]
  | diffusionHead =>
    obtain ⟨hrows,hcolumns⟩ := Tensor.rows_of_shape (Option.some.inj h).symm
    have hload := embedding_weightLoader s.vocab hrows hcolumns r (hp .diffusionHead)
    refine (congrArg (Option.map _) hload).trans (congrArg some ?_)
    simp [assemble,piece,rankEmbedding]
  | layer i w =>
    by_cases hi : i < config.numHiddenLayers
    · rw [NemotronConfig.planShape,if_pos hi] at h
      have hlayer : (s.assemble r p).layers[i]? =
          some (s.toLayerSplit.assemble r fun v => p (.layer i v)) := by
        simp [assemble,hi]
      have hload := s.toLayerSplit.loadWeight_assemble hr (fun v => hp (.layer i v)) w
        (Option.some.inj h).symm
      simp only [NemotronLabsDiffusionLLM.loadWeight,hlayer,Option.bind_eq_bind,Option.bind_some,
        hload]
      refine congrArg some ?_
      simp [assemble,piece,layers_update s r i w _ hi]
    · rw [NemotronConfig.planShape,if_neg hi] at h
      cases h
  | other name => cases h

end NemotronSplit

end FluxServe.Parallel
