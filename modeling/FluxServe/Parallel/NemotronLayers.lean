import FluxServe.Framework.LayerStack
import FluxServe.Parallel.NemotronModel

namespace FluxServe.Parallel

section Lists

variable {α β γ : Type}

theorem mapIdx_map (f : Nat → β → γ) (g : α → β) (l : List α) :
    (l.map g).mapIdx f = l.mapIdx fun i x => f i (g x) := by
  apply List.ext_getElem?
  intro i
  simp [Function.comp_def]

theorem map_mapIdx (f : Nat → α → β) (g : β → γ) (l : List α) :
    (l.mapIdx f).map g = l.mapIdx fun i x => g (f i x) := by
  apply List.ext_getElem?
  intro i
  simp [Function.comp_def]

theorem zipWith_mapIdx (f : α → β → γ) (g : Nat → α → β) (l : List α) :
    List.zipWith f l (l.mapIdx g) = l.mapIdx fun i x => f x (g i x) := by
  apply List.ext_getElem?
  intro i
  rw [List.getElem?_zipWith,List.getElem?_mapIdx,List.getElem?_mapIdx]
  cases l[i]? <;> rfl

/-- A causal mask leaves the positions up to the token's own. -/
theorem filter_zipIdx_le (l : List α) (n : Nat) :
    ((l.zipIdx.filter fun x => decide (x.2 ≤ n)).map Prod.fst) = l.take (n+1) := by
  have hfrom : ∀ start, (((l.zipIdx start).filter fun x => decide (x.2 ≤ n)).map Prod.fst) =
      l.take (n+1-start) := by
    induction l with
    | nil => simp
    | cons a l ih =>
      intro start
      rw [List.zipIdx_cons,List.filter_cons]
      by_cases hle : start ≤ n
      · have hsub : n+1-start = n+1-(start+1)+1 := by omega
        simp [hle,ih,hsub]
      · have hsub : n+1-start = 0 := by omega
        have hsub' : n+1-(start+1) = 0 := by omega
        simp [hle,ih,hsub,hsub']
  simpa using hfrom 0

theorem filter_zipIdx_true (l : List α) :
    ((l.zipIdx.filter fun _ => true).map Prod.fst) = l := by
  simp

theorem zipWith_range' (f : Nat → α → β) (start : Nat) (l : List α) :
    List.zipWith f (List.range' start l.length) l = l.mapIdx fun i x => f (start+i) x := by
  apply List.ext_getElem?
  intro i
  rw [List.getElem?_zipWith,List.getElem?_mapIdx]
  by_cases hi : i < l.length
  · rw [List.getElem?_range' hi,List.getElem?_eq_getElem hi,Nat.one_mul]
    rfl
  · simp [List.getElem?_eq_none_iff.mpr (Nat.le_of_not_lt hi)]

/-- The positions that are new take the places of the last ones. -/
theorem spliceCache_append {past junk new : List α} (h : junk.length = new.length) :
    spliceCache (past ++ junk) new = past ++ new := by
  rw [spliceCache,List.length_append,h,Nat.add_sub_cancel,List.take_left]

end Lists

variable {R : Type} [NonUnitalNonAssocSemiring R] {K : Kernels R} {tpSize : Nat}

/-- A decoder layer on all ranks, token by token. -/
def tokenLayer (tpSize : Nat) (K : Kernels R) (ranks : Nat → NemotronDiffusionDecoderLayer R) :
    AttentionLayer (List R) (List (HeadsKv R)) where
  missing := List.replicate tpSize default
  kv := fun position x => (List.range tpSize).map fun r =>
    (ranks r).selfAttn.keysValues K position
      ((ranks r).selfAttn.qkvProj.forward (K.rmsNorm (ranks r).inputLayernorm x))
  out := fun position x visible =>
    let attn := allReduce tpSize fun r =>
      (ranks r).selfAttn.oProj.outputParallel ((ranks r).selfAttn.attendHeads K
        ((ranks r).selfAttn.queries K position
          ((ranks r).selfAttn.qkvProj.forward (K.rmsNorm (ranks r).inputLayernorm x)))
        (visible.map fun kv => kv.getD r default))
    let x := List.zipWith (· + ·) x attn
    List.zipWith (· + ·) x (allReduce tpSize fun r =>
      (ranks r).mlp.outputParallel K (K.rmsNorm (ranks r).postAttentionLayernorm x))

variable {ranks : Nat → NemotronDiffusionDecoderLayer R} {causal : Bool}

/-- The mask of a forward after `start` positions. -/
def forwardMask (causal : Bool) (start : Nat) : Nat → Nat → Bool :=
  if causal then NemotronLabsDiffusionLLM.causalMask start else fun _ _ => true

theorem visible_eq {α : Type} (kv : List α) (start i : Nat) :
    (kv.zipIdx.filter fun x => forwardMask causal start i x.2).map Prod.fst =
      if causal then kv.take (start+i+1) else kv := by
  cases causal with
  | false => exact filter_zipIdx_true kv
  | true => exact filter_zipIdx_le kv (start+i)

/-- The KV of a rank is a part of the KV of all. -/
theorem tokenLayer_newKv_rank {r : Nat} (hr : r < tpSize) (start : Nat) (hidden : List (List R)) :
    ((tokenLayer tpSize K ranks).newKv start hidden).map (fun kv => kv.getD r default) =
      hidden.mapIdx fun i x => (ranks r).selfAttn.keysValues K (start+i)
        ((ranks r).selfAttn.qkvProj.forward (K.rmsNorm (ranks r).inputLayernorm x)) := by
  apply List.ext_getElem?
  intro i
  rw [List.getElem?_map,AttentionLayer.newKv,List.getElem?_mapIdx,List.getElem?_mapIdx,
    Option.map_map]
  congr 1
  funext x
  simp [tokenLayer,List.getD_eq_getElem?_getD,List.getElem?_range hr]

/-- The attention of a rank, token by token. -/
theorem attention_eq {r : Nat} (hr : r < tpSize) (past junk : List (List (HeadsKv R)))
    (hidden : List (List R)) (hjunk : junk.length = hidden.length) :
    let l := tokenLayer tpSize K ranks
    let all := past ++ l.newKv past.length hidden
    (ranks r).selfAttn.forward K (List.range' past.length hidden.length)
      (hidden.map (K.rmsNorm (ranks r).inputLayernorm))
      ((past ++ junk).map fun kv => kv.getD r default) (forwardMask causal past.length) =
    (hidden.mapIdx fun i x => (ranks r).selfAttn.attendHeads K
        ((ranks r).selfAttn.queries K (past.length+i)
          ((ranks r).selfAttn.qkvProj.forward (K.rmsNorm (ranks r).inputLayernorm x)))
        ((if causal then all.take (past.length+i+1) else all).map fun kv => kv.getD r default),
      all.map fun kv => kv.getD r default) := by
  intro l all
  have hzip : ∀ {γ : Type} (f : Nat → List R → γ), List.zipWith f
      (List.range' past.length hidden.length)
      ((hidden.map (K.rmsNorm (ranks r).inputLayernorm)).map (ranks r).selfAttn.qkvProj.forward) =
      hidden.mapIdx fun i x => f (past.length+i)
        ((ranks r).selfAttn.qkvProj.forward (K.rmsNorm (ranks r).inputLayernorm x)) := by
    intro γ f
    have hlen : hidden.length = ((hidden.map (K.rmsNorm (ranks r).inputLayernorm)).map
        (ranks r).selfAttn.qkvProj.forward).length := by simp
    rw [hlen,zipWith_range']
    rw [mapIdx_map,mapIdx_map]
  have hkv : spliceCache ((past ++ junk).map fun kv => kv.getD r default)
      (hidden.mapIdx fun i x => (ranks r).selfAttn.keysValues K (past.length+i)
        ((ranks r).selfAttn.qkvProj.forward (K.rmsNorm (ranks r).inputLayernorm x))) =
      all.map fun kv => kv.getD r default := by
    rw [← tokenLayer_newKv_rank hr,List.map_append,spliceCache_append,← List.map_append]
    simp [hjunk]
  simp only [NemotronDiffusionAttention.forward,hzip,hkv,NemotronDiffusionAttention.scaledDotProduct,
    List.mapIdx_mapIdx,visible_eq]
  congr 2
  funext i x
  cases causal with
  | false => rfl
  | true => simp only [Function.comp_apply,if_true,List.map_take]

theorem allReduce_congr {f g : Nat → List R} (h : ∀ r < tpSize, f r = g r) :
    allReduce tpSize f = allReduce tpSize g := by
  rw [allReduce,allReduce,List.map_congr_left fun r hr => h r (List.mem_range.mp hr)]

/-- The forward of a layer is the one of its tokens. -/
theorem layerForward_fst (past junk : List (List (HeadsKv R))) (hidden : List (List R))
    (hjunk : junk.length = hidden.length) :
    (layerForward tpSize ranks K (List.range' past.length hidden.length) hidden
      (past ++ junk) (forwardMask causal past.length)).1 =
      ((tokenLayer tpSize K ranks).forward causal past hidden).1 := by
  let l := tokenLayer tpSize K ranks
  let all := past ++ l.newKv past.length hidden
  let attn := fun i x => allReduce tpSize fun r =>
    (ranks r).selfAttn.oProj.outputParallel ((ranks r).selfAttn.attendHeads K
      ((ranks r).selfAttn.queries K (past.length+i)
        ((ranks r).selfAttn.qkvProj.forward (K.rmsNorm (ranks r).inputLayernorm x)))
      ((if causal then all.take (past.length+i+1) else all).map fun kv => kv.getD r default))
  have hattn : ((List.range hidden.length).map fun i => allReduce tpSize fun r =>
      (ranks r).selfAttn.oProj.outputParallel (((ranks r).selfAttn.forward K
        (List.range' past.length hidden.length)
        (hidden.map (K.rmsNorm (ranks r).inputLayernorm))
        ((past ++ junk).map fun kv => kv.getD r default)
        (forwardMask causal past.length)).1.getD i [])) = hidden.mapIdx attn := by
    apply List.ext_getElem?
    intro i
    rw [List.getElem?_map,List.getElem?_mapIdx]
    by_cases hi : i < hidden.length
    · rw [List.getElem?_range hi,List.getElem?_eq_getElem hi,Option.map_some,Option.map_some]
      refine congrArg some (allReduce_congr fun r hr => ?_)
      rw [attention_eq hr past junk hidden hjunk]
      simp [List.getD_eq_getElem?_getD,List.getElem?_eq_getElem hi,all,l]
    · rw [List.getElem?_eq_none_iff.mpr (by rw [List.length_range]; omega),
        List.getElem?_eq_none_iff.mpr (Nat.le_of_not_lt hi)]
      rfl
  simp only [layerForward,hattn,zipWith_mapIdx,map_mapIdx]
  rfl

theorem layerForward_snd (past junk : List (List (HeadsKv R))) (hidden : List (List R))
    (hjunk : junk.length = hidden.length) :
    (layerForward tpSize ranks K (List.range' past.length hidden.length) hidden
      (past ++ junk) (forwardMask causal past.length)).2.drop past.length =
      ((tokenLayer tpSize K ranks).forward causal past hidden).2 := by
  let l := tokenLayer tpSize K ranks
  show _ = l.newKv past.length hidden
  apply List.ext_getElem?
  intro i
  simp only [layerForward,List.getElem?_drop,List.getElem?_map]
  by_cases hi : i < hidden.length
  · have hlt : past.length+i < (past ++ junk).length := by
      rw [List.length_append]
      omega
    have hnew : (l.newKv past.length hidden)[i]? = some ((List.range tpSize).map fun r =>
        (ranks r).selfAttn.keysValues K (past.length+i)
          ((ranks r).selfAttn.qkvProj.forward (K.rmsNorm (ranks r).inputLayernorm hidden[i]))) := by
      rw [AttentionLayer.newKv,List.getElem?_mapIdx,List.getElem?_eq_getElem hi]
      rfl
    rw [List.getElem?_range hlt,Option.map_some,hnew]
    refine congrArg some (List.map_congr_left fun r hr => ?_)
    have hr := List.mem_range.mp hr
    rw [attention_eq hr past junk hidden hjunk]
    have hall : (past ++ l.newKv past.length hidden)[past.length+i]? =
        (l.newKv past.length hidden)[i]? := by
      rw [List.getElem?_append_right (by omega),Nat.add_sub_cancel_left]
    simp only [List.getD_eq_getElem?_getD,List.getElem?_map]
    rw [hall,hnew]
    simp [List.getElem?_range hr]
  · rw [List.getElem?_eq_none_iff.mpr (by rw [List.length_range,List.length_append]; omega),
      List.getElem?_eq_none_iff.mpr (by rw [AttentionLayer.newKv_length]; omega)]
    rfl

theorem layersForward_eq (layers : List (Nat → NemotronDiffusionDecoderLayer R))
    (past junk : List (List (List (HeadsKv R)))) (hidden : List (List R))
    (hjunk : junk.length = hidden.length) :
    let out := layersForward tpSize K (List.range' past.length hidden.length)
      (forwardMask causal past.length) layers (past ++ junk) hidden
    let stack := stackForward causal (layers.map (tokenLayer tpSize K)) past hidden
    out.1 = stack.1 ∧ out.2.drop past.length = stack.2 := by
  induction layers generalizing past junk hidden with
  | nil => simp [layersForward,stackForward,hjunk]
  | cons ranks layers ih =>
    let own : List (List (HeadsKv R)) → List (HeadsKv R) :=
      fun kv => kv.headD (List.replicate tpSize default)
    have hjunk' : (junk.map own).length = hidden.length := by
      rw [List.length_map,hjunk]
    have hfst := @layerForward_fst R _ K tpSize ranks causal (past.map own) (junk.map own) hidden
      hjunk'
    have hsnd := @layerForward_snd R _ K tpSize ranks causal (past.map own) (junk.map own) hidden
      hjunk'
    rw [List.length_map,← List.map_append] at hfst hsnd
    have hlen := ((tokenLayer tpSize K ranks).forward_length causal (past.map own) hidden).1
    have hrest := ih (past.map List.tail) (junk.map List.tail)
      ((tokenLayer tpSize K ranks).forward causal (past.map own) hidden).1
      (by rw [List.length_map,hjunk,hlen])
    rw [List.length_map,hlen,← List.map_append] at hrest
    simp only [layersForward,List.map_cons,stackForward]
    refine ⟨?_,?_⟩
    · exact hfst ▸ hrest.1
    · rw [List.drop_zipWith,hsnd,hfst]
      exact congrArg _ hrest.2

end FluxServe.Parallel
