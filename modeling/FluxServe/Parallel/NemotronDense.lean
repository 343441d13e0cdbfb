import FluxServe.Parallel.Loading
import FluxServe.Parallel.NemotronLayers

namespace FluxServe.Parallel

section Lists

variable {α : Type} {count n r : Nat}

/-- The items of a piece of a range. -/
theorem shard_map_range (f : Nat → α) (hr : r < count) :
    shard n r ((List.range (count*n)).map f) = (List.range n).map fun j => f (r*n+j) := by
  rw [shard_map,shard_range hr,List.range'_eq_map_range,List.map_map,Nat.mul_comm]
  rfl

theorem flatMap_range_mul (f : Nat → List α) :
    (List.range (count*n)).flatMap f =
      (List.range count).flatMap fun r => (List.range n).flatMap fun j => f (r*n+j) := by
  have hsplit : (List.range (count*n)) =
      (List.range count).flatMap fun r => List.range' (n*r) n := by
    rw [← List.flatMap_congr fun r hr => shard_range (List.mem_range.mp hr)]
    exact (flatMap_shard (Nat.le_of_eq List.length_range)).symm
  rw [hsplit,List.flatMap_assoc]
  refine List.flatMap_congr fun r _ => ?_
  rw [List.range'_eq_map_range,List.flatMap_map,Nat.mul_comm]

theorem getD_shard {l : List α} {d : α} {i : Nat} (hi : i < n) :
    (shard n r l).getD i d = l.getD (r*n+i) d := by
  rw [List.getD_eq_getElem?_getD,List.getD_eq_getElem?_getD,getElem?_shard,if_pos hi]

theorem getD_repeatKv {l : List α} {d : α} (h : 0 < n) (i : Nat) :
    (repeatKv n l).getD i d = l.getD (i/n) d := by
  induction l generalizing i with
  | nil => simp [repeatKv]
  | cons a l ih =>
    rw [repeatKv] at ih ⊢
    rw [List.flatMap_cons,List.getD_eq_getElem?_getD]
    by_cases hi : i < n
    · rw [List.getElem?_append_left (by simp [hi]),Nat.div_eq_of_lt hi]
      simp [hi]
    · obtain ⟨k,rfl⟩ : ∃ k, i = n+k := ⟨i-n,by omega⟩
      rw [List.getElem?_append_right (by simp),List.length_replicate,Nat.add_sub_cancel_left,
        ← List.getD_eq_getElem?_getD,ih,Nat.add_div_left k h]
      rfl

end Lists

variable {R : Type} [NonUnitalNonAssocSemiring R] {K : Kernels R} {tpSize headDim : Nat}

/-- The heads of a piece of a vector. -/
theorem heads_shard {n count s : Nat} (hs : s < count) (x : List R) :
    heads n headDim (shard (n*headDim) s x) = shard n s (heads (count*n) headDim x) := by
  rw [heads,heads,shard_map_range _ hs]
  exact List.map_congr_left fun j hj => shard_shard (List.mem_range.mp hj) x

/-- The ranks' parts of a matrix, each on its part of the vector, add up to the whole. -/
theorem allReduce_shards {w : Weight R} {x : List R} {size : Nat} (htp : 0 < tpSize)
    (hw : ∀ row ∈ w, row.length = tpSize*size) (hx : x.length = tpSize*size) :
    allReduce tpSize (fun r => linear (w.map (shard size r)) none (shard size r x)) =
      linear w none x := by
  have hvectors : (fun r => linear (w.map (shard size r)) none (shard size r x)) =
      fun r => w.map fun row => dot (shard size r row) (shard size r x) := by
    funext r
    rw [linear,List.map_map]
    rfl
  rw [allReduce,hvectors,addVectors_map w _ htp,linear]
  exact List.map_congr_left fun row hrow => (dot_shards (hw row hrow) hx).symm

/-- The weights of a layer as the checkpoint has them. -/
structure LayerRows (R : Type) where
  inputLayernorm : List R
  postAttentionLayernorm : List R
  qProj : Weight R
  kProj : Weight R
  vProj : Weight R
  oProj : Weight R
  gateProj : Weight R
  upProj : Weight R
  downProj : Weight R

/-- Query heads in groups of one key-value head, and sizes that divide among the ranks. -/
structure LayerSplit (config : NemotronConfig) (tpSize : Nat) extends
    HeadSplit config.numAttentionHeads config.numKeyValueHeads tpSize where
  tp_pos : 0 < tpSize
  groups : Nat
  groups_pos : 0 < groups
  groups_eq : config.numAttentionHeads = config.numKeyValueHeads*groups
  kv_pos : 0 < config.numKeyValueHeads
  intermediate : Nat
  intermediate_eq : config.intermediateSize = tpSize*intermediate

/-- Weights of the planned shapes. -/
structure LayerRows.HasShape (w : LayerRows R) (config : NemotronConfig) : Prop where
  qRows : w.qProj.length = config.numAttentionHeads*config.headDim
  kRows : w.kProj.length = config.numKeyValueHeads*config.headDim
  vRows : w.vProj.length = config.numKeyValueHeads*config.headDim
  oColumns : ∀ row ∈ w.oProj, row.length = config.numAttentionHeads*config.headDim
  gateRows : w.gateProj.length = config.intermediateSize
  upRows : w.upProj.length = config.intermediateSize
  downColumns : ∀ row ∈ w.downProj, row.length = config.intermediateSize

/-- A decoder layer without ranks, one token at a time. -/
def denseLayer (config : NemotronConfig) (K : Kernels R) (w : LayerRows R) :
    AttentionLayer (List R) (HeadsKv R) where
  missing := default
  kv := fun position x =>
    let x := K.rmsNorm w.inputLayernorm x
    { keys := (heads config.numKeyValueHeads config.headDim (linear w.kProj none x)).map
        (K.rotaryEmb position)
      values := heads config.numKeyValueHeads config.headDim (linear w.vProj none x) }
  out := fun position x visible =>
    let q := K.scaled position ((heads config.numAttentionHeads config.headDim
      (linear w.qProj none (K.rmsNorm w.inputLayernorm x))).map (K.rotaryEmb position))
    let groups := config.numAttentionHeads/config.numKeyValueHeads
    let attn := (List.range config.numAttentionHeads).flatMap fun j =>
      K.attend config.headDim (q.getD j [])
        (visible.map fun kv => (kv.keys.getD (j/groups) [],kv.values.getD (j/groups) []))
    let x := List.zipWith (· + ·) x (linear w.oProj none attn)
    let h := K.rmsNorm w.postAttentionLayernorm x
    let act := List.zipWith (· * ·) ((linear w.gateProj none h).map K.silu) (linear w.upProj none h)
    List.zipWith (· + ·) x (linear w.downProj none act)

/-- What a rank holds of a layer. -/
def rankLayer {config : NemotronConfig} (s : LayerSplit config tpSize) (w : LayerRows R) (r : Nat) :
    NemotronDiffusionDecoderLayer R where
  selfAttn := {
    headDim := config.headDim
    numHeads := s.numHeads
    numKvHeads := s.numKvHeads
    qkvProj := ⟨config.hiddenSize,config.headDim,r,s.numHeads,s.numKvHeads,s.replicas,
      shard (s.numHeads*config.headDim) r w.qProj ++
        shard (s.numKvHeads*config.headDim) (s.kvShard r) w.kProj ++
        shard (s.numKvHeads*config.headDim) (s.kvShard r) w.vProj⟩
    oProj := ⟨config.hiddenSize,s.numHeads*config.headDim,r,
      w.oProj.map (shard (s.numHeads*config.headDim) r),none⟩ }
  mlp := {
    gateUpProj := ⟨config.hiddenSize,[tpSize*s.intermediate,tpSize*s.intermediate],r,tpSize,
      shard s.intermediate r w.gateProj ++ shard s.intermediate r w.upProj⟩
    downProj := ⟨config.hiddenSize,s.intermediate,r,w.downProj.map (shard s.intermediate r),none⟩ }
  inputLayernorm := w.inputLayernorm
  postAttentionLayernorm := w.postAttentionLayernorm

namespace LayerSplit

variable {config : NemotronConfig} (s : LayerSplit config tpSize)

/-- The KV of the ranks when that of all heads is given. -/
def spreadKv (kv : HeadsKv R) : List (HeadsKv R) :=
  (List.range tpSize).map fun r =>
    ⟨shard s.numKvHeads (s.kvShard r) kv.keys,shard s.numKvHeads (s.kvShard r) kv.values⟩

theorem numKvHeads_pos : 0 < s.numKvHeads :=
  Nat.pos_of_mul_pos_left (Nat.lt_of_lt_of_eq s.kv_pos s.kvHeads_eq)

theorem groups_div : config.numAttentionHeads/config.numKeyValueHeads = s.groups :=
  Nat.div_eq_of_eq_mul_right s.kv_pos s.groups_eq

/-- The query heads of a rank are the groups of its key-value heads, or one part of a group. -/
theorem numHeads_cases : s.numHeads = s.numKvHeads*s.groups ∧ s.replicas = 1 ∨
    s.numKvHeads = 1 ∧ s.groups = s.replicas*s.numHeads := by
  have hshards : 0 < s.kvShards :=
    Nat.pos_of_mul_pos_right (Nat.lt_of_lt_of_eq s.kv_pos s.kvHeads_eq)
  have hsizes : s.kvShards*s.replicas*s.numHeads = s.kvShards*s.numKvHeads*s.groups :=
    calc s.kvShards*s.replicas*s.numHeads = tpSize*s.numHeads :=
          (congrArg (· * s.numHeads) s.tpSize_eq).symm
      _ = config.numKeyValueHeads*s.groups := s.heads_eq.symm.trans s.groups_eq
      _ = s.kvShards*s.numKvHeads*s.groups := congrArg (· * s.groups) s.kvHeads_eq
  rw [Nat.mul_assoc,Nat.mul_assoc] at hsizes
  have hsizes := Nat.eq_of_mul_eq_mul_left hshards hsizes
  rcases s.replicated with hone | hone
  · exact .inr ⟨hone,by rw [hsizes,hone,Nat.one_mul]⟩
  · exact .inl ⟨by rw [← hsizes,hone,Nat.one_mul],hone⟩

/-- Where the key-value head of a rank's query head is among all. -/
theorem kvHead_eq {r j : Nat} (hj : j < s.numHeads) :
    s.kvShard r*s.numKvHeads+j/(s.numHeads/s.numKvHeads) =
      (r*s.numHeads+j)/s.groups := by
  have hkv := s.numKvHeads_pos
  rcases s.numHeads_cases with ⟨hheads,hone⟩ | ⟨hone,hgroups⟩
  · have hdiv : s.numHeads/s.numKvHeads = s.groups := Nat.div_eq_of_eq_mul_right hkv hheads
    rw [hdiv,HeadSplit.kvShard,hone,Nat.div_one,hheads,← Nat.mul_assoc,Nat.add_comm,
      Nat.add_comm _ j,Nat.add_mul_div_right _ _ s.groups_pos]
  · have hpos : 0 < s.numHeads := Nat.zero_lt_of_lt hj
    rw [hone,Nat.div_one,Nat.mul_one,Nat.div_eq_of_lt hj,Nat.add_zero,hgroups,
      Nat.mul_comm s.replicas,← Nat.div_div_eq_div_mul,Nat.add_comm,Nat.add_mul_div_right _ _ hpos,Nat.div_eq_of_lt hj,
      Nat.zero_add]
    rfl

theorem numHeads_eq : s.numHeads = s.numKvHeads*(s.numHeads/s.numKvHeads) := by
  refine (Nat.mul_div_cancel' ?_).symm
  rcases s.numHeads_cases with ⟨hheads,_⟩ | ⟨hone,_⟩
  · exact hheads ▸ Nat.dvd_mul_right _ _
  · exact hone ▸ Nat.one_dvd _

theorem kvHead_lt {j : Nat} (hj : j < s.numHeads) :
    j/(s.numHeads/s.numKvHeads) < s.numKvHeads := by
  have hlt := Nat.lt_of_lt_of_eq hj s.numHeads_eq
  exact Nat.div_lt_of_lt_mul (Nat.mul_comm _ _ ▸ hlt)

end LayerSplit

section Rank

variable {config : NemotronConfig} {s : LayerSplit config tpSize} {w : LayerRows R} {r : Nat}

/-- What a rank projects: its queries, its keys and its values. -/
theorem qkv_forward (x : List R) :
    (rankLayer s w r).selfAttn.qkvProj.forward x =
      shard (s.numHeads*config.headDim) r (linear w.qProj none x) ++
        shard (s.numKvHeads*config.headDim) (s.kvShard r) (linear w.kProj none x) ++
        shard (s.numKvHeads*config.headDim) (s.kvShard r) (linear w.vProj none x) := by
  simp only [rankLayer,QKVParallelLinear.forward,linear,List.map_append,shard_map]

theorem length_query (hw : w.HasShape config) (hr : r < tpSize) (x : List R) :
    (shard (s.numHeads*config.headDim) r (linear w.qProj none x)).length =
      s.numHeads*config.headDim := by
  refine @length_shard R _ _ tpSize r ?_ hr
  rw [linear,List.length_map,hw.qRows,← Nat.mul_assoc]
  exact congrArg (· * config.headDim) s.heads_eq

theorem length_kv (hr : r < tpSize) {y : List R}
    (hy : y.length = config.numKeyValueHeads*config.headDim) :
    (shard (s.numKvHeads*config.headDim) (s.kvShard r) y).length =
      s.numKvHeads*config.headDim := by
  refine @length_shard R _ _ s.kvShards (s.kvShard r) ?_ (s.kvShard_lt hr)
  rw [hy,← Nat.mul_assoc]
  exact congrArg (· * config.headDim) s.kvHeads_eq

theorem heads_kv (hr : r < tpSize) (y : List R) :
    heads s.numKvHeads config.headDim (shard (s.numKvHeads*config.headDim) (s.kvShard r) y) =
      shard s.numKvHeads (s.kvShard r) (heads config.numKeyValueHeads config.headDim y) := by
  rw [heads_shard (s.kvShard_lt hr)]
  exact congrArg (fun n => shard _ _ (heads n config.headDim y)) s.kvHeads_eq.symm

theorem keysValues_eq (hw : w.HasShape config) (hr : r < tpSize) (position : Nat) (x : List R) :
    (rankLayer s w r).selfAttn.keysValues K position
        ((rankLayer s w r).selfAttn.qkvProj.forward x) =
      ⟨shard s.numKvHeads (s.kvShard r)
          ((heads config.numKeyValueHeads config.headDim (linear w.kProj none x)).map
            (K.rotaryEmb position)),
        shard s.numKvHeads (s.kvShard r)
          (heads config.numKeyValueHeads config.headDim (linear w.vProj none x))⟩ := by
  have hq := length_query (s := s) hw hr x
  have hk : (shard (s.numKvHeads*config.headDim) (s.kvShard r) (linear w.kProj none x)).length =
      s.numKvHeads*config.headDim := length_kv hr (by rw [linear,List.length_map,hw.kRows])
  have hv : (shard (s.numKvHeads*config.headDim) (s.kvShard r) (linear w.vProj none x)).length =
      s.numKvHeads*config.headDim := length_kv hr (by rw [linear,List.length_map,hw.vRows])
  rw [qkv_forward]
  generalize shard (s.numHeads*config.headDim) r (linear w.qProj none x) = q at hq
  have hkeys : ((q ++ shard (s.numKvHeads*config.headDim) (s.kvShard r) (linear w.kProj none x) ++
      shard (s.numKvHeads*config.headDim) (s.kvShard r) (linear w.vProj none x)).drop
        (s.numHeads*config.headDim)).take (s.numKvHeads*config.headDim) =
      shard (s.numKvHeads*config.headDim) (s.kvShard r) (linear w.kProj none x) := by
    rw [List.append_assoc,List.drop_left' hq,List.take_left' hk]
  have hvalues : ((q ++ shard (s.numKvHeads*config.headDim) (s.kvShard r) (linear w.kProj none x) ++
      shard (s.numKvHeads*config.headDim) (s.kvShard r) (linear w.vProj none x)).drop
        (s.numHeads*config.headDim+s.numKvHeads*config.headDim)).take
          (s.numKvHeads*config.headDim) =
      shard (s.numKvHeads*config.headDim) (s.kvShard r) (linear w.vProj none x) := by
    rw [List.drop_left' (by rw [List.length_append,hq,hk]),List.take_of_length_le]
    exact Nat.le_of_eq hv
  show HeadsKv.mk (List.map (K.rotaryEmb position) (heads s.numKvHeads config.headDim (List.take
    (s.numKvHeads*config.headDim) (List.drop (s.numHeads*config.headDim) _))))
    (heads s.numKvHeads config.headDim (List.take (s.numKvHeads*config.headDim)
      (List.drop (s.numHeads*config.headDim+s.numKvHeads*config.headDim) _))) = _
  rw [hkeys,hvalues,heads_kv hr,heads_kv hr,shard_map]

theorem shard_scaled (size position : Nat) (query : List (List R)) :
    K.scaled position (shard size r query) = shard size r (K.scaled position query) := by
  unfold Kernels.scaled
  cases K.queryScale with
  | none => rfl
  | some scale => exact (shard_map _ _).symm

theorem queries_eq (hw : w.HasShape config) (hr : r < tpSize) (position : Nat) (x : List R) :
    (rankLayer s w r).selfAttn.queries K position
        ((rankLayer s w r).selfAttn.qkvProj.forward x) =
      shard s.numHeads r (K.scaled position
        ((heads config.numAttentionHeads config.headDim (linear w.qProj none x)).map
          (K.rotaryEmb position))) := by
  have hq := length_query (s := s) hw hr x
  have hheads : heads s.numHeads config.headDim
      (shard (s.numHeads*config.headDim) r (linear w.qProj none x)) =
      shard s.numHeads r
        (heads config.numAttentionHeads config.headDim (linear w.qProj none x)) := by
    rw [heads_shard hr]
    exact congrArg (fun n => shard _ _ (heads n config.headDim _)) s.heads_eq.symm
  rw [qkv_forward,List.append_assoc]
  show K.scaled position (List.map (K.rotaryEmb position) (heads s.numHeads config.headDim
    (List.take (s.numHeads*config.headDim) _))) = _
  rw [List.take_left' hq,hheads,← shard_map,shard_scaled]

/-- The output of one query head. -/
def headOutput (config : NemotronConfig) (K : Kernels R) (query : List (List R))
    (visible : List (HeadsKv R)) (j : Nat) : List R :=
  let groups := config.numAttentionHeads/config.numKeyValueHeads
  K.attend config.headDim (query.getD j [])
    (visible.map fun kv => (kv.keys.getD (j/groups) [],kv.values.getD (j/groups) []))

theorem length_headOutput (query : List (List R)) (visible : List (HeadsKv R)) (j : Nat) :
    (headOutput config K query visible j).length = config.headDim :=
  K.attend_length _ _ _

/-- The heads of a rank, among all heads. -/
theorem attendHeads_eq (hr : r < tpSize) (query : List (List R)) (visible : List (HeadsKv R)) :
    (rankLayer s w r).selfAttn.attendHeads K (shard s.numHeads r query)
        ((visible.map s.spreadKv).map fun kv => kv.getD r default) =
      shard (s.numHeads*config.headDim) r
        ((List.range config.numAttentionHeads).flatMap (headOutput config K query visible)) := by
  have hlen : ∀ r < tpSize, ((List.range s.numHeads).flatMap fun j =>
      headOutput config K query visible (r*s.numHeads+j)).length =
      s.numHeads*config.headDim := by
    intro r _
    simp [List.length_flatMap,length_headOutput]
  have hall : (List.range config.numAttentionHeads).flatMap (headOutput config K query visible) =
      (List.range tpSize).flatMap fun r => (List.range s.numHeads).flatMap fun j =>
        headOutput config K query visible (r*s.numHeads+j) := by
    rw [← flatMap_range_mul]
    exact congrArg (fun n => (List.range n).flatMap _) s.heads_eq
  rw [hall,shard_flatMap hlen hr]
  refine List.flatMap_congr fun j hj => ?_
  have hj : j < s.numHeads := List.mem_range.mp hj
  have hgroups : 0 < s.numHeads/s.numKvHeads := by
    have hheads := s.numHeads_eq
    refine Nat.pos_of_ne_zero fun hzero => ?_
    rw [hzero,Nat.mul_zero] at hheads
    omega
  have hhead : ∀ l : List (List R), (repeatKv (s.numHeads/s.numKvHeads)
      (shard s.numKvHeads (s.kvShard r) l)).getD j [] = l.getD ((r*s.numHeads+j)/s.groups) [] := by
    intro l
    rw [getD_repeatKv hgroups,getD_shard (s.kvHead_lt hj),s.kvHead_eq hj]
  have hspread : ∀ kv : HeadsKv R, (s.spreadKv kv).getD r default =
      ⟨shard s.numKvHeads (s.kvShard r) kv.keys,shard s.numKvHeads (s.kvShard r) kv.values⟩ := by
    intro kv
    simp [LayerSplit.spreadKv,List.getD_eq_getElem?_getD,List.getElem?_range hr]
  rw [headOutput,s.groups_div,← getD_shard hj,List.map_map,List.map_map,List.map_map]
  refine congrArg (K.attend config.headDim _) (List.map_congr_left fun kv _ => ?_)
  simp only [Function.comp_apply,hspread]
  exact Prod.ext (hhead kv.keys) (hhead kv.values)

/-- The output projection, summed over the ranks. -/
theorem attnOutput_eq (hw : w.HasShape config) (position : Nat) (x : List R)
    (visible : List (HeadsKv R)) :
    (allReduce tpSize fun r => (rankLayer s w r).selfAttn.oProj.outputParallel
      ((rankLayer s w r).selfAttn.attendHeads K
        ((rankLayer s w r).selfAttn.queries K position
          ((rankLayer s w r).selfAttn.qkvProj.forward x))
        ((visible.map s.spreadKv).map fun kv => kv.getD r default))) =
      linear w.oProj none ((List.range config.numAttentionHeads).flatMap (headOutput config K
        (K.scaled position ((heads config.numAttentionHeads config.headDim
          (linear w.qProj none x)).map (K.rotaryEmb position))) visible)) := by
  have hsize : config.numAttentionHeads*config.headDim = tpSize*(s.numHeads*config.headDim) := by
    rw [← Nat.mul_assoc]
    exact congrArg (· * config.headDim) s.heads_eq
  rw [← allReduce_shards s.tp_pos (fun row hrow => (hw.oColumns row hrow).trans hsize)]
  · refine allReduce_congr fun r hr => ?_
    rw [queries_eq hw hr,attendHeads_eq hr]
    simp [rankLayer,RowParallelLinear.outputParallel]
  · rw [← hsize]
    simp [List.length_flatMap,length_headOutput]

theorem mlp_eq (hw : w.HasShape config) (x : List R) :
    (allReduce tpSize fun r => (rankLayer s w r).mlp.outputParallel K x) =
      linear w.downProj none (List.zipWith (· * ·) ((linear w.gateProj none x).map K.silu)
        (linear w.upProj none x)) := by
  have hgate : (linear w.gateProj none x).length = tpSize*s.intermediate := by
    rw [linear,List.length_map,hw.gateRows,s.intermediate_eq]
  have hup : (linear w.upProj none x).length = tpSize*s.intermediate := by
    rw [linear,List.length_map,hw.upRows,s.intermediate_eq]
  have hact : (List.zipWith (· * ·) ((linear w.gateProj none x).map K.silu)
      (linear w.upProj none x)).length = tpSize*s.intermediate := by
    rw [List.length_zipWith,List.length_map,hgate,hup,Nat.min_self]
  rw [← allReduce_shards s.tp_pos
    (fun row hrow => (hw.downColumns row hrow).trans s.intermediate_eq) hact]
  refine allReduce_congr fun r hr => ?_
  have hforward : (rankLayer s w r).mlp.gateUpProj.forward x =
      shard s.intermediate r (linear w.gateProj none x) ++
        shard s.intermediate r (linear w.upProj none x) := by
    simp only [rankLayer,MergedColumnParallelLinear.forward,linear,List.map_append,shard_map]
  have hlen := length_shard hgate hr
  have hsilu : siluAndMul K (shard s.intermediate r (linear w.gateProj none x) ++
      shard s.intermediate r (linear w.upProj none x)) = shard s.intermediate r
        (List.zipWith (· * ·) ((linear w.gateProj none x).map K.silu)
          (linear w.upProj none x)) := by
    have hhalf : (shard s.intermediate r (linear w.gateProj none x) ++
        shard s.intermediate r (linear w.upProj none x)).length/2 = s.intermediate := by
      rw [List.length_append,hlen,length_shard hup hr]
      omega
    rw [siluAndMul,hhalf,List.take_left' hlen,List.drop_left' hlen,shard_zipWith,shard_map]
  rw [NemotronDiffusionMLP.outputParallel,hforward,hsilu]
  simp [rankLayer,RowParallelLinear.outputParallel]

/-- The ranks together do what the layer without ranks does. -/
theorem tokenLayer_maps (hw : w.HasShape config) :
    AttentionLayer.Maps s.spreadKv (denseLayer config K w)
      (tokenLayer tpSize K (rankLayer s w)) where
  missing := by
    simp [tokenLayer,denseLayer,LayerSplit.spreadKv,List.map_const',shard,
      show (default : HeadsKv R) = ⟨[],[]⟩ from rfl]
  kv := by
    intro position x
    exact List.map_congr_left fun r hr => keysValues_eq hw (List.mem_range.mp hr) position _
  out := by
    intro position x visible
    have hmlp : ∀ h, (allReduce tpSize fun r => (rankLayer s w r).mlp.outputParallel K
        (K.rmsNorm (rankLayer s w r).postAttentionLayernorm h)) =
        linear w.downProj none (List.zipWith (· * ·)
          ((linear w.gateProj none (K.rmsNorm w.postAttentionLayernorm h)).map K.silu)
          (linear w.upProj none (K.rmsNorm w.postAttentionLayernorm h))) :=
      fun h => mlp_eq hw (K.rmsNorm w.postAttentionLayernorm h)
    have hnorm : ∀ r, (rankLayer s w r).inputLayernorm = w.inputLayernorm := fun _ => rfl
    simp only [tokenLayer,hmlp,hnorm,attnOutput_eq hw]
    rfl

end Rank

end FluxServe.Parallel
