import FluxServe.Parallel.Linear
import Mathlib.Data.Option.Basic

namespace FluxServe.Parallel

variable {R α : Type} {l : List α} {zero : α} {size count r : Nat}

theorem divide_mul (h : 0 < count) : divide (count*size) count = some size := by
  simp [divide,Nat.mul_div_cancel_left _ h]

theorem narrow_shard (h : l.length = count*size) (hr : r < count) :
    narrow (r*size) size l = some (shard size r l) := by
  have hle : (r+1)*size ≤ count*size := Nat.mul_le_mul_right _ hr
  rw [Nat.succ_mul] at hle
  rw [narrow,if_pos (by omega)]
  rfl

theorem partFor_shard (h : l.length = count*size) (hr : r < count) :
    partFor zero (r*size) size l = some (shard size r l) := by
  have hle : (r+1)*size ≤ count*size := Nat.mul_le_mul_right _ hr
  rw [Nat.succ_mul] at hle
  rw [partFor,if_neg (by omega),narrow_shard h hr]

/-- What stood there before is gone. -/
theorem copyAt_append {a b c part : List α} {offset size : Nat} (ha : a.length = offset)
    (hb : b.length = size) (hpart : part.length = size) :
    copyAt offset size part (a ++ b ++ c) = some (a ++ part ++ c) := by
  subst ha hb
  have hdrop : (a ++ b ++ c).drop (a.length+b.length) = c := by
    rw [← List.length_append,List.drop_left]
  have htake : (a ++ b ++ c).take a.length = a := by
    rw [List.append_assoc,List.take_left]
  rw [copyAt,if_pos ⟨by simp,hpart⟩,htake,hdrop]

theorem mapM_eq_map {β : Type} {f : α → Option β} {g : α → β} (h : ∀ x ∈ l, f x = some (g x)) :
    l.mapM f = some (l.map g) := by
  induction l with
  | nil => rfl
  | cons x l ih =>
    rw [List.mapM_cons,h x List.mem_cons_self,ih fun y hy => h y (List.mem_cons_of_mem _ hy)]
    rfl

theorem hasColumns_iff {columns : Nat} {w : Weight R} :
    hasColumns columns w = true ↔ ∀ row ∈ w, row.length = columns := by
  simp [hasColumns]

theorem mem_shard {x : α} (h : x ∈ shard size r l) : x ∈ l :=
  List.mem_of_mem_drop (List.mem_of_mem_take h)

theorem hasColumns_shard {columns : Nat} {w : Weight R} (h : hasColumns columns w = true) :
    hasColumns columns (shard size r w) = true :=
  hasColumns_iff.mpr fun row hrow => hasColumns_iff.mp h row (mem_shard hrow)

variable [NonUnitalNonAssocSemiring R] {data : Nat → Nat → R} {hidden tpSize tpRank : Nat}

theorem length_emptyWeight (data : Nat → Nat → R) (rows columns : Nat) :
    (emptyWeight data rows columns).length = rows := by
  simp [emptyWeight]

theorem mergedColumn_new (h : 0 < tpSize) :
    ∃ old : Weight R, old.length = size+size ∧
      MergedColumnParallelLinear.new data hidden [tpSize*size,tpSize*size] tpRank tpSize =
        some ⟨hidden,[tpSize*size,tpSize*size],tpRank,tpSize,old⟩ := by
  have hsum : divide (tpSize*size+tpSize*size) tpSize = some (size+size) := by
    rw [← Nat.mul_add]
    exact divide_mul h
  refine ⟨emptyWeight data (size+size) hidden,length_emptyWeight data _ _,?_⟩
  simp [MergedColumnParallelLinear.new,hsum,divide_mul h]

/-- The rows of the first weight stand before the rows of the second. -/
theorem mergedColumn_first {loaded first : Weight R} (second : Weight R)
    (hloaded : loaded.length = tpSize*size) (hcolumns : hasColumns hidden loaded = true)
    (hr : tpRank < tpSize) (hfirst : first.length = size) :
    (MergedColumnParallelLinear.mk hidden [tpSize*size,tpSize*size] tpRank tpSize
      (first ++ second)).weightLoader loaded 0 =
    some ⟨hidden,[tpSize*size,tpSize*size],tpRank,tpSize,shard size tpRank loaded ++ second⟩ := by
  have hdiv : tpSize*size/tpSize = size := Nat.mul_div_cancel_left _ (Nat.zero_lt_of_lt hr)
  have hcopy : copyAt 0 size (shard size tpRank loaded) (first ++ second) =
      some (shard size tpRank loaded ++ second) :=
    @copyAt_append _ [] first second _ _ _ rfl hfirst (length_shard hloaded hr)
  simp [MergedColumnParallelLinear.weightLoader,hdiv,partFor_shard hloaded hr,
    hasColumns_shard hcolumns,hcopy]

theorem mergedColumn_second {loaded first second : Weight R} (hloaded : loaded.length = tpSize*size)
    (hcolumns : hasColumns hidden loaded = true) (hr : tpRank < tpSize)
    (hfirst : first.length = size) (hsecond : second.length = size) :
    (MergedColumnParallelLinear.mk hidden [tpSize*size,tpSize*size] tpRank tpSize
      (first ++ second)).weightLoader loaded 1 =
    some ⟨hidden,[tpSize*size,tpSize*size],tpRank,tpSize,first ++ shard size tpRank loaded⟩ := by
  have hdiv : tpSize*size/tpSize = size := Nat.mul_div_cancel_left _ (Nat.zero_lt_of_lt hr)
  have hcopy : copyAt size size (shard size tpRank loaded) (first ++ second) =
      some (first ++ shard size tpRank loaded) := by
    have happend := @copyAt_append _ first second [] _ _ _ hfirst hsecond
      (length_shard hloaded hr)
    simpa using happend
  simp [MergedColumnParallelLinear.weightLoader,hdiv,partFor_shard hloaded hr,
    hasColumns_shard hcolumns,hcopy]

/-- How query and key-value heads divide among the ranks. -/
structure HeadSplit (heads kvHeads tpSize : Nat) where
  numHeads : Nat
  numKvHeads : Nat
  replicas : Nat
  kvShards : Nat
  heads_eq : heads = tpSize*numHeads
  kvHeads_eq : kvHeads = kvShards*numKvHeads
  tpSize_eq : tpSize = kvShards*replicas
  spread : QKVParallelLinear.kvHeadsPerRank kvHeads tpSize = some (numKvHeads,replicas)
  replicated : numKvHeads = 1 ∨ replicas = 1

/-- The sizes that the layers accept. -/
def headSplit {heads kvHeads tpSize : Nat} (htp : 0 < tpSize) (hkv : 0 < kvHeads)
    (hheads : tpSize ∣ heads) (hspread : kvHeads ∣ tpSize ∨ tpSize ∣ kvHeads) :
    HeadSplit heads kvHeads tpSize :=
  if hle : kvHeads ≤ tpSize then
    have hdvd : kvHeads ∣ tpSize := hspread.elim id fun h =>
      Nat.le_antisymm hle (Nat.le_of_dvd hkv h) ▸ Nat.dvd_refl _
    { numHeads := heads/tpSize
      numKvHeads := 1
      replicas := tpSize/kvHeads
      kvShards := kvHeads
      heads_eq := (Nat.mul_div_cancel' hheads).symm
      kvHeads_eq := (Nat.mul_one _).symm
      tpSize_eq := (Nat.mul_div_cancel' hdvd).symm
      spread := by
        simp [QKVParallelLinear.kvHeadsPerRank,hle,divide,Nat.mod_eq_zero_of_dvd hdvd]
      replicated := .inl rfl }
  else
    have hdvd : tpSize ∣ kvHeads := hspread.elim
      (fun h => absurd (Nat.le_of_dvd htp h) hle) id
    { numHeads := heads/tpSize
      numKvHeads := kvHeads/tpSize
      replicas := 1
      kvShards := tpSize
      heads_eq := (Nat.mul_div_cancel' hheads).symm
      kvHeads_eq := (Nat.mul_div_cancel' hdvd).symm
      tpSize_eq := (Nat.mul_one _).symm
      spread := by
        simp [QKVParallelLinear.kvHeadsPerRank,hle,divide,Nat.mod_eq_zero_of_dvd hdvd]
      replicated := .inr rfl }

namespace HeadSplit

variable {heads kvHeads tpSize : Nat} (s : HeadSplit heads kvHeads tpSize)

/-- The part of the key-value heads that a rank holds. -/
def kvShard (rank : Nat) : Nat := rank/s.replicas

theorem kvShard_lt {rank : Nat} (h : rank < tpSize) : s.kvShard rank < s.kvShards := by
  have hlt := h
  rw [s.tpSize_eq] at hlt
  exact Nat.div_lt_of_lt_mul (Nat.mul_comm _ _ ▸ hlt)

end HeadSplit

section Qkv

variable {heads kvHeads headSize : Nat} (s : HeadSplit heads kvHeads tpSize) {q k v : Weight R}

theorem qkv_new (h : 0 < tpSize) :
    ∃ old : Weight R,
      old.length = s.numHeads*headSize+(s.numKvHeads*headSize+s.numKvHeads*headSize) ∧
      QKVParallelLinear.new data hidden headSize heads kvHeads tpRank tpSize =
        some ⟨hidden,headSize,tpRank,s.numHeads,s.numKvHeads,s.replicas,old⟩ := by
  have hdiv : divide heads tpSize = some s.numHeads := by
    have hmul : divide (tpSize*s.numHeads) tpSize = some s.numHeads := divide_mul h
    rwa [← s.heads_eq] at hmul
  refine ⟨emptyWeight data (s.numHeads*headSize+2*(s.numKvHeads*headSize)) hidden,?_,?_⟩
  · rw [length_emptyWeight,Nat.two_mul]
  · simp only [QKVParallelLinear.new,hdiv,s.spread,Option.bind_eq_bind,Option.bind_some]
    rfl

/-- The rows of a rank's key-value heads. -/
theorem kvRows (hk : k.length = kvHeads*headSize) (hr : tpRank < tpSize) :
    k.length = s.kvShards*(s.numKvHeads*headSize) ∧
      (shard (s.numKvHeads*headSize) (s.kvShard tpRank) k).length = s.numKvHeads*headSize := by
  have hlen : k.length = s.kvShards*(s.numKvHeads*headSize) := by
    rw [hk,← Nat.mul_assoc,← s.kvHeads_eq]
  exact ⟨hlen,length_shard hlen (s.kvShard_lt hr)⟩

variable {loaded : Weight R}

theorem qkv_query (hloaded : loaded.length = heads*headSize)
    (hcolumns : hasColumns hidden loaded = true) (hr : tpRank < tpSize)
    (hq : q.length = s.numHeads*headSize) :
    (QKVParallelLinear.mk hidden headSize tpRank s.numHeads s.numKvHeads s.replicas
      (q ++ k ++ v)).weightLoader loaded .q =
    some ⟨hidden,headSize,tpRank,s.numHeads,s.numKvHeads,s.replicas,
      shard (s.numHeads*headSize) tpRank loaded ++ k ++ v⟩ := by
  have hlen : loaded.length = tpSize*(s.numHeads*headSize) := by
    rw [hloaded,← Nat.mul_assoc,← s.heads_eq]
  have hcopy : copyAt 0 (s.numHeads*headSize) (shard (s.numHeads*headSize) tpRank loaded)
      (q ++ (k ++ v)) = some (shard (s.numHeads*headSize) tpRank loaded ++ (k ++ v)) :=
    @copyAt_append _ [] q (k ++ v) _ _ _ rfl hq (length_shard hlen hr)
  simp [QKVParallelLinear.weightLoader,QKVParallelLinear.shardOffset,QKVParallelLinear.shardSize,
    QKVParallelLinear.shardId,narrow_shard hlen hr,hasColumns_shard hcolumns,hcopy]

theorem qkv_key (hloaded : loaded.length = kvHeads*headSize)
    (hcolumns : hasColumns hidden loaded = true) (hr : tpRank < tpSize)
    (hq : q.length = s.numHeads*headSize) (hk : k.length = s.numKvHeads*headSize) :
    (QKVParallelLinear.mk hidden headSize tpRank s.numHeads s.numKvHeads s.replicas
      (q ++ k ++ v)).weightLoader loaded .k =
    some ⟨hidden,headSize,tpRank,s.numHeads,s.numKvHeads,s.replicas,
      q ++ shard (s.numKvHeads*headSize) (s.kvShard tpRank) loaded ++ v⟩ := by
  obtain ⟨hlen,hpart⟩ := kvRows s hloaded hr
  have hshard : tpRank/s.replicas = s.kvShard tpRank := rfl
  have hcopy := @copyAt_append _ q k v _ _ _ hq hk hpart
  simp only [List.append_assoc] at hcopy
  simp [QKVParallelLinear.weightLoader,QKVParallelLinear.shardOffset,QKVParallelLinear.shardSize,
    QKVParallelLinear.shardId,hshard,narrow_shard hlen (s.kvShard_lt hr),
    hasColumns_shard hcolumns,hcopy]

theorem qkv_value (hloaded : loaded.length = kvHeads*headSize)
    (hcolumns : hasColumns hidden loaded = true) (hr : tpRank < tpSize)
    (hq : q.length = s.numHeads*headSize) (hk : k.length = s.numKvHeads*headSize)
    (hv : v.length = s.numKvHeads*headSize) :
    (QKVParallelLinear.mk hidden headSize tpRank s.numHeads s.numKvHeads s.replicas
      (q ++ k ++ v)).weightLoader loaded .v =
    some ⟨hidden,headSize,tpRank,s.numHeads,s.numKvHeads,s.replicas,
      q ++ k ++ shard (s.numKvHeads*headSize) (s.kvShard tpRank) loaded⟩ := by
  obtain ⟨hlen,hpart⟩ := kvRows s hloaded hr
  have hshard : tpRank/s.replicas = s.kvShard tpRank := rfl
  have hfront : (q ++ k).length = (s.numHeads+s.numKvHeads)*headSize := by
    rw [List.length_append,hq,hk,Nat.add_mul]
  have hcopy := @copyAt_append _ (q ++ k) v [] _ _ _ hfront hv hpart
  simp only [List.append_assoc,List.append_nil] at hcopy
  simp [QKVParallelLinear.weightLoader,QKVParallelLinear.shardOffset,QKVParallelLinear.shardSize,
    QKVParallelLinear.shardId,hshard,narrow_shard hlen (s.kvShard_lt hr),
    hasColumns_shard hcolumns,hcopy]

end Qkv

theorem rowParallel_new {outputSize : Nat} (h : 0 < tpSize) :
    ∃ old : Weight R,
      RowParallelLinear.new data (tpSize*size) outputSize tpRank tpSize none =
        some ⟨outputSize,size,tpRank,old,none⟩ := by
  refine ⟨emptyWeight data outputSize size,?_⟩
  simp [RowParallelLinear.new,divide_mul h]

/-- A rank of a row-parallel layer holds its columns. -/
theorem rowParallel_load (old : Weight R) {loaded : Weight R} {outputSize : Nat}
    (hrows : loaded.length = outputSize) (hcolumns : hasColumns (tpSize*size) loaded = true)
    (hr : tpRank < tpSize) :
    (RowParallelLinear.mk outputSize size tpRank old none).weightLoader loaded =
      some ⟨outputSize,size,tpRank,loaded.map (shard size tpRank),none⟩ := by
  have hrow := hasColumns_iff.mp hcolumns
  have hparts : loaded.mapM (partFor 0 (tpRank*size) size) =
      some (loaded.map (shard size tpRank)) := by
    refine mapM_eq_map fun row hmem => ?_
    exact partFor_shard (hrow row hmem) hr
  have hshape : hasColumns size (loaded.map (shard size tpRank)) = true := by
    rw [hasColumns_iff]
    intro row hmem
    obtain ⟨full,hfull,rfl⟩ := List.mem_map.mp hmem
    exact length_shard (hrow full hfull) hr
  simp [RowParallelLinear.weightLoader,hparts,hshape,hrows]

end FluxServe.Parallel
