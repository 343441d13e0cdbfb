import FluxServe.Resource.ExactEviction
import Mathlib.Logic.Relation

namespace FluxServe

open KVPrefixCache

variable {kv kv' : KVPrefixCache} {t : ResourceType} {i : NodeId}

/-- The leaf set of a tier: one entry, under the time in `node_time_`, for every live node below
the root that is resident on the tier and has no child that is. -/
structure LeafSet (t : ResourceType) (kv : KVPrefixCache) : Prop where
  unique : ((kv.manager t).lruLeaves.map Prod.snd).Nodup
  times : ((kv.manager t).nodeTime.map Prod.fst).Nodup
  key : ∀ ts i, (ts,i) ∈ (kv.manager t).lruLeaves ↔ (kv.manager t).nodeTime.lookup i = some ts
  keys : ∀ i, i ∈ (kv.manager t).nodeTime.map Prod.fst ↔ ∃ ts, (ts,i) ∈ (kv.manager t).lruLeaves
  leaf : ∀ i, i ∈ (kv.manager t).nodeTime.map Prod.fst ↔
    ∃ n p, kv.tree.read i = some n ∧ n.parent = some p ∧ hasResource t kv.tree i = true ∧
      ∀ j m, kv.tree.read j = some m → m.parent = some i → hasResource t kv.tree j = false

/-- On a tree whose resources have the size of their nodes, empty ones make no difference. -/
theorem isLeaf_iff_of_sized {ps : Nat} {tree : Heap TreeNode} (hT : TreeOK ps tree)
    (hs : Sized ps tree) : isLeaf t tree i = true ↔
      ∃ n p, tree.read i = some n ∧ n.parent = some p ∧ hasResource t tree i = true ∧
        ∀ j m, tree.read j = some m → m.parent = some i → hasResource t tree j = false := by
  constructor
  · intro hi
    obtain ⟨hres,⟨n,p,hn,hp⟩,_,_⟩ := isLeaf_iff.mp hi
    refine ⟨n,p,hn,hp,hres,fun j m hj hm => ?_⟩
    by_contra hno
    rw [Bool.not_eq_false] at hno
    rw [not_isLeaf_of_child hT hs hj hm hno] at hi
    cases hi
  · rintro ⟨n,p,hn,hp,hres,hchild⟩
    refine isLeaf_iff.mpr ⟨hres,⟨n,p,hn,hp⟩,nodePages_ne_nil_of_size hT hres (hs t i hres),?_⟩
    rw [Bool.eq_false_iff]
    intro hc
    obtain ⟨j,m,hj,hm,hpages⟩ := hasChildWithPages_iff.mp hc
    apply hpages
    have hnone : m.resource t = none := by
      simpa [hasResource,hj] using hchild j m hj hm
    simp [TreeNode.pages,hnone]

theorem ExactLeaves.leafSet (h : ExactLeaves kv) (t : ResourceType) : LeafSet t kv := by
  have hl := h.leaves t
  have hkey : ∀ ts i, (ts,i) ∈ (kv.manager t).lruLeaves ↔ (i,ts) ∈ (kv.manager t).nodeTime := by
    intro ts i
    rw [hl.entries.mem_iff,List.mem_map]
    constructor
    · rintro ⟨e,he,hs⟩
      rw [← Prod.swap_swap e,hs] at he
      exact he
    · intro he
      exact ⟨(i,ts),he,rfl⟩
  refine ⟨?_,hl.nodup,fun ts i => ?_,fun i => ?_,fun i => ?_⟩
  · apply (hl.entries.map Prod.snd).nodup_iff.mpr
    rw [List.map_map]
    exact hl.nodup
  · rw [hkey]
    exact ⟨lookup_of_mem hl.nodup,mem_of_lookup⟩
  · simp only [hkey,List.mem_map,Prod.exists,exists_eq_right]
    exact ⟨fun ⟨a,ts,hm,ha⟩ => ⟨ts,ha ▸ hm⟩,fun ⟨ts,hm⟩ => ⟨i,ts,hm,rfl⟩⟩
  · rw [hl.leaf i List.not_mem_nil]
    exact isLeaf_iff_of_sized h.tree h.sized

/-- One operation of the cache, of a `NodeRef` or of an allocator, with any arguments. -/
inductive CacheOperation
  | lock (t : ResourceType) (i : NodeId)
  | unlock (t : ResourceType) (i : NodeId)
  | matchTokens (tokens : List Token) (intent : MatchIntent)
  | insert (t : ResourceType) (tokens : List Token) (prefixPages pages : List PageId)
    (start : NodeId)
  | ensureCapacityByEvict (t : ResourceType) (num : Int)
  | allocateResourceOfType (t : ResourceType) (nodes : List NodeId)
  | releaseDeviceResourcesPresentOnHost (last : NodeId)
  | allocatePages (t : ResourceType) (num : Int)
  | deallocatePages (t : ResourceType) (pages : List PageId)
  | allocateCacheOpId
  deriving DecidableEq, Repr

def CacheOperation.run : CacheOperation → KV Unit
  | .lock t i => do let _ ← FluxServe.lock t i
  | .unlock t i => do let _ ← FluxServe.unlock t i
  | .matchTokens tokens intent => do let _ ← FluxServe.matchTokens tokens intent
  | .insert t tokens prefixPages pages start => do
    let _ ← FluxServe.insert t tokens prefixPages pages start
  | .ensureCapacityByEvict t num => do let _ ← FluxServe.ensureCapacityByEvict t num
  | .allocateResourceOfType t nodes => do let _ ← FluxServe.allocateResourceOfType t nodes
  | .releaseDeviceResourcesPresentOnHost last => do
    let _ ← FluxServe.releaseDeviceResourcesPresentOnHost last
  | .allocatePages t num => do let _ ← FluxServe.allocatePages t num
  | .deallocatePages t pages => do let _ ← FluxServe.deallocatePages t pages
  | .allocateCacheOpId => do let _ ← FluxServe.allocateCacheOpId

/-- An operation was run, and returned or faulted. -/
inductive CacheStep (kv : KVPrefixCache) : KVPrefixCache → Prop
  | returns (op : CacheOperation) {kv' : KVPrefixCache} (run : op.run kv = .ok () kv') :
    CacheStep kv kv'
  | faults (op : CacheOperation) (e : Fault) {kv' : KVPrefixCache}
    (run : op.run kv = .error e kv') : CacheStep kv kv'

/-- Any number of operations, one after the other. -/
abbrev CacheRun : KVPrefixCache → KVPrefixCache → Prop := Relation.ReflTransGen CacheStep

/-- Whatever every operation respects, a run respects. -/
theorem OperationRule.run {R : KVPrefixCache → KVPrefixCache → Prop} (hR : OperationRule R)
    (load : ∀ nodes, Follows R (allocateResourceOfType .device nodes)) (h : CacheRun kv kv') :
    R kv kv' := by
  have hrun (op : CacheOperation) : Follows R op.run := by
    cases op with
    | lock t i => exact hR.bind (hR.follows_lock i) fun _ => hR.pure _
    | unlock t i => exact hR.bind (hR.follows_unlock i) fun _ => hR.pure _
    | matchTokens tokens intent =>
      exact hR.bind (hR.follows_matchTokens tokens intent) fun _ => hR.pure _
    | insert t tokens prefixPages pages start =>
      exact hR.bind (hR.follows_insert tokens prefixPages pages start) fun _ => hR.pure _
    | ensureCapacityByEvict t num =>
      exact hR.bind (hR.follows_ensureCapacityByEvict num) fun _ => hR.pure _
    | allocateResourceOfType t nodes =>
      cases t with
      | device => exact hR.bind (load nodes) fun _ => hR.pure _
      | host => exact hR.bind (hR.follows_allocateHost nodes) fun _ => hR.pure _
    | releaseDeviceResourcesPresentOnHost last =>
      exact hR.bind (hR.follows_releaseDevice last) fun _ => hR.pure _
    | allocatePages t num => exact hR.bind (hR.follows_allocatePages num) fun _ => hR.pure _
    | deallocatePages t pages =>
      exact hR.bind (hR.follows_deallocatePages pages) fun _ => hR.pure _
    | allocateCacheOpId => exact hR.bind hR.follows_allocateCacheOpId fun _ => hR.pure _
  induction h with
  | refl => exact hR.refl _
  | tail _ step ih =>
    apply hR.trans ih
    cases step with
    | returns op run => exact (hrun op _).of_ok run
    | faults op e run => exact (hrun op _).of_error run

theorem leaves_operationRule : OperationRule fun kv kv' => ExactLeaves kv → ExactLeaves kv' where
  toReadRule := leaves_rule
  follows_lock := keepsLeaves_lock
  follows_unlock := keepsLeaves_unlock
  follows_matchTokens := keepsLeaves_matchTokens
  follows_insert := keepsLeaves_insert
  follows_ensureCapacityByEvict := keepsLeaves_ensureCapacityByEvict
  follows_allocateHost := keepsLeaves_allocateResourceOfType
  follows_releaseDevice := keepsLeaves_releaseDevice
  follows_allocatePages := keepsLeaves_allocatePages
  follows_deallocatePages := keepsLeaves_deallocatePages
  follows_allocateCacheOpId := keepsLeaves_allocateCacheOpId

theorem ExactLeaves.run (hkv : ExactLeaves kv) (h : CacheRun kv kv') : ExactLeaves kv' :=
  leaves_operationRule.run keepsLeaves_allocateResourceOfType h hkv

/-- What an operation runs is a step. -/
theorem follows_operation {α : Type} {x : KV α} (op : CacheOperation)
    (hop : op.run = do let _ ← x) : Follows CacheRun x := by
  intro kv
  apply (runs_trivial x kv).and_eq.imp
  · rintro a kv' ⟨-,hx⟩
    apply Relation.ReflTransGen.single
    apply CacheStep.returns op
    rw [hop,bind_ok hx]
    rfl
  · rintro e kv' ⟨-,hx⟩
    apply Relation.ReflTransGen.single
    apply CacheStep.faults op e
    rw [hop]
    change EStateM.bind x _ kv = _
    simp only [EStateM.bind,hx]

theorem run_operationRule : OperationRule CacheRun where
  refl _ := Relation.ReflTransGen.refl
  trans := Relation.ReflTransGen.trans
  follows_lock {t} i := follows_operation (.lock t i) rfl
  follows_unlock {t} i := follows_operation (.unlock t i) rfl
  follows_matchTokens tokens intent := follows_operation (.matchTokens tokens intent) rfl
  follows_insert {t} tokens prefixPages pages start :=
    follows_operation (.insert t tokens prefixPages pages start) rfl
  follows_ensureCapacityByEvict {t} num := follows_operation (.ensureCapacityByEvict t num) rfl
  follows_allocateHost nodes := follows_operation (.allocateResourceOfType .host nodes) rfl
  follows_releaseDevice last :=
    follows_operation (.releaseDeviceResourcesPresentOnHost last) rfl
  follows_allocatePages {t} num := follows_operation (.allocatePages t num) rfl
  follows_deallocatePages {t} pages := follows_operation (.deallocatePages t pages) rfl
  follows_allocateCacheOpId := follows_operation .allocateCacheOpId rfl

end FluxServe
