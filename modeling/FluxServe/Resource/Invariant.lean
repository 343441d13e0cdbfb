import FluxServe.Resource.Agreement

namespace FluxServe

namespace KVPrefixCache

variable {kv kv' kv'' : KVPrefixCache} {t u : ResourceType} {i j : NodeId} {n : TreeNode}
  {refs refs' : ResourceType → Multiset NodeId} {owned : ResourceType → Multiset PageId}

/-- How many of the references lie in the subtree rooted at a node. -/
def refsBelow (tree : Heap TreeNode) (refs : Multiset NodeId) (i : NodeId) : Nat :=
  refs.countP fun j => i ∈ leafToRoot tree j

/-- Every resource has its node's pages and counts the references below it; the whole path of
a reference is resident. -/
structure TierOK (ps : Nat) (t : ResourceType) (tree : Heap TreeNode) (refs : Multiset NodeId) :
    Prop where
  size : ∀ {i}, hasResource t tree i = true →
    i ≠ 0 ∧ (nodePages t tree i).length*ps = (nodeTokens tree i).length
  count : ∀ {i}, hasResource t tree i = true → refCountOf t tree i = refsBelow tree refs i
  pinned : ∀ {j}, j ∈ refs →
    (∃ n, tree.read j = some n) ∧ ∀ i ∈ leafToRoot tree j, hasResource t tree i = true

/-- Every page is free, held by a node, or owned outside the tree, and only once. -/
def PagesOK (t : ResourceType) (kv : KVPrefixCache) (owned : Multiset PageId) : Prop :=
  ((kv.manager t).allocator.freePages : Multiset PageId)+(collectAllPages t kv : Multiset PageId)+
    owned = (PageAllocator.allPages (kv.manager t).allocator.totalPages : Multiset PageId)

/-- The invariant that holds at every point of every operation. -/
structure Inv (kv : KVPrefixCache) (refs : ResourceType → Multiset NodeId)
    (owned : ResourceType → Multiset PageId) : Prop where
  tree : TreeOK kv.pageSize kv.tree
  plain : ∀ {i n}, kv.tree.read i = some n → n.pagedCacheSnapshot = none
  tier : ∀ t, TierOK kv.pageSize t kv.tree (refs t)
  pages : ∀ t, PagesOK t kv (owned t)

/-- The leaves of a tier are exactly the nodes in `node_time_` and `lru_leaves_`, up to the
nodes of `except`. -/
structure Leaves (t : ResourceType) (kv : KVPrefixCache) (except : List NodeId) : Prop where
  nodup : ((kv.manager t).nodeTime.map Prod.fst).Nodup
  entries : (kv.manager t).lruLeaves.Perm ((kv.manager t).nodeTime.map Prod.swap)
  root : 0 ∉ (kv.manager t).nodeTime.map Prod.fst
  leaf : ∀ i, i ∉ except →
    (i ∈ (kv.manager t).nodeTime.map Prod.fst ↔ isLeaf t kv.tree i = true)

/-- A resident node's ancestors are resident. -/
def Closed (t : ResourceType) (tree : Heap TreeNode) : Prop :=
  ∀ i n p, tree.read i = some n → n.parent = some p → p ≠ 0 → hasResource t tree i = true →
    hasResource t tree p = true

/-- The invariant between operations. -/
structure KVInv (kv : KVPrefixCache) (refs : ResourceType → Multiset NodeId)
    (owned : ResourceType → Multiset PageId) : Prop where
  inv : Inv kv refs owned
  leaves : ∀ t, Leaves t kv []
  closed : ∀ t, Closed t kv.tree

/-- The pages and tokens of every path a live reference pins are left alone. -/
structure Evolves (refs : ResourceType → Multiset NodeId) (kv kv' : KVPrefixCache) : Prop where
  pageSize : kv'.pageSize = kv.pageSize
  disablePrefixCache : kv'.disablePrefixCache = kv.disablePrefixCache
  nextOpId : kv'.nextOpId = kv.nextOpId
  length : kv.tree.length ≤ kv'.tree.length
  live : ∀ {i n}, i < kv.tree.length → kv'.tree.read i = some n → ∃ m, kv.tree.read i = some m
  tokens : ∀ {i n m}, kv.tree.read i = some n → kv'.tree.read i = some m →
    pathTokens kv'.tree i = pathTokens kv.tree i
  pages : ∀ t, ∀ i ∈ refs t, pathPages t kv'.tree i = pathPages t kv.tree i
  returned : ∀ t, ∃ fresh, (kv'.manager t).allocator.returned =
    fresh ++ (kv.manager t).allocator.returned ∧
      ∀ i ∈ refs t, ∀ p ∈ fresh, p ∉ pathPages t kv.tree i
  totalPages : ∀ t, (kv'.manager t).allocator.totalPages = (kv.manager t).allocator.totalPages

theorem Evolves.refl (refs : ResourceType → Multiset NodeId) (kv : KVPrefixCache) :
    Evolves refs kv kv :=
  ⟨rfl,rfl,rfl,Nat.le_refl _,fun _ h => ⟨_,h⟩,fun _ _ => rfl,fun _ _ _ => rfl,
    fun _ => ⟨[],rfl,by simp⟩,fun _ => rfl⟩

theorem Evolves.trans (h : Evolves refs kv kv') (h' : Evolves refs kv' kv'') :
    Evolves refs kv kv'' := by
  refine ⟨h'.pageSize.trans h.pageSize,h'.disablePrefixCache.trans h.disablePrefixCache,
    h'.nextOpId.trans h.nextOpId,h.length.trans h'.length,?_,?_,?_,?_,
    fun t => (h'.totalPages t).trans (h.totalPages t)⟩
  · intro i n hl hi
    obtain ⟨m,hm⟩ := h'.live (hl.trans_le h.length) hi
    exact h.live hl hm
  · intro i n m hi hi''
    obtain ⟨n',hn'⟩ := h'.live ((Heap.lt_of_read hi).trans_le h.length) hi''
    exact (h'.tokens hn' hi'').trans (h.tokens hi hn')
  · exact fun t i hi => (h'.pages t i hi).trans (h.pages t i hi)
  · intro t
    obtain ⟨f,hf,hd⟩ := h.returned t
    obtain ⟨f',hf',hd'⟩ := h'.returned t
    refine ⟨f' ++ f,by rw [hf',hf,List.append_assoc],fun i hi p hp => ?_⟩
    rcases List.mem_append.mp hp with hp | hp
    · rw [← h.pages t i hi]
      exact hd' i hi p hp
    · exact hd i hi p hp

theorem Evolves.mono (h : Evolves refs kv kv') (hr : ∀ t, refs' t ≤ refs t) :
    Evolves refs' kv kv' := by
  refine ⟨h.pageSize,h.disablePrefixCache,h.nextOpId,h.length,h.live,h.tokens,?_,?_,h.totalPages⟩
  · exact fun t i hi => h.pages t i (Multiset.mem_of_le (hr t) hi)
  · intro t
    obtain ⟨f,hf,hd⟩ := h.returned t
    exact ⟨f,hf,fun i hi => hd i (Multiset.mem_of_le (hr t) hi)⟩

/-- A change of ref counts, times, notifiers and leaf sets only: no page moves. -/
structure Calm (kv kv' : KVPrefixCache) : Prop where
  pageSize : kv'.pageSize = kv.pageSize
  disablePrefixCache : kv'.disablePrefixCache = kv.disablePrefixCache
  nextOpId : kv'.nextOpId = kv.nextOpId
  agree : ∀ t, Agree t kv.tree kv'.tree
  allocator : ∀ t, (kv'.manager t).allocator = (kv.manager t).allocator

theorem Calm.refl (kv : KVPrefixCache) : Calm kv kv :=
  ⟨rfl,rfl,rfl,fun t => Agree.refl t _,fun _ => rfl⟩

theorem Calm.trans (h : Calm kv kv') (h' : Calm kv' kv'') : Calm kv kv'' :=
  ⟨h'.pageSize.trans h.pageSize,h'.disablePrefixCache.trans h.disablePrefixCache,
    h'.nextOpId.trans h.nextOpId,fun t => (h.agree t).trans (h'.agree t),
    fun t => (h'.allocator t).trans (h.allocator t)⟩

theorem Calm.evolves (h : Calm kv kv') (refs : ResourceType → Multiset NodeId) :
    Evolves refs kv kv' := by
  refine ⟨h.pageSize,h.disablePrefixCache,h.nextOpId,((h.agree .device).length).ge,?_,?_,?_,?_,
    fun t => by rw [h.allocator t]⟩
  · intro i n _ hi
    obtain ⟨m,hm,_⟩ := (h.agree .device).symm.read hi
    exact ⟨m,hm⟩
  · exact fun _ _ => (h.agree .device).pathTokens_eq _
  · exact fun t i _ => (h.agree t).pathPages_eq i
  · exact fun t => ⟨[],by rw [h.allocator t]; rfl,by simp⟩

/-- A calm change that keeps the ref counts too. -/
structure Quiet (kv kv' : KVPrefixCache) : Prop extends Calm kv kv' where
  counts : ∀ t i, refCountOf t kv'.tree i = refCountOf t kv.tree i

theorem Quiet.refl (kv : KVPrefixCache) : Quiet kv kv := ⟨Calm.refl kv,fun _ _ => rfl⟩

theorem Quiet.trans (h : Quiet kv kv') (h' : Quiet kv' kv'') : Quiet kv kv'' :=
  ⟨h.toCalm.trans h'.toCalm,fun t i => (h'.counts t i).trans (h.counts t i)⟩

theorem Closed.congr {tree tree' : Heap TreeNode} (h : Agree t tree tree')
    (hc : Closed t tree) : Closed t tree' := by
  intro i n' p hi hp hp0 hr
  obtain ⟨n,hn,hv⟩ := h.symm.read hi
  have hp' : n.parent = some p := (congrArg (fun v => v.1.1) hv).trans hp
  rw [h.hasResource_eq] at hr ⊢
  exact hc i n p hn hp' hp0 hr

theorem refsBelow_congr {tree tree' : Heap TreeNode}
    (h : ∀ j, leafToRoot tree' j = leafToRoot tree j) (r : Multiset NodeId) (i : NodeId) :
    refsBelow tree' r i = refsBelow tree r i := by
  unfold refsBelow
  simp only [h]

theorem TierOK.congr {ps : Nat} {tree tree' : Heap TreeNode} {r : Multiset NodeId}
    (h : Agree t tree tree') (hc : ∀ i, refCountOf t tree' i = refCountOf t tree i)
    (ht : TierOK ps t tree r) : TierOK ps t tree' r := by
  refine ⟨fun {i} hi => ?_,fun {i} hi => ?_,fun {j} hj => ?_⟩
  · rw [h.hasResource_eq] at hi
    rw [h.nodePages_eq,h.nodeTokens_eq]
    exact ht.size hi
  · rw [h.hasResource_eq] at hi
    rw [hc,ht.count hi,refsBelow_congr h.leafToRoot_eq]
  · obtain ⟨⟨n,hn⟩,hres⟩ := ht.pinned hj
    obtain ⟨n',hn',_⟩ := h.read hn
    refine ⟨⟨n',hn'⟩,fun i hi => ?_⟩
    rw [h.leafToRoot_eq] at hi
    rw [h.hasResource_eq]
    exact hres i hi

theorem PagesOK.congr {o : Multiset PageId} (h : Agree t kv.tree kv'.tree)
    (ha : (kv'.manager t).allocator = (kv.manager t).allocator) (hp : PagesOK t kv o) :
    PagesOK t kv' o := by
  unfold PagesOK collectAllPages at *
  rw [ha,h.collect_eq]
  exact hp

/-- A calm change keeps the invariant for the references that explain the new ref counts. -/
theorem Inv.calm (h : Calm kv kv') (ht : ∀ t, TierOK kv'.pageSize t kv'.tree (refs' t))
    (hi : Inv kv refs owned) : Inv kv' refs' owned := by
  refine ⟨?_,?_,ht,fun t => ?_⟩
  · rw [h.pageSize]
    exact (h.agree .device).treeOK hi.tree
  · intro i n' hn'
    obtain ⟨n,hn,hv⟩ := (h.agree .device).symm.read hn'
    exact (congrArg (fun v => v.1.2.2.2) hv).symm.trans (hi.plain hn)
  · exact (hi.pages t).congr (h.agree t) (h.allocator t)

theorem Inv.quiet (h : Quiet kv kv') (hi : Inv kv refs owned) : Inv kv' refs owned := by
  refine hi.calm h.toCalm fun t => ?_
  rw [h.pageSize]
  exact (hi.tier t).congr (h.agree t) (h.counts t)

theorem Leaves.congr {x : List NodeId} (h : Agree t kv.tree kv'.tree)
    (hm : (kv'.manager t).lruLeaves = (kv.manager t).lruLeaves)
    (hn : (kv'.manager t).nodeTime = (kv.manager t).nodeTime) (hl : Leaves t kv x) :
    Leaves t kv' x := by
  refine ⟨by rw [hn]; exact hl.nodup,by rw [hm,hn]; exact hl.entries,by rw [hn]; exact hl.root,?_⟩
  intro i hi
  rw [hn,h.isLeaf_eq]
  exact hl.leaf i hi

theorem Leaves.mono {x y : List NodeId} (hl : Leaves t kv x) (hxy : x ⊆ y) : Leaves t kv y :=
  ⟨hl.nodup,hl.entries,hl.root,fun i hi => hl.leaf i (fun hx => hi (hxy hx))⟩

end KVPrefixCache

end FluxServe
