import FluxServe.Resource.WalkProof

namespace FluxServe

open KVPrefixCache

variable {ps : Nat} {t u : ResourceType} {tree : Heap TreeNode} {i j c p : NodeId}
  {n np : TreeNode} {kv kv' kv₀ : KVPrefixCache} {w : WalkResult} {T tokens : List Token}
  {refs : ResourceType → Multiset NodeId} {owned : ResourceType → Multiset PageId}

/-- A node the walk passes: its tokens begin the sequence the walk was given. -/
theorem Walked.onPath (h : Walked refs owned T kv₀ kv w) (hi : kv.tree.read i = some n)
    (hpre : pathTokens kv.tree i <+: T) : i = 0 ∨ i ∈ leafToRoot kv.tree w.terminal := by
  have hT := h.kvInv.inv.tree
  obtain ⟨nt,hnt⟩ := h.live
  rcases Nat.le_total (pathTokens kv.tree i).length (pathTokens kv.tree w.terminal).length with
    hle | hle
  · refine hT.mem_leafToRoot_of_prefix hi hnt (List.prefix_of_prefix_length_le hpre ?_ hle)
    rw [← h.tokens]
    exact List.prefix_append _ _
  · have hpre' : pathTokens kv.tree w.terminal <+: pathTokens kv.tree i := by
      refine List.prefix_of_prefix_length_le ?_ hpre hle
      rw [← h.tokens]
      exact List.prefix_append _ _
    have hon := hT.mem_leafToRoot_of_prefix hnt hi hpre'
    by_cases hne : w.terminal = i
    · rw [hne]
      by_cases hi0 : i=0
      · exact Or.inl hi0
      · obtain ⟨q,_,hq,_⟩ := hT.node hi hi0
        exact Or.inr (hT.self_mem_leafToRoot hi hq)
    · -- the walk would have gone on to the child of its terminal
      obtain ⟨c,nc,hc,hnc,hcp⟩ := hT.child_on_path hi hon hne
      have hcpre := (hT.pathTokens_prefix hi (Or.inr hc)).trans hpre
      rw [hT.pathTokens_cons hnc hcp,← h.tokens,List.prefix_append_right_inj] at hcpre
      obtain ⟨_,_,_,htok,hdvd⟩ := hT.parent hnc hcp
      have hlen := Nat.le_of_dvd (List.length_pos_of_ne_nil htok) hdvd
      have hrem := hlen.trans hcpre.length_le
      refine absurd ?_ (h.noChild c nc hnc hcp hrem)
      exact take_eq_of_isPrefix hcpre (List.prefix_refl _) hlen hrem

section NewLeaf

/-- The node `AddChild` puts below `p`. -/
def leafNode (p : NodeId) (np : TreeNode) (tokens : List Token) (now : Timestamp) : TreeNode :=
  { parent := some p, tokens, depthInTokens := np.depthInTokens+tokens.length,
    lastAccessTime := now }

@[simp] theorem resource_leafNode (t : ResourceType) (now : Timestamp) :
    (leafNode p np tokens now).resource t = none := by
  cases t <;> rfl

@[simp] theorem pages_leafNode (t : ResourceType) (now : Timestamp) :
    (leafNode p np tokens now).pages t = [] := by
  simp [TreeNode.pages]

theorem hasResource_alloc (now : Timestamp) (t : ResourceType) (j : NodeId) :
    hasResource t (tree.alloc (leafNode p np tokens now)) j = hasResource t tree j := by
  unfold hasResource
  rw [Heap.bind_read_alloc tree (by simp)]

theorem refCountOf_alloc (now : Timestamp) (t : ResourceType) (j : NodeId) :
    refCountOf t (tree.alloc (leafNode p np tokens now)) j = refCountOf t tree j := by
  unfold refCountOf
  rw [Heap.bind_read_alloc tree (by simp)]

theorem nodePages_alloc (now : Timestamp) (t : ResourceType) (j : NodeId) :
    nodePages t (tree.alloc (leafNode p np tokens now)) j = nodePages t tree j := by
  unfold nodePages
  rw [Heap.read_alloc]
  split
  · next hj => rw [hj,Heap.read_length]; simp
  · rfl

theorem nodeTokens_alloc (now : Timestamp) (hj : j ≠ tree.length) :
    nodeTokens (tree.alloc (leafNode p np tokens now)) j = nodeTokens tree j := by
  unfold nodeTokens
  rw [Heap.read_alloc,if_neg hj]

theorem isLeaf_alloc (now : Timestamp) (t : ResourceType) (j : NodeId) :
    isLeaf t (tree.alloc (leafNode p np tokens now)) j = isLeaf t tree j := by
  have hchild : hasChildWithPages t (tree.alloc (leafNode p np tokens now)) j =
      hasChildWithPages t tree j := by
    rw [Bool.eq_iff_iff,hasChildWithPages_iff,hasChildWithPages_iff]
    constructor
    · rintro ⟨k,x,hk,hx,hpg⟩
      rw [Heap.read_alloc] at hk
      split at hk
      · cases hk
        simp at hpg
      · exact ⟨k,x,hk,hx,hpg⟩
    · rintro ⟨k,x,hk,hx,hpg⟩
      exact ⟨k,x,Heap.read_alloc_of_read hk,hx,hpg⟩
  unfold isLeaf
  rw [hchild,hasResource_alloc,nodePages_alloc]
  by_cases hj : j=tree.length
  · subst hj
    simp [hasResource,Heap.read_length]
  · rw [Heap.read_alloc,if_neg hj]

theorem sized_alloc (now : Timestamp) (hs : Sized ps tree) : Sized ps (tree.alloc (leafNode p np tokens now)) := by
  intro t j hj
  rw [hasResource_alloc] at hj
  obtain ⟨x,_,hx,_⟩ := exists_resource_of_hasResource hj
  rw [nodePages_alloc,nodeTokens_alloc now (ne_length_of_read hx)]
  exact hs t j hj

theorem closed_alloc (now : Timestamp) (hc : Closed t tree) :
    Closed t (tree.alloc (leafNode p np tokens now)) := by
  intro j x q hj hq hq0 hr
  rw [hasResource_alloc] at hr ⊢
  obtain ⟨y,_,hy,_⟩ := exists_resource_of_hasResource hr
  rw [Heap.read_alloc_of_read hy] at hj
  cases hj
  exact hc j _ q hy hq hq0 hr

/-- A place for a new leaf: no child of `p` starts with the same page. -/
structure Vacant (ps : Nat) (tree : Heap TreeNode) (p : NodeId) (np : TreeNode)
    (tokens : List Token) : Prop where
  ok : TreeOK ps tree
  readParent : tree.read p = some np
  tokens_ne : tokens ≠ []
  dvd : ps ∣ tokens.length
  noChild : ∀ c n, tree.read c = some n → n.parent = some p → n.tokens.take ps ≠ tokens.take ps

namespace Vacant

variable (h : Vacant ps tree p np tokens) (now : Timestamp)
include h

theorem treeOK : TreeOK ps (tree.alloc (leafNode p np tokens now)) := by
  have hT := h.ok
  have hnew : ∀ {j x}, (tree.alloc (leafNode p np tokens now)).read j = some x →
      (j = tree.length ∧ x = leafNode p np tokens now) ∨ tree.read j = some x := by
    intro j x hj
    rw [Heap.read_alloc] at hj
    split at hj
    · next hjk => exact Or.inl ⟨hjk,(Option.some.inj hj).symm⟩
    · exact Or.inr hj
  refine ⟨hT.pageSize_pos,?_,?_,?_⟩
  · obtain ⟨r,hr,hrest⟩ := hT.root
    exact ⟨r,Heap.read_alloc_of_read hr,hrest⟩
  · intro j x hj hj0
    rcases hnew hj with ⟨_,rfl⟩ | hj
    · exact ⟨p,np,rfl,Heap.read_alloc_of_read h.readParent,rfl,h.tokens_ne,h.dvd⟩
    · obtain ⟨q,nq,hq,hnq,hrest⟩ := hT.node hj hj0
      exact ⟨q,nq,hq,Heap.read_alloc_of_read hnq,hrest⟩
  · intro i j x y q hi hj hpx hpy hk
    rcases hnew hi with ⟨rfl,rfl⟩ | hi <;> rcases hnew hj with ⟨rfl,rfl⟩ | hj
    · rfl
    · obtain rfl : p = q := Option.some.inj hpx
      exact absurd hk.symm (h.noChild j y hj hpy)
    · obtain rfl : p = q := Option.some.inj hpy
      exact absurd hk (h.noChild i x hi hpx)
    · exact hT.sibling hi hj hpx hpy hk

theorem leafToRoot_eq {x : TreeNode} (hj : tree.read j = some x) :
    leafToRoot (tree.alloc (leafNode p np tokens now)) j = leafToRoot tree j := by
  refine h.ok.induction (P := fun j => leafToRoot (tree.alloc (leafNode p np tokens now)) j =
    leafToRoot tree j) ?_ ?_ j x hj
  · rw [h.ok.leafToRoot_zero,(h.treeOK now).leafToRoot_zero]
  · intro j x q hj hq ih
    rw [h.ok.leafToRoot_cons hj hq,(h.treeOK now).leafToRoot_cons (Heap.read_alloc_of_read hj) hq,ih]

theorem pathTokens_eq {x : TreeNode} (hj : tree.read j = some x) :
    pathTokens (tree.alloc (leafNode p np tokens now)) j = pathTokens tree j := by
  unfold pathTokens rootToLeaf
  rw [h.leafToRoot_eq now hj]
  refine List.flatMap_congr fun k hk => nodeTokens_alloc now ?_
  obtain ⟨y,_,hy,_⟩ := h.ok.mem_leafToRoot (List.mem_reverse.mp hk)
  exact ne_length_of_read hy

theorem pathTokens_new : pathTokens (tree.alloc (leafNode p np tokens now)) tree.length =
    pathTokens tree p ++ tokens := by
  rw [(h.treeOK now).pathTokens_cons (Heap.read_alloc_self _ _) rfl,h.pathTokens_eq now h.readParent]
  rfl

theorem pathPages_eq (t : ResourceType) {x : TreeNode} (hj : tree.read j = some x) :
    pathPages t (tree.alloc (leafNode p np tokens now)) j = pathPages t tree j := by
  unfold pathPages rootToLeaf
  rw [h.leafToRoot_eq now hj,funext (nodePages_alloc now t)]

theorem tierOK {rs : Multiset NodeId} (ht : TierOK ps t tree rs) :
    TierOK ps t (tree.alloc (leafNode p np tokens now)) rs := by
  refine ⟨fun {j} hj => ?_,fun {j} hj => ?_,fun {j} hj => ?_⟩
  · rw [hasResource_alloc] at hj
    obtain ⟨x,_,hx,_⟩ := exists_resource_of_hasResource hj
    rw [nodePages_alloc,nodeTokens_alloc now (ne_length_of_read hx)]
    exact ht.size hj
  · rw [hasResource_alloc] at hj
    rw [refCountOf_alloc,ht.count hj]
    unfold refsBelow
    refine Multiset.countP_congr rfl fun k hk => ?_
    obtain ⟨⟨x,hx⟩,_⟩ := ht.pinned hk
    rw [h.leafToRoot_eq now hx]
  · obtain ⟨⟨x,hx⟩,hpath⟩ := ht.pinned hj
    refine ⟨⟨x,Heap.read_alloc_of_read hx⟩,fun k hk => ?_⟩
    rw [h.leafToRoot_eq now hx] at hk
    rw [hasResource_alloc]
    exact hpath k hk

end Vacant

/-- The cache with a new leaf. -/
def growCache (kv : KVPrefixCache) (p : NodeId) (np : TreeNode) (tokens : List Token)
    (now : Timestamp) : KVPrefixCache :=
  { kv with tree := kv.tree.alloc (leafNode p np tokens now) }

@[simp] theorem growCache_manager (u : ResourceType) (now : Timestamp) :
    (growCache kv p np tokens now).manager u = kv.manager u := by
  cases u <;> rfl

theorem Vacant.grows (h : Vacant kv.pageSize kv.tree p np tokens) (now : Timestamp) :
    Grows id kv (growCache kv p np tokens now) where
  pageSize := rfl
  disablePrefixCache := rfl
  nextOpId := rfl
  manager := fun u => growCache_manager u now
  length := by simp [growCache]
  old := fun _ => rfl
  live := fun hi => ⟨_,Heap.read_alloc_of_read hi,rfl⟩
  back := by
    intro i x hl hi
    simp only [growCache] at hi
    rw [Heap.read_alloc,if_neg (Nat.ne_of_lt hl)] at hi
    exact ⟨x,hi⟩
  resident := hasResource_alloc now
  count := refCountOf_alloc now
  pages := by
    intro t i x hx
    simp only [growCache] at hx
    rw [nodePages_alloc] at hx
    exact hx
  path := by
    intro r x hr i
    simp only [growCache]
    rw [h.leafToRoot_eq now hr]
    rfl
  pathTokens := fun hi => h.pathTokens_eq now hi
  pathPages := fun t _ _ hi => h.pathPages_eq now t hi
  collect := by
    intro t
    simp only [growCache]
    rw [Heap.collect_alloc,pages_leafNode,List.append_nil]
  unlocked := by
    intro t
    simp only [growCache]
    rw [Heap.collect_alloc]
    simp [TreeNode.unlockedPages]

theorem growCache_plain (now : Timestamp)
    (hp : ∀ {i x}, kv.tree.read i = some x → x.pagedCacheSnapshot = none) {i : NodeId}
    {x : TreeNode} (hi : (growCache kv p np tokens now).tree.read i = some x) :
    x.pagedCacheSnapshot = none := by
  simp only [growCache] at hi
  rw [Heap.read_alloc] at hi
  split at hi
  · cases hi
    rfl
  · exact hp hi

/-- A new node without pages leaves the entries alone. -/
theorem growCache_leaves (now : Timestamp) {x : List NodeId} (hl : Leaves t kv x) :
    Leaves t (growCache kv p np tokens now) x := by
  refine ⟨by simpa using hl.nodup,by simpa using hl.entries,by simpa using hl.root,?_⟩
  intro i hi
  rw [growCache_manager]
  simp only [growCache]
  rw [isLeaf_alloc]
  exact hl.leaf i hi

theorem Vacant.kvInv (h : Vacant kv.pageSize kv.tree p np tokens) (now : Timestamp)
    (hinv : KVInv kv refs owned) : KVInv (growCache kv p np tokens now) refs owned := by
  refine ⟨⟨h.treeOK now,growCache_plain now hinv.inv.plain,
    fun t => h.tierOK now (hinv.inv.tier t),fun t => ?_⟩,
    fun t => growCache_leaves now (hinv.leaves t),fun t => closed_alloc now (hinv.closed t)⟩
  have hp := hinv.inv.pages t
  have hc := (h.grows now).collect t
  unfold PagesOK collectAllPages at *
  rw [growCache_manager,hc]
  exact hp

theorem addChild_returns (h : Vacant kv.pageSize kv.tree p np tokens) (now : Timestamp) :
    Returns (addChild p tokens now) kv
      (fun k kv' => k = kv.tree.length ∧ kv' = growCache kv p np tokens now) := by
  have hnone : findChild kv.pageSize kv.tree p (tokens.take kv.pageSize) = none := by
    cases hf : findChild kv.pageSize kv.tree p (tokens.take kv.pageSize) with
    | none => rfl
    | some c =>
      obtain ⟨n,hn,hp,hk⟩ := findChild_some hf
      exact absurd hk (h.noChild c n hn hp)
  unfold Returns addChild
  apply getNode_bind h.readParent
  rw [runs_bind,runs_get]
  simp only [hnone]
  rw [runs_bind,runs_modify]
  exact ⟨rfl,rfl⟩

end NewLeaf

end FluxServe
