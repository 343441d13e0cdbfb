import FluxServe.Resource.Capacity

namespace FluxServe

open KVPrefixCache

variable {ps m : Nat} {t u : ResourceType} {tree : Heap TreeNode} {c p i j : NodeId}
  {n np : TreeNode}

def prefixResource (m : Nat) (r : Option NodeResource) : Option NodeResource :=
  r.map fun r => { pages := r.pages.take m, refCount := r.refCount }

def suffixResource (m : Nat) (r : Option NodeResource) : Option NodeResource :=
  r.map fun r => { r with pages := r.pages.drop m }

/-- The node a split puts above the node it divides. -/
def prefixNode (ps m : Nat) (p : NodeId) (np n : TreeNode) : TreeNode :=
  { parent := some p, tokens := n.tokens.take (m*ps),
    depthInTokens := np.depthInTokens+(n.tokens.take (m*ps)).length,
    lastAccessTime := n.lastAccessTime,
    deviceResource := prefixResource m n.deviceResource,
    hostResource := prefixResource m n.hostResource }

/-- What the divided node becomes. -/
def suffixNode (ps m : Nat) (k : NodeId) (n : TreeNode) : TreeNode :=
  { n with
    parent := some k, tokens := n.tokens.drop (m*ps),
    depthInTokens := n.depthInTokens-n.tokens.length+m*ps+(n.tokens.drop (m*ps)).length,
    deviceResource := suffixResource m n.deviceResource,
    hostResource := suffixResource m n.hostResource }

def splitTree (ps m : Nat) (tree : Heap TreeNode) (p c : NodeId) (np n : TreeNode) :
    Heap TreeNode :=
  (tree.alloc (prefixNode ps m p np n)).write c (suffixNode ps m tree.length n)

@[simp] theorem resource_prefixNode (t : ResourceType) :
    (prefixNode ps m p np n).resource t = prefixResource m (n.resource t) := by
  cases t <;> rfl

@[simp] theorem resource_suffixNode (t : ResourceType) (k : NodeId) :
    (suffixNode ps m k n).resource t = suffixResource m (n.resource t) := by
  cases t <;> rfl

@[simp] theorem pages_prefixNode (t : ResourceType) :
    (prefixNode ps m p np n).pages t = (n.pages t).take m := by
  unfold TreeNode.pages
  rw [resource_prefixNode]
  cases n.resource t <;> simp [prefixResource]

@[simp] theorem pages_suffixNode (t : ResourceType) (k : NodeId) :
    (suffixNode ps m k n).pages t = (n.pages t).drop m := by
  unfold TreeNode.pages
  rw [resource_suffixNode]
  cases n.resource t <;> simp [suffixResource]

/-- A place where the tree can be split: `m` pages into node `c` below `p`. -/
structure Cut (ps m : Nat) (tree : Heap TreeNode) (p c : NodeId) (np n : TreeNode) : Prop where
  ok : TreeOK ps tree
  read : tree.read c = some n
  parent : n.parent = some p
  readParent : tree.read p = some np
  pos : 0 < m
  lt : m*ps < n.tokens.length

/-- The node a node of the split tree comes from. -/
def originOf (tree : Heap TreeNode) (c i : NodeId) : NodeId := if i = tree.length then c else i

theorem length_splitTree : (splitTree ps m tree p c np n).length = tree.length+1 := by
  simp [splitTree]

theorem ne_length_of_read {x : TreeNode} (hj : tree.read j = some x) : j ≠ tree.length :=
  Nat.ne_of_lt (Heap.lt_of_read hj)

namespace Cut

variable (h : Cut ps m tree p c np n)
include h

theorem read_split (j : NodeId) : (splitTree ps m tree p c np n).read j =
    if j=c then some (suffixNode ps m tree.length n)
    else if j=tree.length then some (prefixNode ps m p np n) else tree.read j := by
  have hc := Heap.lt_of_read h.read
  unfold splitTree
  rw [Heap.read_write _ _ (by simp; omega),Heap.read_alloc]
  by_cases hj : j=c
  · simp [hj]
  · simp [hj,Ne.symm hj]

theorem read_child : (splitTree ps m tree p c np n).read c =
    some (suffixNode ps m tree.length n) := by
  rw [h.read_split,if_pos rfl]

theorem read_new : (splitTree ps m tree p c np n).read tree.length =
    some (prefixNode ps m p np n) := by
  rw [h.read_split,if_neg (Nat.ne_of_gt (Heap.lt_of_read h.read)),if_pos rfl]

theorem read_other (hc : j ≠ c) (hk : j ≠ tree.length) :
    (splitTree ps m tree p c np n).read j = tree.read j := by
  rw [h.read_split,if_neg hc,if_neg hk]

theorem parent_ne_child : p ≠ c := by
  rintro rfl
  have hlt := h.ok.depth_lt h.read h.parent h.readParent
  obtain rfl : n = np := Option.some.inj (h.read.symm.trans h.readParent)
  exact Nat.lt_irrefl _ hlt

theorem read_parent : (splitTree ps m tree p c np n).read p = some np := by
  rw [h.read_other h.parent_ne_child (ne_length_of_read h.readParent),h.readParent]

theorem depth_eq : n.depthInTokens = np.depthInTokens+n.tokens.length := by
  obtain ⟨x,hx,hd,_⟩ := h.ok.parent h.read h.parent
  rw [h.readParent] at hx
  cases hx
  exact hd

theorem suffix_depth : (suffixNode ps m tree.length n).depthInTokens = n.depthInTokens := by
  have hd := h.depth_eq
  have hlt := h.lt
  simp only [suffixNode,List.length_drop]
  omega

theorem dvd_tokens : ps ∣ n.tokens.length := by
  obtain ⟨_,_,_,_,hdvd⟩ := h.ok.parent h.read h.parent
  exact hdvd

theorem take_eq : (n.tokens.take (m*ps)).take ps = n.tokens.take ps := by
  rw [List.take_take,Nat.min_eq_left]
  exact Nat.le_mul_of_pos_left ps h.pos

/-- A node other than the two halves has its old parent. -/
theorem read_inv {x : TreeNode} (hj : (splitTree ps m tree p c np n).read j = some x) :
    (j = c ∧ x = suffixNode ps m tree.length n) ∨
      (j = tree.length ∧ x = prefixNode ps m p np n) ∨
      (j ≠ c ∧ j ≠ tree.length ∧ tree.read j = some x) := by
  rw [h.read_split] at hj
  split at hj
  · next hjc => cases hj; exact Or.inl ⟨hjc,rfl⟩
  · next hjc =>
    split at hj
    · next hjk => cases hj; exact Or.inr (Or.inl ⟨hjk,rfl⟩)
    · next hjk => exact Or.inr (Or.inr ⟨hjc,hjk,hj⟩)

theorem treeOK : TreeOK ps (splitTree ps m tree p c np n) := by
  have hT := h.ok
  have hc0 := hT.ne_zero h.read h.parent
  have hlen := Heap.lt_of_read h.read
  refine ⟨hT.pageSize_pos,?_,?_,?_⟩
  · rw [h.read_other (Ne.symm hc0) (by rintro h0; rw [← h0] at hlen; cases hlen)]
    exact hT.root
  · intro j x hj hj0
    rcases h.read_inv hj with ⟨rfl,rfl⟩ | ⟨rfl,rfl⟩ | ⟨hjc,hjk,hjx⟩
    · refine ⟨tree.length,_,rfl,h.read_new,?_,?_,?_⟩
      · have := h.suffix_depth
        have hd := h.depth_eq
        have hlt := h.lt
        simp only [suffixNode,prefixNode,List.length_drop,List.length_take] at this ⊢
        omega
      · simpa [suffixNode] using h.lt
      · simp only [suffixNode,List.length_drop]
        exact Nat.dvd_sub h.dvd_tokens (Nat.dvd_mul_left ps m)
    · refine ⟨p,np,rfl,h.read_parent,rfl,?_,?_⟩
      · have h1 := h.lt
        have h2 : 0 < m*ps := Nat.mul_pos h.pos hT.pageSize_pos
        refine List.ne_nil_of_length_pos ?_
        simp only [prefixNode,List.length_take]
        omega
      · have h1 := h.lt
        simp only [prefixNode,List.length_take]
        rw [Nat.min_eq_left (by omega)]
        exact Nat.dvd_mul_left ps m
    · obtain ⟨q,nq,hq,hnq,hd,hrest⟩ := hT.node hjx hj0
      by_cases hqc : q=c
      · subst hqc
        rw [h.read] at hnq
        cases hnq
        exact ⟨q,_,hq,h.read_child,by rw [h.suffix_depth]; exact hd,hrest⟩
      · exact ⟨q,nq,hq,by rw [h.read_other hqc (ne_length_of_read hnq)]; exact hnq,hd,hrest⟩
  · have hold : ∀ {j x}, tree.read j = some x → x.parent ≠ some tree.length := by
      intro j x hj hx
      obtain ⟨q,hq,_⟩ := hT.parent hj hx
      exact ne_length_of_read hq rfl
    intro i j x y q hi hj hpx hpy hk
    rcases h.read_inv hi with ⟨rfl,rfl⟩ | ⟨rfl,rfl⟩ | ⟨hic,_,hix⟩ <;>
      rcases h.read_inv hj with ⟨rfl,rfl⟩ | ⟨rfl,rfl⟩ | ⟨hjc,_,hjy⟩
    · rfl
    · have : tree.length = p := Option.some.inj (hpx.trans hpy.symm)
      exact absurd this.symm (ne_length_of_read h.readParent)
    · exact absurd (hpy.trans hpx.symm) (hold hjy)
    · have : tree.length = p := Option.some.inj (hpy.trans hpx.symm)
      exact absurd this.symm (ne_length_of_read h.readParent)
    · rfl
    · refine absurd (hT.sibling hjy h.read (hpy.trans hpx.symm) h.parent ?_) hjc
      rw [← hk,← h.take_eq]
      rfl
    · exact absurd (hpx.trans hpy.symm) (hold hix)
    · refine absurd (hT.sibling hix h.read (hpx.trans hpy.symm) h.parent ?_) hic
      rw [hk,← h.take_eq]
      rfl
    · exact hT.sibling hix hjy hpx hpy hk

/-- A live node stays live, under its old parent unless it is the divided one. -/
theorem read_old {x : TreeNode} (hj : tree.read j = some x) (hjc : j ≠ c) :
    (splitTree ps m tree p c np n).read j = some x := by
  rw [h.read_other hjc (ne_length_of_read hj),hj]

theorem leafToRoot_child : leafToRoot (splitTree ps m tree p c np n) c =
    c :: tree.length :: leafToRoot (splitTree ps m tree p c np n) p := by
  rw [h.treeOK.leafToRoot_cons h.read_child rfl,h.treeOK.leafToRoot_cons h.read_new rfl]

/-- The paths of the split tree are the old ones up to the new node above the divided one. -/
theorem mem_leafToRoot_iff {x : TreeNode} (hj : tree.read j = some x) (i : NodeId) :
    i ∈ leafToRoot (splitTree ps m tree p c np n) j ↔
      originOf tree c i ∈ leafToRoot tree j := by
  refine h.ok.induction (P := fun j => i ∈ leafToRoot (splitTree ps m tree p c np n) j ↔
    originOf tree c i ∈ leafToRoot tree j) ?_ ?_ j x hj
  · rw [h.ok.leafToRoot_zero,h.treeOK.leafToRoot_zero]
    simp
  · intro j x q hj hq ih
    have hjk := ne_length_of_read hj
    rw [h.ok.leafToRoot_cons hj hq]
    by_cases hjc : j=c
    · subst hjc
      rw [h.read] at hj
      cases hj
      obtain rfl : q = p := Option.some.inj (hq.symm.trans h.parent)
      rw [h.leafToRoot_child,List.mem_cons,List.mem_cons,List.mem_cons,ih]
      unfold originOf
      by_cases hik : i=tree.length
      · simp [hik]
      · simp [hik]
    · rw [h.treeOK.leafToRoot_cons (h.read_old hj hjc) hq,List.mem_cons,List.mem_cons,ih]
      unfold originOf
      by_cases hik : i=tree.length
      · simp [hik,Ne.symm hjk,Ne.symm hjc]
      · simp [hik]

theorem pathTokens_eq {x : TreeNode} (hj : tree.read j = some x) :
    pathTokens (splitTree ps m tree p c np n) j = pathTokens tree j := by
  refine h.ok.induction (P := fun j => pathTokens (splitTree ps m tree p c np n) j =
    pathTokens tree j) ?_ ?_ j x hj
  · rw [h.ok.pathTokens_zero,h.treeOK.pathTokens_zero]
  · intro j x q hj hq ih
    rw [h.ok.pathTokens_cons hj hq]
    by_cases hjc : j=c
    · subst hjc
      rw [h.read] at hj
      cases hj
      obtain rfl : q = p := Option.some.inj (hq.symm.trans h.parent)
      rw [h.treeOK.pathTokens_cons h.read_child rfl,h.treeOK.pathTokens_cons h.read_new rfl,ih]
      simp [prefixNode,suffixNode]
    · rw [h.treeOK.pathTokens_cons (h.read_old hj hjc) hq,ih]

theorem pathTokens_new : pathTokens (splitTree ps m tree p c np n) tree.length =
    pathTokens tree p ++ n.tokens.take (m*ps) := by
  rw [h.treeOK.pathTokens_cons h.read_new rfl,h.pathTokens_eq h.readParent]
  rfl

theorem pathPages_eq (t : ResourceType) {x : TreeNode} (hj : tree.read j = some x) :
    pathPages t (splitTree ps m tree p c np n) j = pathPages t tree j := by
  refine h.ok.induction (P := fun j => pathPages t (splitTree ps m tree p c np n) j =
    pathPages t tree j) ?_ ?_ j x hj
  · rw [h.ok.pathPages_zero,h.treeOK.pathPages_zero]
  · intro j x q hj hq ih
    rw [h.ok.pathPages_cons t hj hq]
    by_cases hjc : j=c
    · subst hjc
      rw [h.read] at hj
      cases hj
      obtain rfl : q = p := Option.some.inj (hq.symm.trans h.parent)
      rw [h.treeOK.pathPages_cons t h.read_child rfl,h.treeOK.pathPages_cons t h.read_new rfl,ih]
      simp
    · rw [h.treeOK.pathPages_cons t (h.read_old hj hjc) hq,ih]

theorem hasResource_eq (t : ResourceType) (j : NodeId) :
    hasResource t (splitTree ps m tree p c np n) j = hasResource t tree (originOf tree c j) := by
  unfold hasResource originOf
  rw [h.read_split]
  by_cases hjc : j=c
  · subst hjc
    simp [Nat.ne_of_lt (Heap.lt_of_read h.read),h.read,suffixResource]
  · by_cases hjk : j=tree.length
    · simp [hjk,Nat.ne_of_gt (Heap.lt_of_read h.read),h.read,prefixResource]
    · simp [hjc,hjk]

theorem refCountOf_eq (t : ResourceType) (j : NodeId) :
    refCountOf t (splitTree ps m tree p c np n) j = refCountOf t tree (originOf tree c j) := by
  unfold refCountOf originOf
  rw [h.read_split]
  by_cases hjc : j=c
  · subst hjc
    simp [Nat.ne_of_lt (Heap.lt_of_read h.read),h.read,suffixResource,Function.comp_def]
  · by_cases hjk : j=tree.length
    · simp [hjk,Nat.ne_of_gt (Heap.lt_of_read h.read),h.read,prefixResource,Function.comp_def]
    · simp [hjc,hjk]

theorem nodePages_eq (t : ResourceType) (j : NodeId) :
    nodePages t (splitTree ps m tree p c np n) j =
      if j=c then (n.pages t).drop m
      else if j=tree.length then (n.pages t).take m else nodePages t tree j := by
  unfold nodePages
  rw [h.read_split]
  by_cases hjc : j=c
  · simp [hjc]
  · by_cases hjk : j=tree.length
    · simp [hjk,Nat.ne_of_gt (Heap.lt_of_read h.read)]
    · simp [hjc,hjk]

theorem nodeTokens_eq (j : NodeId) :
    nodeTokens (splitTree ps m tree p c np n) j =
      if j=c then n.tokens.drop (m*ps)
      else if j=tree.length then n.tokens.take (m*ps) else nodeTokens tree j := by
  unfold nodeTokens
  rw [h.read_split]
  by_cases hjc : j=c
  · simp [hjc,suffixNode]
  · by_cases hjk : j=tree.length
    · simp [hjk,Nat.ne_of_gt (Heap.lt_of_read h.read),prefixNode]
    · simp [hjc,hjk]

end Cut

/-- Two trees that differ by splits and by new leaves without pages; `o` names the node of the
old tree a node comes from. -/
structure Grows (o : NodeId → NodeId) (kv kv' : KVPrefixCache) : Prop where
  pageSize : kv'.pageSize = kv.pageSize
  disablePrefixCache : kv'.disablePrefixCache = kv.disablePrefixCache
  nextOpId : kv'.nextOpId = kv.nextOpId
  manager : ∀ u, kv'.manager u = kv.manager u
  length : kv.tree.length ≤ kv'.tree.length
  old : ∀ {i}, i < kv.tree.length → o i = i
  live : ∀ {i n}, kv.tree.read i = some n → ∃ n', kv'.tree.read i = some n' ∧
    n'.pagedCacheSnapshot = n.pagedCacheSnapshot
  back : ∀ {i n'}, i < kv.tree.length → kv'.tree.read i = some n' → ∃ n, kv.tree.read i = some n
  resident : ∀ t i, hasResource t kv'.tree i = hasResource t kv.tree (o i)
  count : ∀ t i, refCountOf t kv'.tree i = refCountOf t kv.tree (o i)
  pages : ∀ t {i x}, x ∈ nodePages t kv'.tree i → x ∈ nodePages t kv.tree (o i)
  path : ∀ {r n}, kv.tree.read r = some n → ∀ i,
    i ∈ leafToRoot kv'.tree r ↔ o i ∈ leafToRoot kv.tree r
  pathTokens : ∀ {i n}, kv.tree.read i = some n → pathTokens kv'.tree i = pathTokens kv.tree i
  pathPages : ∀ t {i n}, kv.tree.read i = some n → pathPages t kv'.tree i = pathPages t kv.tree i
  collect : ∀ t, (kv'.tree.collect (TreeNode.pages t) : Multiset PageId) =
    (kv.tree.collect (TreeNode.pages t) : Multiset PageId)
  unlocked : ∀ t, (kv'.tree.collect (TreeNode.unlockedPages t) : Multiset PageId) =
    (kv.tree.collect (TreeNode.unlockedPages t) : Multiset PageId)

namespace Grows

variable {o o' : NodeId → NodeId} {kv kv' kv'' : KVPrefixCache}
  {refs : ResourceType → Multiset NodeId}

theorem refl (kv : KVPrefixCache) : Grows id kv kv where
  pageSize := rfl
  disablePrefixCache := rfl
  nextOpId := rfl
  manager := fun _ => rfl
  length := Nat.le_refl _
  old := fun _ => rfl
  live := fun h => ⟨_,h,rfl⟩
  back := fun _ h => ⟨_,h⟩
  resident := fun _ _ => rfl
  count := fun _ _ => rfl
  pages := fun _ _ _ h => h
  path := fun _ _ => Iff.rfl
  pathTokens := fun _ => rfl
  pathPages := fun _ _ _ _ => rfl
  collect := fun _ => rfl
  unlocked := fun _ => rfl

theorem trans (h : Grows o kv kv') (h' : Grows o' kv' kv'') :
    Grows (fun i => o (o' i)) kv kv'' where
  pageSize := h'.pageSize.trans h.pageSize
  disablePrefixCache := h'.disablePrefixCache.trans h.disablePrefixCache
  nextOpId := h'.nextOpId.trans h.nextOpId
  manager := fun u => (h'.manager u).trans (h.manager u)
  length := h.length.trans h'.length
  old := by
    intro i hi
    rw [h'.old (Nat.lt_of_lt_of_le hi h.length),h.old hi]
  live := by
    intro i n hi
    obtain ⟨n',hn',hs⟩ := h.live hi
    obtain ⟨n'',hn'',hs'⟩ := h'.live hn'
    exact ⟨n'',hn'',hs'.trans hs⟩
  back := by
    intro i n hl hi
    obtain ⟨n',hn'⟩ := h'.back (Nat.lt_of_lt_of_le hl h.length) hi
    exact h.back hl hn'
  resident := fun t i => (h'.resident t i).trans (h.resident t (o' i))
  count := fun t i => (h'.count t i).trans (h.count t (o' i))
  pages := fun t _ _ hx => h.pages t (h'.pages t hx)
  path := by
    intro r n hr i
    obtain ⟨n',hn',_⟩ := h.live hr
    exact (h'.path hn' i).trans (h.path hr (o' i))
  pathTokens := by
    intro i n hi
    obtain ⟨n',hn',_⟩ := h.live hi
    exact (h'.pathTokens hn').trans (h.pathTokens hi)
  pathPages := by
    intro t i n hi
    obtain ⟨n',hn',_⟩ := h.live hi
    exact (h'.pathPages t hn').trans (h.pathPages t hi)
  collect := fun t => (h'.collect t).trans (h.collect t)
  unlocked := fun t => (h'.unlocked t).trans (h.unlocked t)

theorem of_quiet (h : Quiet kv kv') (hm : ∀ u, kv'.manager u = kv.manager u) :
    Grows id kv kv' where
  pageSize := h.pageSize
  disablePrefixCache := h.disablePrefixCache
  nextOpId := h.nextOpId
  manager := hm
  length := (h.agree .device).length.ge
  old := fun _ => rfl
  live := by
    intro i n hi
    obtain ⟨n',hn',hv⟩ := (h.agree .device).read hi
    exact ⟨n',hn',congrArg (fun v => v.1.2.2.2) hv⟩
  back := by
    intro i n' _ hi
    obtain ⟨n,hn,_⟩ := (h.agree .device).symm.read hi
    exact ⟨n,hn⟩
  resident := fun t i => (h.agree t).hasResource_eq i
  count := h.counts
  pages := by
    intro t i x hx
    rw [(h.agree t).nodePages_eq] at hx
    exact hx
  path := by
    intro r n _ i
    rw [(h.agree .device).leafToRoot_eq]
    rfl
  pathTokens := fun _ => (h.agree .device).pathTokens_eq _
  pathPages := fun t _ _ _ => (h.agree t).pathPages_eq _
  collect := fun t => by rw [(h.agree t).collect_eq]
  unlocked := fun t => by rw [h.collect_unlockedPages_eq]

theorem evolves (h : Grows o kv kv')
    (hp : ∀ t, ∀ i ∈ refs t, ∃ n, kv.tree.read i = some n) : Evolves refs kv kv' := by
  refine ⟨h.pageSize,h.disablePrefixCache,h.nextOpId,h.length,?_,?_,?_,?_,
    fun t => by rw [h.manager]⟩
  · exact h.back
  · exact fun hi _ => h.pathTokens hi
  · intro t i hi
    obtain ⟨n,hn⟩ := hp t i hi
    exact h.pathPages t hn
  · exact fun t => ⟨[],by rw [h.manager]; rfl,by simp⟩

theorem capacity_eq (h : Grows o kv kv') (t : ResourceType) : kv'.capacity t = kv.capacity t := by
  have hc := congrArg Multiset.card (h.unlocked t)
  simp only [Multiset.coe_card] at hc
  unfold capacity availablePages
  rw [h.manager,hc]

theorem availablePages_eq (h : Grows o kv kv') (t : ResourceType) :
    kv'.availablePages t = kv.availablePages t := by
  unfold availablePages
  rw [h.manager]

end Grows

section CutCache

variable {kv : KVPrefixCache} {refs : ResourceType → Multiset NodeId}
  {owned : ResourceType → Multiset PageId}

/-- The cache after a split. -/
def splitCache (kv : KVPrefixCache) (m : Nat) (p c : NodeId) (np n : TreeNode) : KVPrefixCache :=
  { kv with tree := splitTree kv.pageSize m kv.tree p c np n }

@[simp] theorem splitCache_manager (u : ResourceType) :
    (splitCache kv m p c np n).manager u = kv.manager u := by
  cases u <;> rfl

theorem unlockedPages_split (t : ResourceType) (k : NodeId) :
    (prefixNode ps m p np n).unlockedPages t ++ (suffixNode ps m k n).unlockedPages t =
      n.unlockedPages t := by
  unfold TreeNode.unlockedPages
  rw [resource_prefixNode,resource_suffixNode]
  cases n.resource t with
  | none => rfl
  | some r =>
    simp only [prefixResource,suffixResource,Option.map_some]
    by_cases hr : r.refCount = 0 <;> simp [hr]

/-- What the two halves hold together is what the node held. -/
theorem Cut.collect_eq (h : Cut ps m tree p c np n) (f : TreeNode → List PageId)
    (hf : f (prefixNode ps m p np n) ++ f (suffixNode ps m tree.length n) = f n) :
    ((splitTree ps m tree p c np n).collect f : Multiset PageId) =
      (tree.collect f : Multiset PageId) := by
  have hread : (tree.alloc (prefixNode ps m p np n)).read c = some n := by
    rw [Heap.read_alloc,if_neg (ne_length_of_read h.read),h.read]
  have hw := Heap.collect_write f _ (suffixNode ps m tree.length n) hread
  rw [Heap.collect_alloc] at hw
  refine add_right_cancel (b := (f n : Multiset PageId)) ?_
  unfold splitTree
  rw [hw,← hf]
  simp only [← Multiset.coe_add]
  abel

theorem Cut.grows (h : Cut kv.pageSize m kv.tree p c np n) :
    Grows (originOf kv.tree c) kv (splitCache kv m p c np n) where
  pageSize := rfl
  disablePrefixCache := rfl
  nextOpId := rfl
  manager := splitCache_manager
  length := by
    simp only [splitCache]
    rw [length_splitTree]
    omega
  old := by
    intro i hi
    exact if_neg (Nat.ne_of_lt hi)
  live := by
    intro i x hi
    by_cases hic : i=c
    · subst hic
      rw [h.read] at hi
      cases hi
      exact ⟨_,h.read_child,rfl⟩
    · exact ⟨x,h.read_old hi hic,rfl⟩
  back := by
    intro i x hl hi
    rcases h.read_inv hi with ⟨rfl,_⟩ | ⟨rfl,_⟩ | ⟨_,_,hix⟩
    · exact ⟨n,h.read⟩
    · exact absurd hl (Nat.lt_irrefl _)
    · exact ⟨x,hix⟩
  resident := h.hasResource_eq
  count := h.refCountOf_eq
  pages := by
    intro t i x hx
    have hn : nodePages t kv.tree c = n.pages t := by simp [nodePages,h.read]
    simp only [splitCache] at hx
    rw [h.nodePages_eq] at hx
    unfold originOf
    split at hx
    · next hic =>
      rw [hic,if_neg (ne_length_of_read h.read),hn]
      exact List.mem_of_mem_drop hx
    · split at hx
      · next hik =>
        rw [if_pos hik,hn]
        exact List.mem_of_mem_take hx
      · next hik =>
        rw [if_neg hik]
        exact hx
  path := fun hr i => h.mem_leafToRoot_iff hr i
  pathTokens := fun hi => h.pathTokens_eq hi
  pathPages := fun t _ _ hi => h.pathPages_eq t hi
  collect := fun t => h.collect_eq _ (by simp)
  unlocked := fun t => h.collect_eq _ (unlockedPages_split t _)

/-- Resources have as many pages as their node has whole pages of tokens. -/
def Sized (ps : Nat) (tree : Heap TreeNode) : Prop :=
  ∀ t i, hasResource t tree i = true →
    i ≠ 0 ∧ (nodePages t tree i).length*ps = (nodeTokens tree i).length

theorem KVPrefixCache.Inv.sized (hinv : Inv kv refs owned) : Sized kv.pageSize kv.tree :=
  fun t _ hi => (hinv.tier t).size hi

theorem Cut.pages_length (h : Cut ps m tree p c np n) (hs : Sized ps tree)
    (hr : (n.resource t).isSome = true) : (n.pages t).length*ps = n.tokens.length := by
  have hres : hasResource t tree c = true := by simpa [hasResource,h.read] using hr
  have := (hs t c hres).2
  simpa [nodePages,nodeTokens,h.read] using this

theorem Cut.lt_pages (h : Cut ps m tree p c np n) (hs : Sized ps tree)
    (hr : (n.resource t).isSome = true) : m < (n.pages t).length := by
  have hl := h.pages_length hs hr
  have hlt := h.lt
  rw [← hl] at hlt
  exact Nat.lt_of_mul_lt_mul_right hlt

theorem Cut.sized (h : Cut ps m tree p c np n) (hs : Sized ps tree) :
    Sized ps (splitTree ps m tree p c np n) := by
  intro t i hi
  rw [h.hasResource_eq] at hi
  have hc0 := h.ok.ne_zero h.read h.parent
  have hlt := h.lt
  rw [h.nodePages_eq,h.nodeTokens_eq]
  unfold originOf at hi
  by_cases hic : i=c
  · subst hic
    rw [if_neg (ne_length_of_read h.read)] at hi
    have hl := h.pages_length (t := t) hs (by simpa [hasResource,h.read] using hi)
    refine ⟨hc0,?_⟩
    rw [if_pos rfl,if_pos rfl,List.length_drop,List.length_drop,Nat.sub_mul,hl]
  · by_cases hik : i=tree.length
    · subst hik
      rw [if_pos rfl] at hi
      have hr : (n.resource t).isSome = true := by simpa [hasResource,h.read] using hi
      have hl := h.lt_pages hs hr
      refine ⟨?_,?_⟩
      · have := Heap.lt_of_read h.read
        exact Nat.ne_of_gt (Nat.lt_of_le_of_lt (Nat.zero_le _) this)
      · rw [if_neg hic,if_pos rfl,if_neg hic,if_pos rfl,List.length_take,List.length_take,
          Nat.min_eq_left hl.le,Nat.min_eq_left hlt.le]
    · rw [if_neg hik] at hi
      rw [if_neg hic,if_neg hik,if_neg hic,if_neg hik]
      exact hs t i hi

end CutCache

theorem Cut.nodePages_nonempty (h : Cut ps m tree p c np n) (hs : Sized ps tree) (t : ResourceType) :
    ((n.pages t).drop m ≠ [] ↔ n.pages t ≠ []) ∧ ((n.pages t).take m ≠ [] ↔ n.pages t ≠ []) := by
  have hm := h.pos
  cases hr : n.resource t with
  | none =>
    have hnil : n.pages t = [] := by simp [TreeNode.pages,hr]
    simp [hnil]
  | some r =>
    have hl := h.lt_pages (t := t) hs (by simp [hr])
    have hne : n.pages t ≠ [] := List.ne_nil_of_length_pos (by omega)
    refine ⟨iff_of_true ?_ hne,iff_of_true ?_ hne⟩
    · exact List.ne_nil_of_length_pos (by rw [List.length_drop]; omega)
    · exact List.ne_nil_of_length_pos (by rw [List.length_take]; omega)

theorem hasChildWithPages_iff : hasChildWithPages t tree i = true ↔
    ∃ j x, tree.read j = some x ∧ x.parent = some i ∧ x.pages t ≠ [] := by
  unfold hasChildWithPages
  rw [List.any_eq_true]
  constructor
  · rintro ⟨j,hj,hp⟩
    obtain ⟨x,hx,hxi⟩ := mem_children.mp hj
    exact ⟨j,x,hx,hxi,by simpa [nodePages,hx] using hp⟩
  · rintro ⟨j,x,hx,hxi,hp⟩
    exact ⟨j,mem_children.mpr ⟨x,hx,hxi⟩,by simpa [nodePages,hx] using hp⟩

/-- An old node has a child with pages exactly if it had one. -/
theorem Cut.hasChildWithPages_eq (h : Cut ps m tree p c np n) (hs : Sized ps tree)
    (hk : i ≠ tree.length) :
    hasChildWithPages t (splitTree ps m tree p c np n) i = hasChildWithPages t tree i := by
  obtain ⟨hdrop,htake⟩ := h.nodePages_nonempty hs t
  rw [Bool.eq_iff_iff,hasChildWithPages_iff,hasChildWithPages_iff]
  constructor
  · rintro ⟨j,x,hj,hx,hp⟩
    rcases h.read_inv hj with ⟨rfl,rfl⟩ | ⟨rfl,rfl⟩ | ⟨_,_,hjx⟩
    · exact absurd (Option.some.inj hx).symm hk
    · rw [pages_prefixNode] at hp
      exact ⟨c,n,h.read,h.parent.trans hx,htake.mp hp⟩
    · exact ⟨j,x,hjx,hx,hp⟩
  · rintro ⟨j,x,hj,hx,hp⟩
    by_cases hjc : j=c
    · subst hjc
      rw [h.read] at hj
      cases hj
      refine ⟨tree.length,_,h.read_new,h.parent.symm.trans hx,?_⟩
      rw [pages_prefixNode]
      exact htake.mpr hp
    · exact ⟨j,x,h.read_old hj hjc,hx,hp⟩

theorem Cut.isLeaf_eq (h : Cut ps m tree p c np n) (hs : Sized ps tree) (hk : i ≠ tree.length) :
    isLeaf t (splitTree ps m tree p c np n) i = isLeaf t tree i := by
  obtain ⟨hdrop,_⟩ := h.nodePages_nonempty hs t
  have hempty : (nodePages t (splitTree ps m tree p c np n) i).isEmpty =
      (nodePages t tree i).isEmpty := by
    rw [h.nodePages_eq]
    by_cases hic : i=c
    · subst hic
      have hn : nodePages t tree i = n.pages t := by simp [nodePages,h.read]
      rw [if_pos rfl,hn,Bool.eq_iff_iff,List.isEmpty_iff,List.isEmpty_iff]
      exact not_iff_not.mp hdrop
    · rw [if_neg hic,if_neg hk]
  have hpar : (((splitTree ps m tree p c np n).read i).bind TreeNode.parent).isSome =
      ((tree.read i).bind TreeNode.parent).isSome := by
    by_cases hic : i=c
    · subst hic
      rw [h.read_child,h.read]
      simp [suffixNode,h.parent]
    · rw [h.read_other hic hk]
  unfold isLeaf
  rw [h.hasResource_eq,h.hasChildWithPages_eq hs hk,hempty,hpar]
  simp only [originOf,if_neg hk]

/-- The new node is never a leaf: the divided one is below it. -/
theorem Cut.isLeaf_new (h : Cut ps m tree p c np n) (hs : Sized ps tree) :
    isLeaf t (splitTree ps m tree p c np n) tree.length = false := by
  obtain ⟨hdrop,htake⟩ := h.nodePages_nonempty hs t
  have hpages : nodePages t (splitTree ps m tree p c np n) tree.length = (n.pages t).take m := by
    simp [nodePages,h.read_new]
  by_cases hp : n.pages t = []
  · simp [isLeaf,hpages,hp]
  · have hc : hasChildWithPages t (splitTree ps m tree p c np n) tree.length = true := by
      refine hasChildWithPages_iff.mpr ⟨c,_,h.read_child,rfl,?_⟩
      rw [pages_suffixNode]
      exact hdrop.mpr hp
    simp [isLeaf,hc]

section CutInvariant

variable {kv : KVPrefixCache} {refs : ResourceType → Multiset NodeId}
  {owned : ResourceType → Multiset PageId}

theorem Cut.tierOK (h : Cut ps m tree p c np n) (hs : Sized ps tree) {rs : Multiset NodeId}
    (ht : TierOK ps t tree rs) : TierOK ps t (splitTree ps m tree p c np n) rs := by
  refine ⟨fun {i} hi => h.sized hs t i hi,fun {i} hi => ?_,fun {j} hj => ?_⟩
  · rw [h.hasResource_eq] at hi
    rw [h.refCountOf_eq,ht.count hi]
    unfold refsBelow
    refine Multiset.countP_congr rfl fun k hk => ?_
    obtain ⟨⟨x,hx⟩,_⟩ := ht.pinned hk
    rw [h.mem_leafToRoot_iff hx]
  · obtain ⟨⟨x,hx⟩,hpath⟩ := ht.pinned hj
    refine ⟨?_,fun i hi => ?_⟩
    · by_cases hjc : j=c
      · exact ⟨_,by rw [hjc]; exact h.read_child⟩
      · exact ⟨x,h.read_old hx hjc⟩
    · rw [h.mem_leafToRoot_iff hx] at hi
      rw [h.hasResource_eq]
      exact hpath _ hi

theorem Cut.closed (h : Cut ps m tree p c np n) (hc : Closed t tree) :
    Closed t (splitTree ps m tree p c np n) := by
  intro i x q hi hq hq0 hr
  rw [h.hasResource_eq] at hr ⊢
  unfold originOf at *
  rcases h.read_inv hi with ⟨rfl,rfl⟩ | ⟨rfl,rfl⟩ | ⟨hic,hik,hix⟩
  · obtain rfl : tree.length = q := Option.some.inj hq
    rw [if_pos rfl]
    rwa [if_neg (ne_length_of_read h.read)] at hr
  · obtain rfl : p = q := Option.some.inj hq
    rw [if_neg (ne_length_of_read h.readParent)]
    rw [if_pos rfl] at hr
    exact hc c n p h.read h.parent hq0 hr
  · obtain ⟨nq,hnq,_⟩ := h.ok.parent hix hq
    rw [if_neg (ne_length_of_read hnq)]
    rw [if_neg hik] at hr
    exact hc i x q hix hq hq0 hr

theorem Cut.plain (h : Cut ps m tree p c np n)
    (hp : ∀ {i x}, tree.read i = some x → x.pagedCacheSnapshot = none) {i : NodeId} {x : TreeNode}
    (hi : (splitTree ps m tree p c np n).read i = some x) : x.pagedCacheSnapshot = none := by
  rcases h.read_inv hi with ⟨_,rfl⟩ | ⟨_,rfl⟩ | ⟨_,_,hix⟩
  · have hn : n.pagedCacheSnapshot = none := hp h.read
    exact hn
  · rfl
  · exact hp hix

/-- A split leaves the entries alone. -/
theorem Cut.leaves (h : Cut kv.pageSize m kv.tree p c np n) (hs : Sized kv.pageSize kv.tree)
    (hl : Leaves t kv []) : Leaves t (splitCache kv m p c np n) [] := by
  refine ⟨by simpa using hl.nodup,by simpa using hl.entries,by simpa using hl.root,?_⟩
  intro i _
  rw [splitCache_manager,hl.leaf i (by simp)]
  simp only [splitCache]
  by_cases hik : i=kv.tree.length
  · subst hik
    rw [h.isLeaf_new hs]
    simp [isLeaf,hasResource,Heap.read_length]
  · rw [h.isLeaf_eq hs hik]

theorem Cut.kvInv (h : Cut kv.pageSize m kv.tree p c np n) (hinv : KVInv kv refs owned) :
    KVInv (splitCache kv m p c np n) refs owned := by
  have hs := hinv.inv.sized
  refine ⟨⟨h.treeOK,h.plain hinv.inv.plain,fun t => h.tierOK hs (hinv.inv.tier t),fun t => ?_⟩,
    fun t => h.leaves hs (hinv.leaves t),fun t => h.closed (hinv.closed t)⟩
  have hp := hinv.inv.pages t
  have hc := h.grows.collect t
  unfold PagesOK collectAllPages at *
  rw [splitCache_manager,hc]
  exact hp

theorem splitResource_runs {r : Option NodeResource} {β : Type}
    {f : Option NodeResource × Option NodeResource → KV β} {Q : β → KVPrefixCache → Prop}
    {E : Fault → KVPrefixCache → Prop} (hr : ∀ x, r = some x → m ≤ x.pages.length)
    (h : Runs (f (prefixResource m r,suffixResource m r)) kv Q E) :
    Runs (splitResource r m >>= f) kv Q E := by
  cases r with
  | none => exact h
  | some x =>
    have hx := hr x rfl
    unfold splitResource
    dsimp only
    rw [bind_assoc]
    apply takeFirst_bind (by omega) (by omega)
    exact h

/-- `splitChild` does what `splitTree` says. -/
theorem splitChild_returns (h : Cut kv.pageSize m kv.tree p c np n) (hs : Sized kv.pageSize kv.tree)
    (hsnap : n.pagedCacheSnapshot = none) :
    Returns (splitChild p c m) kv
      (fun k kv' => k = kv.tree.length ∧ kv' = splitCache kv m p c np n) := by
  have hpages : ∀ t x, n.resource t = some x → m ≤ x.pages.length := by
    intro t x hx
    have := h.lt_pages (t := t) hs (by simp [hx])
    simp only [TreeNode.pages,hx,Option.map_some,Option.getD_some] at this
    omega
  unfold Returns splitChild
  rw [runs_bind,runs_get]
  apply getNode_bind h.readParent
  apply getNode_bind h.read
  apply splitResource_runs (hpages .device)
  apply splitResource_runs (hpages .host)
  dsimp only
  rw [if_neg (by simp [TreeNode.hasPagedCacheSnapshot,hsnap])]
  exact ⟨rfl,rfl⟩

end CutInvariant

end FluxServe
