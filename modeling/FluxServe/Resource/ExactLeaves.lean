import FluxServe.Resource.CacheRule
import FluxServe.Resource.NewLeafProof
import FluxServe.Resource.PruneProof

namespace FluxServe

open KVPrefixCache

variable {α : Type} {kv kv' : KVPrefixCache} {t u : ResourceType} {i j p : NodeId}
  {n np : TreeNode} {x y : List NodeId} {pages : List PageId} {tree : Heap TreeNode}

/-- Between operations the leaf sets of both tiers are exact, whoever holds references. -/
structure ExactLeaves (kv : KVPrefixCache) : Prop where
  tree : TreeOK kv.pageSize kv.tree
  plain : ∀ {i n}, kv.tree.read i = some n → n.pagedCacheSnapshot = none
  sized : Sized kv.pageSize kv.tree
  leaves : ∀ u, Leaves u kv []

/-- Within an operation the entries of tier `t` are exact up to the nodes of `x`. -/
structure Unsettled (t : ResourceType) (x : List NodeId) (kv : KVPrefixCache) : Prop where
  tree : TreeOK kv.pageSize kv.tree
  plain : ∀ {i n}, kv.tree.read i = some n → n.pagedCacheSnapshot = none
  sized : Sized kv.pageSize kv.tree
  leaves : Leaves t kv x
  others : ∀ u, u ≠ t → Leaves u kv []

theorem ExactLeaves.unsettled (h : ExactLeaves kv) (t : ResourceType) : Unsettled t [] kv :=
  ⟨h.tree,h.plain,h.sized,h.leaves t,fun u _ => h.leaves u⟩

theorem KVPrefixCache.KVInv.exactLeaves {refs : ResourceType → Multiset NodeId}
    {owned : ResourceType → Multiset PageId} (h : KVInv kv refs owned) : ExactLeaves kv :=
  ⟨h.inv.tree,h.inv.plain,h.inv.sized,h.leaves⟩

namespace Unsettled

theorem exact (h : Unsettled t [] kv) : ExactLeaves kv := by
  refine ⟨h.tree,h.plain,h.sized,fun u => ?_⟩
  by_cases hu : u=t
  · rw [hu]
    exact h.leaves
  · exact h.others u hu

theorem calm (h : Unsettled t x kv) (hc : Calm kv kv') (hl : Leaves t kv' y)
    (ho : ∀ u, u ≠ t → Leaves u kv' []) : Unsettled t y kv' := by
  refine ⟨?_,?_,?_,hl,ho⟩
  · rw [hc.pageSize]
    exact (hc.agree .device).treeOK h.tree
  · intro i n' hi
    obtain ⟨n,hn,hv⟩ := (hc.agree .device).symm.read hi
    exact (congrArg (fun v => v.1.2.2.2) hv).symm.trans (h.plain hn)
  · rw [hc.pageSize]
    exact sized_of_agree hc.agree h.sized

theorem leafStep (h : Unsettled t x kv) (hs : LeafStep t kv kv') (hl : Leaves t kv' y) :
    Unsettled t y kv' :=
  h.calm hs.quiet.toCalm hl fun _ hu => hs.leaves hu (h.others _ hu)

/-- What neither the tree nor the entries show. -/
theorem unseen (h : Unsettled t x kv) (hps : kv'.pageSize = kv.pageSize) (ht : kv'.tree = kv.tree)
    (hl : ∀ u, (kv'.manager u).lruLeaves = (kv.manager u).lruLeaves)
    (hn : ∀ u, (kv'.manager u).nodeTime = (kv.manager u).nodeTime) : Unsettled t x kv' := by
  have ha : ∀ u, Agree u kv.tree kv'.tree := by
    intro u
    rw [ht]
    exact Agree.refl u _
  refine ⟨?_,?_,?_,h.leaves.congr (ha t) (hl t) (hn t),
    fun u hu => (h.others u hu).congr (ha u) (hl u) (hn u)⟩
  · rw [hps,ht]
    exact h.tree
  · rw [ht]
    exact h.plain
  · rw [hps,ht]
    exact h.sized

theorem setAllocator (h : Unsettled t x kv) (u : ResourceType) (a : PageAllocator) :
    Unsettled t x (kv.setManager u { kv.manager u with allocator := a }) := by
  have hs : AllocStep u kv (kv.setManager u { kv.manager u with allocator := a }) :=
    allocStep_setAllocator a
  exact h.unseen (by simp) hs.tree hs.lruLeaves hs.nodeTime

/-- A node's resource is exchanged: its entry and its parent's are to be settled. -/
theorem withResource {r' : Option NodeResource} (h : Unsettled t x kv)
    (hi : kv.tree.read i = some n) (hp : n.parent = some p)
    (hr : ∀ r, r' = some r → r.pages.length*kv.pageSize = n.tokens.length) :
    Unsettled t (i::p::x) (withResource kv t i n r') := by
  have ha := agree_setResource r' hi (ResourceType.other_ne t)
  refine ⟨ha.treeOK h.tree,?_,?_,?_,fun u hu => Leaves.withResource_ne hu (h.others u hu) hi⟩
  · intro j m hj
    obtain ⟨m',hm',hv⟩ := ha.symm.read hj
    exact (congrArg (fun v => v.1.2.2.2) hv).symm.trans (h.plain hm')
  · intro u j hj
    by_cases hu : u=t
    · subst hu
      simp only [FluxServe.withResource] at hj ⊢
      rw [hasResource_setResource hi] at hj
      rw [nodePages_setResource hi,ha.nodeTokens_eq]
      by_cases hji : j=i
      · subst hji
        rw [if_pos rfl] at hj ⊢
        obtain ⟨r,hr'⟩ := Option.isSome_iff_exists.mp hj
        refine ⟨h.tree.ne_zero hi hp,?_⟩
        simpa [hr',nodeTokens,hi] using hr r hr'
      · rw [if_neg hji] at hj ⊢
        exact h.sized u j hj
    · have hau := agree_setResource r' hi hu
      simp only [FluxServe.withResource] at hj ⊢
      rw [hau.hasResource_eq] at hj
      rw [hau.nodePages_eq,hau.nodeTokens_eq]
      exact h.sized u j hj
  · have hl := Leaves.withResource r' h.leaves hi
    rw [hp] at hl
    exact hl

end Unsettled

namespace ExactLeaves

/-- A change of counts and times alone. -/
theorem calm (h : ExactLeaves kv) (hc : Calm kv kv') (hm : ∀ u, kv'.manager u = kv.manager u) :
    ExactLeaves kv' := by
  have hl : ∀ u, Leaves u kv' [] := fun u =>
    (h.leaves u).congr (hc.agree u) (by rw [hm]) (by rw [hm])
  exact ((h.unsettled .device).calm hc (hl .device) fun u _ => hl u).exact

theorem unseen (h : ExactLeaves kv) (hps : kv'.pageSize = kv.pageSize) (ht : kv'.tree = kv.tree)
    (hl : ∀ u, (kv'.manager u).lruLeaves = (kv.manager u).lruLeaves)
    (hn : ∀ u, (kv'.manager u).nodeTime = (kv.manager u).nodeTime) : ExactLeaves kv' :=
  ((h.unsettled .device).unseen hps ht hl hn).exact

theorem walkable : Walkable ExactLeaves where
  split cut _ h := ⟨cut.treeOK,cut.plain h.plain,cut.sized h.sized,
    fun u => cut.leaves h.sized (h.leaves u)⟩
  quiet hq hm h := h.calm hq.toCalm hm

theorem grow {tokens : List Token} (h : ExactLeaves kv)
    (hv : Vacant kv.pageSize kv.tree p np tokens) (now : Timestamp) :
    ExactLeaves (growCache kv p np tokens now) :=
  ⟨hv.treeOK now,growCache_plain now h.plain,sized_alloc now h.sized,
    fun u => growCache_leaves now (h.leaves u)⟩

theorem withoutNode (h : ExactLeaves kv) (hb : Bare kv.tree i n p) :
    ExactLeaves (withoutNode kv i) := by
  refine ⟨hb.treeOK h.tree,?_,?_,fun u => hb.leaves (h.leaves u)⟩
  · exact fun hj => h.plain (Heap.of_read_release hj).1
  · intro u j hj
    simp only [FluxServe.withoutNode] at hj ⊢
    rw [hb.hasResource_eq] at hj
    have hji : j ≠ i := by
      rintro rfl
      simp [hasResource,hb.read,hb.resource] at hj
    rw [hb.nodePages_eq,nodeTokens_release hji]
    exact h.sized u j hj

end ExactLeaves

/-- `x` keeps the leaf sets exact, whether it returns or faults. -/
abbrev KeepsLeaves (x : KV α) : Prop :=
  Follows (fun kv kv' => ExactLeaves kv → ExactLeaves kv') x

theorem leaves_rule : ReadRule fun kv kv' => ExactLeaves kv → ExactLeaves kv' where
  refl _ h := h
  trans h h' hkv := h' (h hkv)

theorem keepsLeaves_of_runs {x : KV α}
    (h : ∀ kv, ExactLeaves kv → Runs x kv (fun _ => ExactLeaves) (fun _ => ExactLeaves)) :
    KeepsLeaves x := by
  intro kv
  by_cases hkv : ExactLeaves kv
  · exact (h kv hkv).imp (fun _ _ hx _ => hx) (fun _ _ hx _ => hx)
  · exact (runs_trivial x kv).imp (fun _ _ _ hx => absurd hx hkv) (fun _ _ _ hx => absurd hx hkv)

theorem keepsLeaves_apply {x : KV α} (hx : KeepsLeaves x) (h : ExactLeaves kv) :
    Runs x kv (fun _ => ExactLeaves) (fun _ => ExactLeaves) :=
  (hx kv).imp (fun _ _ hx => hx h) (fun _ _ hx => hx h)

section Cases

variable {Q : α → KVPrefixCache → Prop} {E : Fault → KVPrefixCache → Prop}

/-- Reading a node changes nothing, whether the node is there or not. -/
theorem getNode_runs {f : TreeNode → KV α} (fault : ∀ e, E e kv)
    (live : ∀ n, kv.tree.read i = some n → Runs (f n) kv Q E) : Runs (getNode i >>= f) kv Q E := by
  cases hi : kv.tree.read i with
  | some n => exact getNode_bind hi (live n hi)
  | none =>
    unfold getNode
    rw [bind_assoc,runs_bind,runs_get]
    simp only [hi]
    exact fault _

theorem getResource_runs {f : NodeResource → KV α} (fault : ∀ e, E e kv)
    (live : ∀ n r, kv.tree.read i = some n → n.resource t = some r → Runs (f r) kv Q E) :
    Runs (getResource t i >>= f) kv Q E := by
  unfold getResource
  rw [bind_assoc]
  apply getNode_runs fault
  intro n hi
  cases hr : n.resource t with
  | none => exact fault _
  | some r => exact live n r hi hr

theorem takeFirst_runs {f : List PageId × List PageId → KV α} {k : Int} (fault : ∀ e, E e kv)
    (taken : ∀ first rest, (first.length : Int) = k → Runs (f (first,rest)) kv Q E) :
    Runs (takeFirst pages k >>= f) kv Q E := by
  unfold takeFirst
  split
  · exact fault _
  · apply taken
    rw [List.length_take]
    omega

theorem takeLast_runs {f : List PageId × List PageId → KV α} {k : Int} (fault : ∀ e, E e kv)
    (taken : ∀ last rest, (last.length : Int) = k → Runs (f (last,rest)) kv Q E) :
    Runs (takeLast pages k >>= f) kv Q E := by
  unfold takeLast
  split
  · exact fault _
  · apply taken
    rw [List.length_drop]
    omega

end Cases

section Settle

theorem Unsettled.deallocatePages (h : Unsettled t x kv) (u : ResourceType)
    (pages : List PageId) : Returns (FluxServe.deallocatePages u pages) kv
      (fun _ kv' => Unsettled t x kv' ∧ kv'.tree = kv.tree) := by
  change Unsettled t x (kv.setManager u _) ∧ (kv.setManager u _).tree = kv.tree
  exact ⟨h.setAllocator u _,setManager_tree _ _ _⟩

theorem Unsettled.updateLeaf (h : Unsettled t x kv) (hi : kv.tree.read i = some n)
    (hx : x ⊆ i::y) : Returns (FluxServe.updateLeaf t i) kv (fun _ kv' =>
      Unsettled t y kv' ∧ LeafStep t kv kv' ∧ KeysExcept t i kv kv') := by
  refine (updateLeaf_returns h.tree hi).runs ?_
  rintro _ kv' ⟨hs,hk,hl⟩
  exact ⟨h.leafStep hs (hl y (h.leaves.mono hx)),hs,hk⟩

/-- `updateLeaves` settles a node and its parent. -/
theorem Unsettled.updateLeaves (h : Unsettled t x kv) (hi : kv.tree.read i = some n)
    (hx : x ⊆ i :: n.parent.toList) : Returns (FluxServe.updateLeaves t i) kv (fun _ kv' =>
      ExactLeaves kv' ∧ LeafStep t kv kv') := by
  refine (updateLeaves_returns h.tree hi).runs ?_
  rintro _ kv' ⟨hs,hl⟩
  refine ⟨(h.leafStep hs (hl [] (h.leaves.mono ?_))).exact,hs⟩
  rwa [List.append_nil]

theorem keepsLeaves_updateLeaf (i : NodeId) : KeepsLeaves (updateLeaf t i) := by
  apply keepsLeaves_of_runs
  intro kv h
  cases hi : kv.tree.read i with
  | some n =>
    refine ((h.unsettled t).updateLeaf (y := []) hi (List.nil_subset _)).runs ?_
    exact fun _ _ hs => hs.1.exact
  | none => exact getNode_runs (fun _ => h) fun n hn => by rw [hi] at hn; cases hn

theorem keepsLeaves_updateLeaves (i : NodeId) : KeepsLeaves (updateLeaves t i) := by
  refine leaves_rule.bind (keepsLeaves_updateLeaf i) fun _ => ?_
  refine leaves_rule.bind (leaves_rule.follows_getNode i) fun n => ?_
  split
  · exact keepsLeaves_updateLeaf _
  · exact leaves_rule.pure _

theorem keepsLeaves_deallocatePages (pages : List PageId) :
    KeepsLeaves (deallocatePages t pages) := by
  apply keepsLeaves_of_runs
  intro kv h
  exact ((h.unsettled t).deallocatePages t pages).runs fun _ _ hs => hs.1.exact

theorem keepsLeaves_allocatePages (num : Int) : KeepsLeaves (allocatePages t num) := by
  apply keepsLeaves_of_runs
  intro kv h
  exact runs_allocatePages rfl ((h.unsettled t).setAllocator t _).exact

theorem keepsLeaves_allocateCacheOpId : KeepsLeaves allocateCacheOpId := by
  intro kv h
  exact h.unseen rfl rfl (fun u => by cases u <;> rfl) fun u => by cases u <;> rfl

theorem keepsLeaves_readClock : KeepsLeaves readClock := by
  intro kv h
  exact h.unseen rfl rfl (fun u => by cases u <;> rfl) fun u => by cases u <;> rfl

end Settle

section References

/-- A ref count is no part of what makes a node a leaf. -/
theorem keepsLeaves_setRefCount {r : NodeResource} (h : ExactLeaves kv)
    (hi : kv.tree.read i = some n) (hr : n.resource t = some r) (c : Nat) :
    ExactLeaves { kv with
      tree := kv.tree.write i (n.setResource t (some { r with refCount := c })) } :=
  h.calm (calm_setRefCount hi hr c) fun u => by cases u <;> rfl

theorem keepsLeaves_lock (i : NodeId) : KeepsLeaves (lock t i) := by
  refine leaves_rule.bind (leaves_rule.follows_getLeafToRoot i) fun path =>
    leaves_rule.forM (fun j => ?_) path
  apply keepsLeaves_of_runs
  intro kv h
  apply getResource_runs fun _ => h
  intro n r hj hr
  exact setResource_runs hj (keepsLeaves_setRefCount h hj hr _)

theorem keepsLeaves_unlockNode (j : NodeId) : KeepsLeaves (unlockNode t j) := by
  apply keepsLeaves_of_runs
  intro kv h
  unfold unlockNode
  apply getNode_runs fun _ => h
  intro n hj
  cases hr : n.resource t with
  | none => exact h
  | some r =>
    dsimp only
    split
    · rw [runs_bind]
      apply setResource_runs hj
      have h' := keepsLeaves_setRefCount h hj hr (r.refCount-1)
      split
      · exact keepsLeaves_apply (keepsLeaves_updateLeaf j) h'
      · exact h'
    · exact h

theorem keepsLeaves_unlock (i : NodeId) : KeepsLeaves (unlock t i) :=
  leaves_rule.bind (leaves_rule.follows_getLeafToRoot i) fun path =>
    leaves_rule.forM keepsLeaves_unlockNode path

end References

end FluxServe
