import FluxServe.Framework.Keeps
import FluxServe.Resource.InsertProof

namespace FluxServe

open KVPrefixCache

variable {ps : Nat} {t u : ResourceType} {i j c p : NodeId} {n np : TreeNode}
  {kv kv' kv'' kv₀ : KVPrefixCache} {w w' : WalkResult} {T : List Token}

/-- Every node is still there, with its tokens, its snapshot, its subtree, its ref counts and, where
its path is resident, its pages. A split may have put new nodes above it. -/
structure Intact (kv kv' : KVPrefixCache) : Prop where
  tree : TreeOK kv'.pageSize kv'.tree
  node : ∀ {i n}, kv.tree.read i = some n → ∃ n', kv'.tree.read i = some n' ∧
    n'.pagedCacheSnapshot = n.pagedCacheSnapshot
  tokens : ∀ {i n}, kv.tree.read i = some n → pathTokens kv'.tree i = pathTokens kv.tree i
  subtree : ∀ {i j n m}, kv.tree.read i = some n → kv.tree.read j = some m →
    (i ∈ leafToRoot kv'.tree j ↔ i ∈ leafToRoot kv.tree j)
  resident : ∀ t i, hasResource t kv.tree i = true → hasResource t kv'.tree i = true
  count : ∀ t i, hasResource t kv.tree i = true →
    refCountOf t kv'.tree i = refCountOf t kv.tree i
  pages : ∀ t {i n}, kv.tree.read i = some n →
    (∀ j ∈ leafToRoot kv.tree i, hasResource t kv.tree j = true) →
    (∀ j ∈ leafToRoot kv'.tree i, hasResource t kv'.tree j = true) ∧
      pathPages t kv'.tree i = pathPages t kv.tree i

theorem lt_of_hasResource {tree : Heap TreeNode} (h : hasResource t tree i = true) :
    i < tree.length := by
  obtain ⟨n,_,hn,_⟩ := exists_resource_of_hasResource h
  exact Heap.lt_of_read hn

theorem Intact.of_grows {o : NodeId → NodeId} (h : Grows o kv kv')
    (hT : TreeOK kv'.pageSize kv'.tree) : Intact kv kv' := by
  refine ⟨hT,h.live,h.pathTokens,fun hi hj => ?_,fun t i hi => ?_,fun t i hi => ?_,
    fun t i n hi hres => ⟨fun j hj => ?_,h.pathPages t hi⟩⟩
  · rw [h.path hj,h.old (Heap.lt_of_read hi)]
  · rw [h.resident,h.old (lt_of_hasResource hi)]
    exact hi
  · rw [h.count,h.old (lt_of_hasResource hi)]
  · rw [h.path hi] at hj
    rw [h.resident]
    exact hres _ hj

/-- Resources are added on tier `t`; what was there stays. -/
structure Fills (t : ResourceType) (kv kv' : KVPrefixCache) : Prop where
  pageSize : kv'.pageSize = kv.pageSize
  agree : Agree t.other kv.tree kv'.tree
  otherCount : ∀ i, refCountOf t.other kv'.tree i = refCountOf t.other kv.tree i
  keep : ∀ i, hasResource t kv.tree i = true → hasResource t kv'.tree i = true ∧
    nodePages t kv'.tree i = nodePages t kv.tree i ∧
    refCountOf t kv'.tree i = refCountOf t kv.tree i

namespace Fills

theorem of_quiet (h : Quiet kv kv') : Fills t kv kv' :=
  ⟨h.pageSize,h.agree _,h.counts _,fun i hi => ⟨by rw [(h.agree t).hasResource_eq]; exact hi,
    (h.agree t).nodePages_eq i,h.counts t i⟩⟩

theorem refl (t : ResourceType) (kv : KVPrefixCache) : Fills t kv kv := of_quiet (Quiet.refl kv)

theorem trans (h : Fills t kv kv') (h' : Fills t kv' kv'') : Fills t kv kv'' := by
  refine ⟨h'.pageSize.trans h.pageSize,h.agree.trans h'.agree,
    fun i => (h'.otherCount i).trans (h.otherCount i),fun i hi => ?_⟩
  obtain ⟨h1,h2,h3⟩ := h.keep i hi
  obtain ⟨h4,h5,h6⟩ := h'.keep i h1
  exact ⟨h4,h5.trans h2,h6.trans h3⟩

end Fills

theorem ResourceType.eq_or_eq_other (t u : ResourceType) : u = t ∨ u = t.other := by
  cases t <;> cases u <;> simp [ResourceType.other]

theorem Intact.fills (h : Intact kv kv') (hf : Fills t kv' kv'') : Intact kv kv'' := by
  refine ⟨?_,fun hi => ?_,fun hi => ?_,fun hi hj => ?_,fun u i hi => ?_,fun u i hi => ?_,
    fun u i n hi hres => ?_⟩
  · rw [hf.pageSize]
    exact hf.agree.treeOK h.tree
  · obtain ⟨n',hn',hs⟩ := h.node hi
    obtain ⟨n'',hn'',hv⟩ := hf.agree.read hn'
    exact ⟨n'',hn'',(congrArg (fun v => v.1.2.2.2) hv).trans hs⟩
  · rw [hf.agree.pathTokens_eq]
    exact h.tokens hi
  · rw [hf.agree.leafToRoot_eq]
    exact h.subtree hi hj
  · have hi' := h.resident u i hi
    rcases t.eq_or_eq_other u with rfl | rfl
    · exact (hf.keep i hi').1
    · rw [hf.agree.hasResource_eq]
      exact hi'
  · have hi' := h.resident u i hi
    rw [← h.count u i hi]
    rcases t.eq_or_eq_other u with rfl | rfl
    · exact (hf.keep i hi').2.2
    · exact hf.otherCount i
  · obtain ⟨hres',hpages⟩ := h.pages u hi hres
    rw [hf.agree.leafToRoot_eq,← hpages]
    rcases t.eq_or_eq_other u with rfl | rfl
    · refine ⟨fun j hj => (hf.keep j (hres' j hj)).1,?_⟩
      unfold pathPages rootToLeaf
      rw [hf.agree.leafToRoot_eq]
      exact List.flatMap_congr fun j hj => (hf.keep j (hres' j (List.mem_reverse.mp hj))).2.1
    · refine ⟨fun j hj => ?_,hf.agree.pathPages_eq i⟩
      rw [hf.agree.hasResource_eq]
      exact hres' j hj

section Loop

/-- A step that begins by reading a node. -/
theorem follows_getNode {α : Type} {R : KVPrefixCache → KVPrefixCache → Prop} {f : TreeNode → KV α}
    (hrefl : ∀ kv, R kv kv)
    (h : ∀ kv n, kv.tree.read i = some n → Runs (f n) kv (fun _ => R kv) (fun _ => R kv)) :
    Follows R (getNode i >>= f) := by
  intro kv
  cases hn : kv.tree.read i with
  | some n => exact getNode_bind hn (h kv n hn)
  | none =>
    unfold getNode
    rw [runs_bind,runs_bind,runs_get,hn]
    exact hrefl kv

theorem follows_modifyManager (f : ResourceManager → ResourceManager) :
    Follows (Fills t) (modifyManager u f) := by
  intro kv
  refine (runs_modify _).mpr ?_
  exact ⟨by simp,by simpa using Agree.refl _ _,fun i => by simp,fun i hi => by simpa using hi⟩

theorem follows_setEvictNotifier (i : NodeId) (b : Bool) :
    Follows (Fills t) (setEvictNotifier u i b) := by
  refine follows_getNode (Fills.refl t) fun kv n hn => ?_
  split
  · next r hr =>
    refine (runs_modify _).mpr (Fills.of_quiet ⟨⟨rfl,rfl,rfl,fun v => ?_,fun v => by cases v <;> rfl⟩,
      fun v j => ?_⟩)
    · refine Agree.write hn ?_
      cases u <;> cases v <;> simp_all [viewOf,shapeOf,TreeNode.resource,TreeNode.setResource]
    · unfold refCountOf
      rw [Heap.read_write _ _ (Heap.lt_of_read hn)]
      split
      · next hij =>
        subst hij
        cases u <;> cases v <;> simp_all [TreeNode.resource,TreeNode.setResource]
      · rfl
  · exact Fills.refl t kv

theorem follows_removeLeaf (i : NodeId) : Follows (Fills t) (removeLeaf u i) := by
  refine follows_getNode (Fills.refl t) fun kv n _ => ?_
  split
  · exact Fills.refl t kv
  · rw [runs_bind,runs_get]
    split
    · exact Fills.refl t kv
    · exact follows_bind (R := Fills t) Fills.trans (follows_modifyManager _)
        (fun _ => follows_setEvictNotifier i false) kv

theorem follows_insertLeafEntry (i : NodeId) : Follows (Fills t) (insertLeafEntry u i) := by
  refine follows_getNode (Fills.refl t) fun kv n _ => ?_
  exact follows_bind (R := Fills t) Fills.trans (follows_modifyManager _)
    (fun _ => follows_setEvictNotifier i true) kv

theorem follows_updateLeaf (i : NodeId) : Follows (Fills t) (updateLeaf u i) := by
  refine follows_getNode (Fills.refl t) fun kv n _ => ?_
  split
  · exact Fills.refl t kv
  · refine follows_bind (R := Fills t) Fills.trans (follows_removeLeaf i) (fun _ kv => ?_) kv
    rw [runs_bind,runs_get]
    split
    · exact follows_insertLeafEntry i kv
    · exact Fills.refl t kv

theorem follows_updateLeaves (i : NodeId) : Follows (Fills t) (updateLeaves u i) := by
  refine follows_bind (R := Fills t) Fills.trans (follows_updateLeaf i) fun _ => ?_
  refine follows_getNode (Fills.refl t) fun kv n _ => ?_
  split
  · exact follows_updateLeaf _ kv
  · exact Fills.refl t kv

theorem follows_deallocatePages (pages : List PageId) :
    Follows (Fills t) (deallocatePages u pages) := follows_modifyManager _

/-- Pages are attached to a node that has none. -/
theorem fills_attach (hn : kv.tree.read i = some n) (hno : n.resource t = none)
    (r : NodeResource) :
    Fills t kv { kv with tree := kv.tree.write i (n.setResource t (some r)) } := by
  have hlt := Heap.lt_of_read hn
  refine ⟨rfl,?_,fun j => ?_,fun j hj => ?_⟩
  · refine Agree.write hn ?_
    cases t <;> rfl
  · unfold refCountOf
    rw [Heap.read_write _ _ hlt]
    split
    · next hij =>
      subst hij
      rw [hn]
      cases t <;> rfl
    · rfl
  · have hij : i ≠ j := by
      rintro rfl
      simp [hasResource,hn,hno] at hj
    unfold hasResource nodePages refCountOf at *
    rw [Heap.read_write_ne _ _ hij]
    exact ⟨hj,rfl,rfl⟩

theorem attachResource_fills (hn : kv.tree.read i = some n) (hno : n.resource t = none)
    (pages : List PageId) :
    Runs (attachResource t i pages) kv (fun _ => Fills t kv) (fun _ => Fills t kv) := by
  have hd : Follows (Fills t) (deallocatePages t (n.pages t)) := follows_deallocatePages _
  unfold attachResource
  apply getNode_bind hn
  refine (runs_bind _).mpr ((runs_modify _).mpr ?_)
  have hw := fills_attach hn hno ⟨pages,0,false⟩
  exact (hd _).imp (fun _ _ h => hw.trans h) (fun _ _ h => hw.trans h)

theorem follows_takeFirst {R : KVPrefixCache → KVPrefixCache → Prop} (hrefl : ∀ kv, R kv kv)
    (pages : List PageId) (k : Int) : Follows R (takeFirst pages k) := by
  intro kv
  unfold takeFirst
  split <;> exact hrefl kv

theorem insertNode_fills (allocStart : Int) (i : NodeId) (s : Insertion) :
    Follows (Fills t) (insertNode t allocStart i s) := by
  have htake : ∀ {α : Type} {x : KV (List PageId × List PageId)} {f : List PageId × List PageId → α}
      (kv : KVPrefixCache), Follows (Fills t) x →
      Runs (do let y ← x; return f y) kv (fun _ => Fills t kv) (fun _ => Fills t kv) :=
    fun kv hx => follows_bind (R := Fills t) Fills.trans hx (fun _ => follows_pure (Fills.refl t) _) kv
  have hlast : ∀ pages k, Follows (Fills t) (takeLast pages k) := by
    intro pages k kv
    unfold takeLast
    split <;> exact Fills.refl t kv
  refine follows_getNode (Fills.refl t) fun kv n hn => ?_
  rw [runs_bind,runs_get]
  dsimp only
  split
  · split
    · exact htake kv (follows_takeFirst (Fills.refl t) _ _)
    · exact Fills.refl t kv
  · split
    · split
      · exact htake kv (hlast _ _)
      · exact Fills.refl t kv
    · next hno =>
      have hno' : n.resource t = none := by simpa using hno
      rw [runs_bind]
      unfold takeLast
      split
      · exact Fills.refl t kv
      · rw [runs_pure,runs_bind]
        refine (attachResource_fills hn hno' _).imp (fun _ kv₁ h₁ => ?_) (fun _ _ h => h)
        rw [runs_bind]
        refine (follows_updateLeaves i kv₁).imp (fun _ kv₂ h₂ => ?_) (fun _ kv₂ h₂ => h₁.trans h₂)
        exact h₁.trans h₂

theorem follows_releaseInsertion (s : Insertion) : Follows (Fills t) (releaseInsertion u s) :=
  follows_bind (R := Fills t) Fills.trans (follows_deallocatePages _) fun _ => follows_deallocatePages _

theorem insertLoop_fills (allocStart : Int) (is : List NodeId) (s : Insertion) :
    Follows (Fills t) (insertLoop t allocStart is s) := by
  induction is generalizing s with
  | nil => exact follows_pure (Fills.refl t) s
  | cons i is ih =>
    refine follows_bind (R := Fills t) Fills.trans (follows_unwinding (R := Fills t) Fills.trans (insertNode_fills allocStart i s)
      (follows_releaseInsertion s)) fun r => ?_
    rcases r with ⟨b,s'⟩
    cases b with
    | true => exact ih s'
    | false => exact follows_pure (Fills.refl t) s'

end Loop

end FluxServe
