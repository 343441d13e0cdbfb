import FluxServe.Resource.InsertIntact

namespace FluxServe

open KVPrefixCache

variable {kv kv' kv'' : KVPrefixCache} {t u : ResourceType} {i j : NodeId} {n : TreeNode}

/-- A node without its resources. -/
def skeletonOf (n : TreeNode) :
    (Option NodeId × List Token × Nat × Option PagedCacheSnapshot) × Timestamp :=
  (shapeOf n,n.lastAccessTime)

/-- The same nodes, with the same access times. -/
structure SameSkeleton (kv kv' : KVPrefixCache) : Prop where
  length : kv'.tree.length = kv.tree.length
  node : ∀ i, (kv'.tree.read i).map skeletonOf = (kv.tree.read i).map skeletonOf

namespace SameSkeleton

theorem refl (kv : KVPrefixCache) : SameSkeleton kv kv := ⟨rfl,fun _ => rfl⟩

theorem trans (h : SameSkeleton kv kv') (h' : SameSkeleton kv' kv'') : SameSkeleton kv kv'' :=
  ⟨h'.length.trans h.length,fun i => (h'.node i).trans (h.node i)⟩

theorem symm (h : SameSkeleton kv kv') : SameSkeleton kv' kv :=
  ⟨h.length.symm,fun i => (h.node i).symm⟩

theorem read (h : SameSkeleton kv kv') (hi : kv.tree.read i = some n) :
    ∃ n', kv'.tree.read i = some n' ∧ shapeOf n' = shapeOf n ∧
      n'.lastAccessTime = n.lastAccessTime := by
  have hnode := h.node i
  rw [hi,Option.map_some,Option.map_eq_some_iff] at hnode
  obtain ⟨n',hn',heq⟩ := hnode
  exact ⟨n',hn',congrArg Prod.fst heq,congrArg Prod.snd heq⟩

theorem read_none (h : SameSkeleton kv kv') (hi : kv.tree.read i = none) :
    kv'.tree.read i = none := by
  have hnode := h.node i
  rwa [hi,Option.map_none,Option.map_eq_none_iff] at hnode

theorem children_eq (h : SameSkeleton kv kv') (i : NodeId) :
    children kv'.tree i = children kv.tree i := by
  unfold children
  rw [h.length]
  apply List.filter_congr
  intro j _
  cases hj : kv.tree.read j with
  | none => rw [h.read_none hj]
  | some n =>
    obtain ⟨n',hn',hshape,_⟩ := h.read hj
    have hparent : n'.parent = n.parent := congrArg Prod.fst hshape
    simp [hn',hparent]

theorem write {n' : TreeNode} (hi : kv.tree.read i = some n) (hn : skeletonOf n' = skeletonOf n) :
    SameSkeleton kv { kv with tree := kv.tree.write i n' } := by
  constructor
  · simp
  · intro j
    rw [Heap.read_write _ _ (Heap.lt_of_read hi)]
    split
    · next hij => rw [← hij,hi,Option.map_some,Option.map_some,hn]
    · rfl

end SameSkeleton

/-- Giving a node another resource leaves the skeleton alone. -/
theorem skeletonOf_setResource (n : TreeNode) (r : Option NodeResource) :
    skeletonOf (n.setResource t r) = skeletonOf n := by
  cases t <;> rfl

section Follows

theorem skeleton_modifyManager (f : ResourceManager → ResourceManager) :
    Follows SameSkeleton (modifyManager t f) := by
  intro kv
  rw [modifyManager,runs_modify]
  constructor
  · rw [setManager_tree]
  · intro i
    rw [setManager_tree]

theorem skeleton_setEvictNotifier (i : NodeId) (b : Bool) :
    Follows SameSkeleton (setEvictNotifier t i b) := by
  apply follows_getNode SameSkeleton.refl
  intro kv n hn
  split
  · exact SameSkeleton.write hn (skeletonOf_setResource n _)
  · exact SameSkeleton.refl kv

theorem skeleton_setResource (i : NodeId) (r : Option NodeResource) :
    Follows SameSkeleton (setResource t i r) := by
  apply follows_getNode SameSkeleton.refl
  intro kv n hn
  exact SameSkeleton.write hn (skeletonOf_setResource n _)

theorem skeleton_removeLeaf (i : NodeId) : Follows SameSkeleton (removeLeaf t i) := by
  apply follows_getNode SameSkeleton.refl
  intro kv n _
  split
  · exact SameSkeleton.refl kv
  · rw [runs_bind,runs_get]
    split
    · exact SameSkeleton.refl kv
    · exact follows_bind (R := SameSkeleton) SameSkeleton.trans (skeleton_modifyManager _)
        (fun _ => skeleton_setEvictNotifier i false) kv

theorem skeleton_insertLeafEntry (i : NodeId) : Follows SameSkeleton (insertLeafEntry t i) := by
  apply follows_getNode SameSkeleton.refl
  intro kv n _
  exact follows_bind (R := SameSkeleton) SameSkeleton.trans (skeleton_modifyManager _)
    (fun _ => skeleton_setEvictNotifier i true) kv

theorem skeleton_updateLeaf (i : NodeId) : Follows SameSkeleton (updateLeaf t i) := by
  apply follows_getNode SameSkeleton.refl
  intro kv n _
  split
  · exact SameSkeleton.refl kv
  · apply follows_bind (R := SameSkeleton) SameSkeleton.trans (skeleton_removeLeaf i)
    intro _ kv₁
    rw [runs_bind,runs_get]
    split
    · exact skeleton_insertLeafEntry i kv₁
    · exact SameSkeleton.refl kv₁

theorem skeleton_deallocatePages (pages : List PageId) :
    Follows SameSkeleton (deallocatePages t pages) := skeleton_modifyManager _

theorem skeleton_getResource (i : NodeId) : Follows SameSkeleton (getResource t i) := by
  apply follows_getNode SameSkeleton.refl
  intro kv n _
  split <;> exact SameSkeleton.refl kv

theorem skeleton_evictLeaf (i : NodeId) (e : Evicted) :
    Follows SameSkeleton (evictLeaf t i e) := by
  unfold evictLeaf
  apply follows_bind (R := SameSkeleton) SameSkeleton.trans (skeleton_modifyManager _)
  intro _
  apply follows_bind (R := SameSkeleton) SameSkeleton.trans (skeleton_getResource i)
  intro r kv
  split
  · exact SameSkeleton.refl kv
  have hgive (e' : Evicted) : Follows SameSkeleton (do
      deallocatePages t r.pages
      pure e') :=
    follows_bind (R := SameSkeleton) SameSkeleton.trans (skeleton_deallocatePages _)
      fun _ => follows_pure SameSkeleton.refl _
  apply follows_bind (R := SameSkeleton) SameSkeleton.trans (skeleton_setResource i none)
  intro _
  apply follows_getNode SameSkeleton.refl
  intro kv₁ n _
  split
  · exact follows_bind (R := SameSkeleton) SameSkeleton.trans (skeleton_updateLeaf _)
      (fun _ => hgive _) kv₁
  · exact hgive _ kv₁

theorem skeleton_evictLoop (num : Int) (fuel : Nat) (e : Evicted) :
    Follows SameSkeleton (evictLoop t num fuel e) := by
  induction fuel generalizing e with
  | zero => exact follows_pure SameSkeleton.refl e
  | succ fuel ih =>
    intro kv
    unfold evictLoop
    split
    · exact SameSkeleton.refl kv
    · rw [runs_bind,runs_get]
      split
      · exact SameSkeleton.refl kv
      · exact follows_bind (R := SameSkeleton) SameSkeleton.trans (skeleton_evictLeaf _ e) ih kv

theorem skeleton_evict (num : Int) : Follows SameSkeleton (evict t num) := by
  intro kv
  unfold evict
  split
  · exact SameSkeleton.refl kv
  · rw [runs_bind,runs_get]
    apply follows_bind (R := SameSkeleton) SameSkeleton.trans (skeleton_evictLoop _ _ _)
    intro e
    exact follows_bind (R := SameSkeleton) SameSkeleton.trans
      (follows_forM (R := SameSkeleton) SameSkeleton.refl SameSkeleton.trans
        skeleton_insertLeafEntry _) fun _ => follows_pure SameSkeleton.refl _

/-- Making room neither removes nor touches a node. -/
theorem skeleton_ensureCapacity (num : Int) : Follows SameSkeleton (ensureCapacity t num) := by
  intro kv
  unfold ensureCapacity
  split
  · exact SameSkeleton.refl kv
  · rw [runs_bind,runs_get]
    dsimp only
    split
    · exact SameSkeleton.refl kv
    · exact skeleton_evict _ kv

end Follows

end FluxServe
