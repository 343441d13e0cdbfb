import FluxServe.Resource.TreePaths

namespace FluxServe

namespace KVPrefixCache

variable {ps : Nat} {t : ResourceType} {tree tree' tree'' : Heap TreeNode} {i j : NodeId}
  {n n' : TreeNode}

/-- The part of a node that no operation on its resources changes. -/
def shapeOf (n : TreeNode) :
    Option NodeId × List Token × Nat × Option PagedCacheSnapshot :=
  (n.parent,n.tokens,n.depthInTokens,n.pagedCacheSnapshot)

/-- What a tier stores in a node: its shape and, where it is resident, its pages. -/
def viewOf (t : ResourceType) (n : TreeNode) :
    (Option NodeId × List Token × Nat × Option PagedCacheSnapshot) × Option (List PageId) :=
  (shapeOf n,(n.resource t).map NodeResource.pages)

/-- Two trees with the same nodes and the same pages of a tier. -/
structure Agree (t : ResourceType) (tree tree' : Heap TreeNode) : Prop where
  length : tree'.length = tree.length
  view : ∀ i, (tree'.read i).map (viewOf t) = (tree.read i).map (viewOf t)

namespace Agree

theorem refl (t : ResourceType) (tree : Heap TreeNode) : Agree t tree tree := ⟨rfl,fun _ => rfl⟩

theorem symm (h : Agree t tree tree') : Agree t tree' tree :=
  ⟨h.length.symm,fun i => (h.view i).symm⟩

theorem trans (h : Agree t tree tree') (h' : Agree t tree' tree'') : Agree t tree tree'' :=
  ⟨h'.length.trans h.length,fun i => (h'.view i).trans (h.view i)⟩

/-- Replacing a node by one with the same view. -/
theorem write (hi : tree.read i = some n) (hv : viewOf t n' = viewOf t n) :
    Agree t tree (tree.write i n') := by
  refine ⟨by simp,fun j => ?_⟩
  rw [Heap.read_write _ _ (Heap.lt_of_read hi)]
  split
  · next hij => subst hij; simp [hi,hv]
  · rfl

theorem read (h : Agree t tree tree') (hi : tree.read i = some n) :
    ∃ n', tree'.read i = some n' ∧ viewOf t n' = viewOf t n := by
  have hv := h.view i
  rw [hi,Option.map_some] at hv
  exact Option.map_eq_some_iff.mp hv

theorem read_none (h : Agree t tree tree') (hi : tree.read i = none) : tree'.read i = none := by
  have hv := h.view i
  rw [hi,Option.map_none,Option.map_eq_none_iff] at hv
  exact hv

/-- Whatever depends on the view alone is the same on both trees. -/
theorem map_eq {β : Type} (h : Agree t tree tree') {f : TreeNode → β}
    (hf : ∀ {n n'}, viewOf t n' = viewOf t n → f n' = f n) (i : NodeId) :
    (tree'.read i).map f = (tree.read i).map f := by
  cases hi : tree.read i with
  | none => simp [h.read_none hi]
  | some n =>
    obtain ⟨n',hn',hv⟩ := h.read hi
    simp [hn',hf hv]

theorem parent_eq (h : Agree t tree tree') (i : NodeId) :
    (tree'.read i).bind TreeNode.parent = (tree.read i).bind TreeNode.parent := by
  have hm := h.map_eq (f := TreeNode.parent) (fun hv => congrArg (fun v => v.1.1) hv) i
  cases hi : tree.read i <;> cases hi' : tree'.read i <;> simp_all

theorem nodeDepth_eq (h : Agree t tree tree') (i : NodeId) :
    nodeDepth tree' i = nodeDepth tree i := by
  unfold nodeDepth
  rw [h.map_eq (f := TreeNode.depthInTokens) (fun hv => congrArg (fun v => v.1.2.2.1) hv)]

theorem nodeTokens_eq (h : Agree t tree tree') (i : NodeId) :
    nodeTokens tree' i = nodeTokens tree i := by
  unfold nodeTokens
  rw [h.map_eq (f := TreeNode.tokens) (fun hv => congrArg (fun v => v.1.2.1) hv)]

private theorem pages_of_view (hv : viewOf t n' = viewOf t n) :
    TreeNode.pages t n' = TreeNode.pages t n := by
  exact congrArg (fun v => v.2.getD []) hv

theorem nodePages_eq (h : Agree t tree tree') (i : NodeId) :
    nodePages t tree' i = nodePages t tree i := by
  unfold nodePages
  rw [h.map_eq pages_of_view]

theorem hasResource_eq (h : Agree t tree tree') (i : NodeId) :
    hasResource t tree' i = hasResource t tree i := by
  have hm := h.map_eq (f := fun n => (n.resource t).isSome)
    (fun hv => by simpa [viewOf] using congrArg (fun v => v.2.isSome) hv) i
  unfold hasResource
  cases hi : tree.read i <;> cases hi' : tree'.read i <;> simp_all

theorem leafToRoot_eq (h : Agree t tree tree') (i : NodeId) :
    leafToRoot tree' i = leafToRoot tree i := by
  have aux : ∀ fuel i, leafToRootAux tree' fuel i = leafToRootAux tree fuel i := by
    intro fuel
    induction fuel with
    | zero => exact fun _ => rfl
    | succ fuel ih =>
      intro i
      simp only [leafToRootAux,h.parent_eq,ih]
  have hd := h.nodeDepth_eq i
  unfold nodeDepth at hd
  unfold leafToRoot
  rw [aux,hd]

theorem children_eq (h : Agree t tree tree') (i : NodeId) :
    children tree' i = children tree i := by
  unfold children
  rw [h.length]
  exact congrArg (fun f => List.filter f _) (funext fun j => by rw [h.parent_eq])

theorem pathTokens_eq (h : Agree t tree tree') (i : NodeId) :
    pathTokens tree' i = pathTokens tree i := by
  unfold pathTokens rootToLeaf
  rw [h.leafToRoot_eq,funext h.nodeTokens_eq]

theorem pathPages_eq (h : Agree t tree tree') (i : NodeId) :
    pathPages t tree' i = pathPages t tree i := by
  unfold pathPages rootToLeaf
  rw [h.leafToRoot_eq,funext h.nodePages_eq]

theorem hasChildWithPages_eq (h : Agree t tree tree') (i : NodeId) :
    hasChildWithPages t tree' i = hasChildWithPages t tree i := by
  unfold hasChildWithPages
  rw [h.children_eq,funext h.nodePages_eq]

theorem isLeaf_eq (h : Agree t tree tree') (i : NodeId) : isLeaf t tree' i = isLeaf t tree i := by
  unfold isLeaf
  rw [h.hasResource_eq,h.parent_eq,h.nodePages_eq,h.hasChildWithPages_eq]

theorem collect_eq (h : Agree t tree tree') :
    tree'.collect (TreeNode.pages t) = tree.collect (TreeNode.pages t) :=
  Heap.collect_congr h.length (h.map_eq pages_of_view)

theorem treeOK (h : Agree t tree tree') (ht : TreeOK ps tree) : TreeOK ps tree' := by
  have back : ∀ {i n'}, tree'.read i = some n' → ∃ n, tree.read i = some n ∧
      n'.parent = n.parent ∧ n'.tokens = n.tokens ∧ n'.depthInTokens = n.depthInTokens := by
    intro i n' hi
    obtain ⟨n,hn,hv⟩ := h.symm.read hi
    refine ⟨n,hn,?_,?_,?_⟩
    · exact (congrArg (fun v => v.1.1) hv).symm
    · exact (congrArg (fun v => v.1.2.1) hv).symm
    · exact (congrArg (fun v => v.1.2.2.1) hv).symm
  refine ⟨ht.pageSize_pos,?_,?_,?_⟩
  · obtain ⟨n,hn,hp,htk,hd⟩ := ht.root
    obtain ⟨n',hn',_⟩ := h.read hn
    obtain ⟨m,hm,hp',ht',hd'⟩ := back hn'
    rw [hn] at hm
    cases hm
    exact ⟨n',hn',hp'.trans hp,ht'.trans htk,hd'.trans hd⟩
  · intro i n' hi hi0
    obtain ⟨n,hn,hp',ht',hd'⟩ := back hi
    obtain ⟨p,np,hp,hnp,hd,htk,hdvd⟩ := ht.node hn hi0
    obtain ⟨np',hnp',_⟩ := h.read hnp
    obtain ⟨m,hm,_,_,hdp⟩ := back hnp'
    rw [hnp] at hm
    cases hm
    exact ⟨p,np',hp'.trans hp,hnp',by rw [hd',hd,hdp,ht'],by rwa [ht'],by rwa [ht']⟩
  · intro i j ni nj p hi hj hpi hpj hk
    obtain ⟨mi,hmi,hpi',hti,_⟩ := back hi
    obtain ⟨mj,hmj,hpj',htj,_⟩ := back hj
    exact ht.sibling hmi hmj (hpi'.symm.trans hpi) (hpj'.symm.trans hpj) (by rw [← hti,← htj,hk])

end Agree

end KVPrefixCache

end FluxServe
