import FluxServe.Resource.KVPrefixCache

namespace FluxServe

namespace KVPrefixCache

variable {ps : Nat} {tree tree' : Heap TreeNode} {i j p : NodeId} {n np : TreeNode}

/-- The shape of the tree: parents exist, depths add up, every node but the root holds whole
pages, and siblings start with different pages. -/
structure TreeOK (ps : Nat) (tree : Heap TreeNode) : Prop where
  pageSize_pos : 0 < ps
  root : ∃ n, tree.read 0 = some n ∧ n.parent = none ∧ n.tokens = [] ∧ n.depthInTokens = 0
  node : ∀ {i n}, tree.read i = some n → i ≠ 0 → ∃ p np, n.parent = some p ∧
    tree.read p = some np ∧ n.depthInTokens = np.depthInTokens+n.tokens.length ∧
    n.tokens ≠ [] ∧ ps ∣ n.tokens.length
  sibling : ∀ {i j ni nj p}, tree.read i = some ni → tree.read j = some nj →
    ni.parent = some p → nj.parent = some p → ni.tokens.take ps = nj.tokens.take ps → i = j

theorem TreeOK.ne_zero (h : TreeOK ps tree) (hi : tree.read i = some n)
    (hp : n.parent = some p) : i ≠ 0 := by
  rintro rfl
  obtain ⟨m,hm,hmp,_⟩ := h.root
  rw [hm] at hi
  cases hi
  rw [hmp] at hp
  cases hp

/-- The parent of a node, with what the tree invariant says about the pair. -/
theorem TreeOK.parent (h : TreeOK ps tree) (hi : tree.read i = some n) (hp : n.parent = some p) :
    ∃ np, tree.read p = some np ∧ n.depthInTokens = np.depthInTokens+n.tokens.length ∧
      n.tokens ≠ [] ∧ ps ∣ n.tokens.length := by
  obtain ⟨q,nq,hq,hnq,hd,ht,hdiv⟩ := h.node hi (h.ne_zero hi hp)
  rw [hp] at hq
  cases hq
  exact ⟨nq,hnq,hd,ht,hdiv⟩

theorem TreeOK.depth_lt (h : TreeOK ps tree) (hi : tree.read i = some n)
    (hp : n.parent = some p) (hnp : tree.read p = some np) :
    np.depthInTokens < n.depthInTokens := by
  obtain ⟨m,hm,hd,ht,_⟩ := h.parent hi hp
  rw [hnp] at hm
  cases hm
  have := List.length_pos_of_ne_nil ht
  omega

theorem TreeOK.root_of_parent_none (h : TreeOK ps tree) (hi : tree.read i = some n)
    (hp : n.parent = none) : i = 0 := by
  by_contra hi0
  obtain ⟨p,_,hp',_⟩ := h.node hi hi0
  rw [hp] at hp'
  cases hp'

/-- Induction over the live nodes of a tree, from the root down. -/
theorem TreeOK.induction (h : TreeOK ps tree) {P : NodeId → Prop} (root : P 0)
    (step : ∀ i n p, tree.read i = some n → n.parent = some p → P p → P i) :
    ∀ i n, tree.read i = some n → P i := by
  have key : ∀ d i n, tree.read i = some n → n.depthInTokens = d → P i := by
    intro d
    induction d using Nat.strong_induction_on with
    | _ d ih =>
      intro i n hi hd
      by_cases hi0 : i=0
      · exact hi0 ▸ root
      · obtain ⟨p,np,hp,hnp,_⟩ := h.node hi hi0
        exact step i n p hi hp (ih _ (hd ▸ h.depth_lt hi hp hnp) p np hnp rfl)
  exact fun i n hi => key _ i n hi rfl

private theorem leafToRootAux_fuel (h : TreeOK ps tree) (f g : Nat) (i : NodeId) (n : TreeNode)
    (hi : tree.read i = some n) (hf : n.depthInTokens ≤ f) (hg : n.depthInTokens ≤ g) :
    leafToRootAux tree f i = leafToRootAux tree g i := by
  induction f generalizing g i n with
  | zero =>
    cases g with
    | zero => rfl
    | succ g =>
      cases hp : n.parent with
      | none => simp [leafToRootAux,hi,hp]
      | some p =>
        obtain ⟨np,hnp,_⟩ := h.parent hi hp
        have := h.depth_lt hi hp hnp
        omega
  | succ f ih =>
    cases hp : n.parent with
    | none => cases g <;> simp [leafToRootAux,hi,hp]
    | some p =>
      obtain ⟨np,hnp,_⟩ := h.parent hi hp
      have := h.depth_lt hi hp hnp
      cases g with
      | zero => omega
      | succ g =>
        simp only [leafToRootAux,hi,hp,Option.bind_some]
        rw [ih g p np hnp (by omega) (by omega)]

theorem leafToRoot_of_parent_none (hi : tree.read i = some n) (hp : n.parent = none) :
    leafToRoot tree i = [] := by
  unfold leafToRoot
  cases ((tree.read i).map TreeNode.depthInTokens).getD 0 <;> simp [leafToRootAux,hi,hp]

theorem leafToRoot_of_read_none (hi : tree.read i = none) : leafToRoot tree i = [] := by
  simp [leafToRoot,hi,leafToRootAux]

theorem TreeOK.leafToRoot_zero (h : TreeOK ps tree) : leafToRoot tree 0 = [] := by
  obtain ⟨n,hn,hp,_⟩ := h.root
  exact leafToRoot_of_parent_none hn hp

theorem TreeOK.leafToRoot_cons (h : TreeOK ps tree) (hi : tree.read i = some n)
    (hp : n.parent = some p) : leafToRoot tree i = i :: leafToRoot tree p := by
  obtain ⟨np,hnp,_⟩ := h.parent hi hp
  have hlt := h.depth_lt hi hp hnp
  obtain ⟨d,hd⟩ : ∃ d, n.depthInTokens = d+1 := ⟨n.depthInTokens-1,by omega⟩
  unfold leafToRoot
  simp only [hi,hnp,Option.map_some,Option.getD_some,hd,leafToRootAux,hp,Option.bind_some]
  rw [leafToRootAux_fuel h d np.depthInTokens p np hnp (by omega) (by omega)]

/-- The nodes on a path are live and none of them is the root. -/
theorem TreeOK.mem_leafToRoot (h : TreeOK ps tree) (hj : j ∈ leafToRoot tree i) :
    ∃ n p, tree.read j = some n ∧ n.parent = some p ∧ j ≠ 0 := by
  cases hi : tree.read i with
  | none => rw [leafToRoot_of_read_none hi] at hj; cases hj
  | some n =>
    revert hj
    refine h.induction (P := fun i => j ∈ leafToRoot tree i → _) ?_ ?_ i n hi
    · rw [h.leafToRoot_zero]
      exact fun hj => by cases hj
    · intro i n p hi hp ih hj
      rw [h.leafToRoot_cons hi hp] at hj
      rcases List.mem_cons.mp hj with rfl | hj
      · exact ⟨n,p,hi,hp,h.ne_zero hi hp⟩
      · exact ih hj

theorem TreeOK.self_mem_leafToRoot (h : TreeOK ps tree) (hi : tree.read i = some n)
    (hp : n.parent = some p) : i ∈ leafToRoot tree i := by
  rw [h.leafToRoot_cons hi hp]
  exact List.mem_cons_self

/-- Ancestors of ancestors are ancestors. -/
theorem TreeOK.mem_leafToRoot_trans (h : TreeOK ps tree) {k : NodeId}
    (hk : k ∈ leafToRoot tree j) (hj : j ∈ leafToRoot tree i) : k ∈ leafToRoot tree i := by
  cases hi : tree.read i with
  | none => rw [leafToRoot_of_read_none hi] at hj; cases hj
  | some n =>
    revert hj
    refine h.induction (P := fun i => j ∈ leafToRoot tree i → k ∈ leafToRoot tree i) ?_ ?_ i n hi
    · rw [h.leafToRoot_zero]
      exact fun hj => by cases hj
    · intro i n p hi hp ih hj
      rw [h.leafToRoot_cons hi hp] at hj
      rcases List.mem_cons.mp hj with rfl | hj
      · exact hk
      · rw [h.leafToRoot_cons hi hp]
        exact List.mem_cons_of_mem _ (ih hj)

/-- Depths strictly grow along a path. -/
theorem TreeOK.depth_le_of_mem (h : TreeOK ps tree) (hi : tree.read i = some n)
    (hj : j ∈ leafToRoot tree i) : nodeDepth tree j ≤ n.depthInTokens := by
  have key := h.induction
    (P := fun i => j ∈ leafToRoot tree i → nodeDepth tree j ≤ nodeDepth tree i) ?_ ?_ i n hi hj
  · simpa [nodeDepth,hi] using key
  · rw [h.leafToRoot_zero]
    exact fun hj => by cases hj
  · intro i n p hi hp ih hj
    rw [h.leafToRoot_cons hi hp] at hj
    rcases List.mem_cons.mp hj with rfl | hj
    · exact Nat.le_refl _
    · obtain ⟨np,hnp,_⟩ := h.parent hi hp
      have hlt := h.depth_lt hi hp hnp
      have := ih hj
      simp only [nodeDepth,hnp,hi,Option.map_some,Option.getD_some] at this ⊢
      omega

theorem TreeOK.pathTokens_zero (h : TreeOK ps tree) : pathTokens tree 0 = [] := by
  simp [pathTokens,rootToLeaf,h.leafToRoot_zero]

theorem TreeOK.pathTokens_cons (h : TreeOK ps tree) (hi : tree.read i = some n)
    (hp : n.parent = some p) : pathTokens tree i = pathTokens tree p ++ n.tokens := by
  simp [pathTokens,rootToLeaf,h.leafToRoot_cons hi hp,nodeTokens,hi]

theorem TreeOK.pathPages_zero (h : TreeOK ps tree) (t : ResourceType) :
    pathPages t tree 0 = [] := by
  simp [pathPages,rootToLeaf,h.leafToRoot_zero]

theorem TreeOK.pathPages_cons (h : TreeOK ps tree) (t : ResourceType) (hi : tree.read i = some n)
    (hp : n.parent = some p) : pathPages t tree i = pathPages t tree p ++ n.pages t := by
  simp [pathPages,rootToLeaf,h.leafToRoot_cons hi hp,nodePages,hi]

theorem TreeOK.pathTokens_length (h : TreeOK ps tree) (hi : tree.read i = some n) :
    (pathTokens tree i).length = n.depthInTokens := by
  have key := h.induction (P := fun i => (pathTokens tree i).length = nodeDepth tree i) ?_ ?_ i n hi
  · simpa [nodeDepth,hi] using key
  · obtain ⟨m,hm,_,_,hd⟩ := h.root
    simp [h.pathTokens_zero,nodeDepth,hm,hd]
  · intro i n p hi hp ih
    obtain ⟨np,hnp,hd,_⟩ := h.parent hi hp
    simp only [h.pathTokens_cons hi hp,List.length_append,ih,nodeDepth,hnp,hi,Option.map_some,
      Option.getD_some,hd]

theorem TreeOK.pageSize_dvd_depth (h : TreeOK ps tree) (hi : tree.read i = some n) :
    ps ∣ n.depthInTokens := by
  have key := h.induction (P := fun i => ps ∣ nodeDepth tree i) ?_ ?_ i n hi
  · simpa [nodeDepth,hi] using key
  · obtain ⟨m,hm,_,_,hd⟩ := h.root
    simp [nodeDepth,hm,hd]
  · intro i n p hi hp ih
    obtain ⟨np,hnp,hd,_,hdvd⟩ := h.parent hi hp
    simp only [nodeDepth,hnp,hi,Option.map_some,Option.getD_some,hd] at ih ⊢
    exact Nat.dvd_add ih hdvd

/-- The tokens of an ancestor come first. -/
theorem TreeOK.pathTokens_prefix (h : TreeOK ps tree) (hi : tree.read i = some n)
    (hj : j = 0 ∨ j ∈ leafToRoot tree i) : pathTokens tree j <+: pathTokens tree i := by
  revert hj
  refine h.induction (P := fun i => j = 0 ∨ j ∈ leafToRoot tree i →
    pathTokens tree j <+: pathTokens tree i) ?_ ?_ i n hi
  · rw [h.leafToRoot_zero]
    rintro (rfl | hj)
    · exact List.prefix_refl _
    · cases hj
  · intro i n p hi hp ih hj
    rw [h.leafToRoot_cons hi hp,List.mem_cons] at hj
    rcases hj with rfl | rfl | hj
    · rw [h.pathTokens_zero]
      exact List.nil_prefix
    · exact List.prefix_refl _
    · rw [h.pathTokens_cons hi hp]
      exact (ih (Or.inr hj)).trans (List.prefix_append _ _)

/-- Below an ancestor other than the node itself the path goes on with a child of it. -/
theorem TreeOK.child_on_path (h : TreeOK ps tree) (hi : tree.read i = some n)
    (hj : j = 0 ∨ j ∈ leafToRoot tree i) (hne : j ≠ i) :
    ∃ c nc, c ∈ leafToRoot tree i ∧ tree.read c = some nc ∧ nc.parent = some j := by
  revert hj hne
  refine h.induction (P := fun i => j = 0 ∨ j ∈ leafToRoot tree i → j ≠ i →
    ∃ c nc, c ∈ leafToRoot tree i ∧ tree.read c = some nc ∧ nc.parent = some j) ?_ ?_ i n hi
  · rw [h.leafToRoot_zero]
    rintro (rfl | hj) hne
    · exact absurd rfl hne
    · cases hj
  · intro i n p hi hp ih hj hne
    rw [h.leafToRoot_cons hi hp] at hj ⊢
    by_cases hjp : j=p
    · exact ⟨i,n,List.mem_cons_self,hi,by rw [hjp]; exact hp⟩
    · have hj' : j = 0 ∨ j ∈ leafToRoot tree p :=
        hj.imp id fun hj => (List.mem_cons.mp hj).resolve_left hne
      obtain ⟨c,nc,hc,hrest⟩ := ih hj' hjp
      exact ⟨c,nc,List.mem_cons_of_mem _ hc,hrest⟩

theorem take_eq_of_isPrefix {α : Type} {a b c : List α} {k : Nat} (ha : a <+: c) (hb : b <+: c)
    (hka : k ≤ a.length) (hkb : k ≤ b.length) : a.take k = b.take k := by
  have h1 := List.prefix_iff_eq_take.mp ha
  have h2 := List.prefix_iff_eq_take.mp hb
  rw [h1,h2,List.take_take,List.take_take,Nat.min_eq_left hka,Nat.min_eq_left hkb]

/-- Siblings whose tokens continue the same sequence are one node. -/
theorem TreeOK.child_unique (h : TreeOK ps tree) {c d : NodeId} {nc nd : TreeNode} {T : List Token}
    (hc : tree.read c = some nc) (hd : tree.read d = some nd) (hcp : nc.parent = some p)
    (hdp : nd.parent = some p) (hct : nc.tokens <+: T) (hdt : nd.tokens <+: T) : c = d := by
  obtain ⟨_,_,_,hcne,hcdvd⟩ := h.parent hc hcp
  obtain ⟨_,_,_,hdne,hddvd⟩ := h.parent hd hdp
  refine h.sibling hc hd hcp hdp (take_eq_of_isPrefix hct hdt ?_ ?_)
  · exact Nat.le_of_dvd (List.length_pos_of_ne_nil hcne) hcdvd
  · exact Nat.le_of_dvd (List.length_pos_of_ne_nil hdne) hddvd

/-- A node whose tokens begin another node's is one of its ancestors. -/
theorem TreeOK.mem_leafToRoot_of_prefix (h : TreeOK ps tree) {y : NodeId} {ny : TreeNode}
    (hi : tree.read i = some n) (hy : tree.read y = some ny)
    (hpre : pathTokens tree i <+: pathTokens tree y) : i = 0 ∨ i ∈ leafToRoot tree y := by
  revert hpre
  refine h.induction (P := fun i => pathTokens tree i <+: pathTokens tree y →
    i = 0 ∨ i ∈ leafToRoot tree y) (fun _ => Or.inl rfl) ?_ i n hi
  intro i n p hi hp ih hpre
  have hpt := h.pathTokens_cons hi hp
  have hpy := ih ((List.prefix_append _ _).trans (hpt ▸ hpre))
  have hne : p ≠ y := by
    rintro rfl
    have hl := hpre.length_le
    obtain ⟨_,_,_,htok,_⟩ := h.parent hi hp
    have := List.length_pos_of_ne_nil htok
    rw [hpt,List.length_append] at hl
    omega
  obtain ⟨c,nc,hc,hnc,hcp⟩ := h.child_on_path hy hpy hne
  obtain ⟨rest,hrest⟩ := h.pathTokens_prefix hy hpy
  rw [hpt,← hrest,List.prefix_append_right_inj] at hpre
  have hcpre := h.pathTokens_prefix hy (Or.inr hc)
  rw [h.pathTokens_cons hnc hcp,← hrest,List.prefix_append_right_inj] at hcpre
  rw [h.child_unique hi hnc hp hcp hpre hcpre]
  exact Or.inr hc

/-- The path of a node goes on as the path of any of its ancestors. -/
theorem TreeOK.leafToRoot_append (h : TreeOK ps tree) (hi : tree.read i = some n)
    (hj : j = 0 ∨ j ∈ leafToRoot tree i) :
    ∃ seg, leafToRoot tree i = seg ++ leafToRoot tree j := by
  revert hj
  refine h.induction (P := fun i => j = 0 ∨ j ∈ leafToRoot tree i →
    ∃ seg, leafToRoot tree i = seg ++ leafToRoot tree j) ?_ ?_ i n hi
  · rw [h.leafToRoot_zero]
    rintro (rfl | hj)
    · exact ⟨[],by rw [h.leafToRoot_zero]; rfl⟩
    · cases hj
  · intro i n p hi hp ih hj
    have hcons := h.leafToRoot_cons hi hp
    rw [hcons,List.mem_cons] at hj
    by_cases hji : j=i
    · exact ⟨[],by rw [hji]; rfl⟩
    · obtain ⟨seg,hseg⟩ := ih (hj.imp id fun hj => hj.resolve_left hji)
      exact ⟨i :: seg,by rw [hcons,hseg]; rfl⟩

/-- What lies between a node and an ancestor makes up the difference of their depths. -/
theorem TreeOK.depth_of_append (h : TreeOK ps tree) (hi : tree.read i = some n) {seg : List NodeId}
    (hj : ∃ nj, tree.read j = some nj) (hseg : leafToRoot tree i = seg ++ leafToRoot tree j) :
    nodeDepth tree i = nodeDepth tree j+(seg.map fun k => (nodeTokens tree k).length).sum := by
  obtain ⟨nj,hnj⟩ := hj
  have hli := congrArg List.length (congrArg (List.flatMap (nodeTokens tree))
    (congrArg List.reverse hseg))
  have h1 : (pathTokens tree i).length = nodeDepth tree i := by
    rw [h.pathTokens_length hi]
    simp [nodeDepth,hi]
  have h2 : (pathTokens tree j).length = nodeDepth tree j := by
    rw [h.pathTokens_length hnj]
    simp [nodeDepth,hnj]
  unfold pathTokens rootToLeaf at h1 h2
  rw [h1,List.reverse_append,List.flatMap_append,List.length_append,h2,List.length_flatMap,
    List.map_reverse,List.sum_reverse] at hli
  exact hli

theorem mem_children : j ∈ children tree i ↔ ∃ n, tree.read j = some n ∧ n.parent = some i := by
  unfold children
  simp only [List.mem_filter,List.mem_range,decide_eq_true_eq]
  constructor
  · rintro ⟨_,hj⟩
    obtain ⟨n,hn,hp⟩ := Option.bind_eq_some_iff.mp hj
    exact ⟨n,hn,hp⟩
  · rintro ⟨n,hn,hp⟩
    exact ⟨Heap.lt_of_read hn,by simp [hn,hp]⟩

end KVPrefixCache

end FluxServe
