import FluxServe.Resource.EvictionProof

namespace FluxServe

open KVPrefixCache

variable {kv kv₀ kv' : KVPrefixCache} {t u : ResourceType} {i j p : NodeId} {n : TreeNode}
  {tree : Heap TreeNode} {ps : Nat} {refs : ResourceType → Multiset NodeId}
  {owned : ResourceType → Multiset PageId}

/-- A node the prune removes: it has neither a child nor pages on any tier. -/
structure Bare (tree : Heap TreeNode) (i : NodeId) (n : TreeNode) (p : NodeId) : Prop where
  read : tree.read i = some n
  parent : n.parent = some p
  children : children tree i = []
  resource : ∀ t, n.resource t = none

theorem nodeTokens_release (hj : j ≠ i) : nodeTokens (tree.release i) j = nodeTokens tree j := by
  unfold nodeTokens
  rw [Heap.read_release_ne _ hj]

namespace Bare

theorem parent_ne (h : Bare tree i n p) {m : TreeNode} (hj : tree.read j = some m) :
    m.parent ≠ some i := by
  intro hm
  have hmem := mem_children.mpr ⟨m,hj,hm⟩
  rw [h.children] at hmem
  cases hmem

theorem treeOK (h : Bare tree i n p) (hT : TreeOK ps tree) : TreeOK ps (tree.release i) := by
  have h0 := hT.ne_zero h.read h.parent
  refine ⟨hT.pageSize_pos,?_,?_,?_⟩
  · rw [Heap.read_release_ne _ (Ne.symm h0)]
    exact hT.root
  · intro j m hj' hj0
    have hj := (Heap.of_read_release hj').1
    obtain ⟨q,nq,hq,hnq,hrest⟩ := hT.node hj hj0
    have hqi : q ≠ i := by
      rintro rfl
      exact h.parent_ne hj hq
    exact ⟨q,nq,hq,by rw [Heap.read_release_ne _ hqi]; exact hnq,hrest⟩
  · intro j k nj nk q hj hk
    exact hT.sibling (Heap.of_read_release hj).1 (Heap.of_read_release hk).1

theorem notMem_leafToRoot (h : Bare tree i n p) (hT : TreeOK ps tree) {m : TreeNode}
    (hj : tree.read j = some m) (hji : j ≠ i) : i ∉ leafToRoot tree j := by
  revert hji
  refine hT.induction (P := fun j => j ≠ i → i ∉ leafToRoot tree j) ?_ ?_ j m hj
  · rw [hT.leafToRoot_zero]
    simp
  · intro j m q hj hq ih hji
    rw [hT.leafToRoot_cons hj hq,List.mem_cons,not_or]
    refine ⟨Ne.symm hji,ih ?_⟩
    rintro rfl
    exact h.parent_ne hj hq

theorem leafToRoot_eq (h : Bare tree i n p) (hT : TreeOK ps tree) {m : TreeNode}
    (hj : tree.read j = some m) (hji : j ≠ i) :
    leafToRoot (tree.release i) j = leafToRoot tree j := by
  revert hji
  refine hT.induction
    (P := fun j => j ≠ i → leafToRoot (tree.release i) j = leafToRoot tree j) ?_ ?_ j m hj
  · intro _
    rw [hT.leafToRoot_zero,(h.treeOK hT).leafToRoot_zero]
  · intro j m q hj hq ih hji
    have hqi : q ≠ i := by
      rintro rfl
      exact h.parent_ne hj hq
    have hj' : (tree.release i).read j = some m := by rw [Heap.read_release_ne _ hji]; exact hj
    rw [hT.leafToRoot_cons hj hq,(h.treeOK hT).leafToRoot_cons hj' hq,ih hqi]

/-- Whatever of a node is nothing for the bare one looks the same without it. -/
theorem lookup_eq (h : Bare tree i n p) {β : Type} (f : TreeNode → Option β) (hf : f n = none)
    (j : NodeId) : ((tree.release i).read j).bind f = (tree.read j).bind f := by
  by_cases hji : j=i
  · subst hji
    simp [Heap.read_release,h.read,hf]
  · rw [Heap.read_release_ne _ hji]

theorem hasResource_eq (h : Bare tree i n p) (t : ResourceType) (j : NodeId) :
    hasResource t (tree.release i) j = hasResource t tree j := by
  unfold hasResource
  rw [h.lookup_eq _ (h.resource t)]

theorem refCountOf_eq (h : Bare tree i n p) (t : ResourceType) (j : NodeId) :
    refCountOf t (tree.release i) j = refCountOf t tree j := by
  unfold refCountOf
  rw [h.lookup_eq _ (h.resource t)]

theorem pages_eq_nil (h : Bare tree i n p) (t : ResourceType) : n.pages t = [] := by
  simp [TreeNode.pages,h.resource t]

theorem nodePages_eq (h : Bare tree i n p) (t : ResourceType) (j : NodeId) :
    nodePages t (tree.release i) j = nodePages t tree j := by
  unfold nodePages
  by_cases hji : j=i
  · subst hji
    simp [Heap.read_release,h.read,h.pages_eq_nil]
  · rw [Heap.read_release_ne _ hji]

theorem pathTokens_eq (h : Bare tree i n p) (hT : TreeOK ps tree) {m : TreeNode}
    (hj : tree.read j = some m) (hji : j ≠ i) :
    pathTokens (tree.release i) j = pathTokens tree j := by
  unfold pathTokens rootToLeaf
  rw [h.leafToRoot_eq hT hj hji]
  refine List.flatMap_congr fun k hk => nodeTokens_release ?_
  rintro rfl
  exact h.notMem_leafToRoot hT hj hji (List.mem_reverse.mp hk)

theorem pathPages_eq (h : Bare tree i n p) (hT : TreeOK ps tree) {m : TreeNode}
    (hj : tree.read j = some m) (hji : j ≠ i) :
    pathPages t (tree.release i) j = pathPages t tree j := by
  unfold pathPages rootToLeaf
  rw [h.leafToRoot_eq hT hj hji,funext (h.nodePages_eq t)]

theorem isLeaf_eq (h : Bare tree i n p) (t : ResourceType) (j : NodeId) :
    isLeaf t (tree.release i) j = isLeaf t tree j := by
  have hchild : hasChildWithPages t (tree.release i) j = hasChildWithPages t tree j := by
    unfold hasChildWithPages
    rw [Bool.eq_iff_iff,List.any_eq_true,List.any_eq_true]
    refine exists_congr fun k => ?_
    rw [h.nodePages_eq]
    by_cases hki : k=i
    · subst hki
      simp [nodePages,h.read,h.pages_eq_nil]
    · rw [mem_children,mem_children,Heap.read_release_ne _ hki]
  unfold isLeaf
  rw [hchild,h.hasResource_eq,h.nodePages_eq]
  by_cases hji : j=i
  · subst hji
    simp [hasResource,h.read,h.resource]
  · rw [Heap.read_release_ne _ hji]

/-- A bare node is on the path of no reference. -/
theorem ne_of_pinned (h : Bare tree i n p) (hT : TreeOK ps tree) {rs : Multiset NodeId}
    (ht : TierOK ps t tree rs) (hj : j ∈ rs) : j ≠ i := by
  rintro rfl
  have hres := (ht.pinned hj).2 j (hT.self_mem_leafToRoot h.read h.parent)
  simp [hasResource,h.read,h.resource] at hres

theorem tierOK (h : Bare tree i n p) (hT : TreeOK ps tree) {rs : Multiset NodeId}
    (ht : TierOK ps t tree rs) : TierOK ps t (tree.release i) rs := by
  refine ⟨fun {j} hj => ?_,fun {j} hj => ?_,fun {j} hj => ?_⟩
  · rw [h.hasResource_eq] at hj
    have hji : j ≠ i := by
      rintro rfl
      simp [hasResource,h.read,h.resource] at hj
    rw [h.nodePages_eq,nodeTokens_release hji]
    exact ht.size hj
  · rw [h.hasResource_eq] at hj
    rw [h.refCountOf_eq,ht.count hj]
    unfold refsBelow
    refine Multiset.countP_congr rfl fun k hk => ?_
    obtain ⟨⟨m,hm⟩,_⟩ := ht.pinned hk
    rw [h.leafToRoot_eq hT hm (h.ne_of_pinned hT ht hk)]
  · obtain ⟨⟨m,hm⟩,hpath⟩ := ht.pinned hj
    have hji := h.ne_of_pinned hT ht hj
    refine ⟨⟨m,by rw [Heap.read_release_ne _ hji]; exact hm⟩,fun k hk => ?_⟩
    rw [h.leafToRoot_eq hT hm hji] at hk
    rw [h.hasResource_eq]
    exact hpath k hk

theorem collect_eq (h : Bare tree i n p) (f : TreeNode → List PageId) (hf : f n = []) :
    ((tree.release i).collect f : Multiset PageId) = (tree.collect f : Multiset PageId) := by
  have hc := Heap.collect_release f tree h.read
  rw [hf] at hc
  simpa using hc

end Bare

/-- The state without node `i`. -/
def withoutNode (kv : KVPrefixCache) (i : NodeId) : KVPrefixCache :=
  { kv with tree := kv.tree.release i }

@[simp] theorem withoutNode_manager (u : ResourceType) :
    (withoutNode kv i).manager u = kv.manager u := by
  cases u <;> rfl

theorem Bare.leaves (h : Bare kv.tree i n p) {x : List NodeId} (hl : Leaves t kv x) :
    Leaves t (withoutNode kv i) x := by
  refine ⟨by simpa using hl.nodup,by simpa using hl.entries,by simpa using hl.root,?_⟩
  intro j hj
  rw [withoutNode_manager]
  simp only [withoutNode]
  rw [h.isLeaf_eq]
  exact hl.leaf j hj

theorem Bare.kvInv (h : Bare kv.tree i n p) (hinv : KVInv kv refs owned) :
    KVInv (withoutNode kv i) refs owned := by
  have hT := hinv.inv.tree
  refine ⟨⟨h.treeOK hT,?_,fun u => h.tierOK hT (hinv.inv.tier u),fun u => ?_⟩,
    fun u => h.leaves (hinv.leaves u),?_⟩
  · exact fun hj => hinv.inv.plain (Heap.of_read_release hj).1
  · have hp := hinv.inv.pages u
    unfold PagesOK collectAllPages at *
    rw [withoutNode_manager]
    simp only [withoutNode]
    rw [h.collect_eq _ (h.pages_eq_nil u)]
    exact hp
  · intro u j m q hj hq hq0 hr
    simp only [withoutNode] at hj hr ⊢
    rw [h.hasResource_eq] at hr ⊢
    exact hinv.closed u j m q (Heap.of_read_release hj).1 hq hq0 hr

theorem Bare.evolves (h : Bare kv.tree i n p) (hinv : KVInv kv refs owned) :
    Evolves refs kv (withoutNode kv i) := by
  have hT := hinv.inv.tree
  refine ⟨rfl,rfl,rfl,by simp [withoutNode],?_,?_,?_,?_,fun u => by simp⟩
  · exact fun _ hj => ⟨_,(Heap.of_read_release hj).1⟩
  · intro j m m' hj hj'
    exact h.pathTokens_eq hT hj (Heap.of_read_release hj').2
  · intro u j hj
    obtain ⟨⟨m,hm⟩,_⟩ := (hinv.inv.tier u).pinned hj
    exact h.pathPages_eq hT hm (h.ne_of_pinned hT (hinv.inv.tier u) hj)
  · exact fun u => ⟨[],by simp,by simp⟩

theorem Bare.shrinks (h : Bare kv.tree i n p) (t : ResourceType) :
    Shrinks t kv (withoutNode kv i) := by
  constructor
  · intro j m hj
    exact ⟨m,(Heap.of_read_release hj).1,rfl,rfl,Or.inl rfl⟩
  · intro j m hj hj'
    by_cases hji : j=i
    · subst hji
      rw [h.read] at hj
      cases hj
      exact ⟨by simp [coreOf,h.resource],by simp [refCountOf,h.read,h.resource]⟩
    · simp only [withoutNode] at hj'
      rw [Heap.read_release_ne _ hji,hj] at hj'
      cases hj'
  · exact frees_of_allocator_eq fun u => by rw [withoutNode_manager]

theorem Bare.capacity_eq (h : Bare kv.tree i n p) (t : ResourceType) :
    (withoutNode kv i).capacity t = kv.capacity t := by
  have hc := congrArg Multiset.card
    (h.collect_eq (TreeNode.unlockedPages t) (by simp [TreeNode.unlockedPages,h.resource]))
  simp only [Multiset.coe_card] at hc
  unfold capacity availablePages
  rw [withoutNode_manager]
  simp only [withoutNode]
  omega

/-- Where the parent is the root or still resident, a prune removes at most the node itself. -/
theorem pruneEmptyByNode_runs {Q : NodeId → KVPrefixCache → Prop}
    {E : Fault → KVPrefixCache → Prop} (hT : TreeOK kv.pageSize kv.tree)
    (hi : kv.tree.read i = some n) (hp : n.parent = some p)
    (hpar : p = 0 ∨ hasResource t kv.tree p = true)
    (stay : ¬Bare kv.tree i n p → Q i kv) (gone : Bare kv.tree i n p → Q p (withoutNode kv i)) :
    Runs (pruneEmptyByNode i) kv Q E := by
  obtain ⟨np,hnp,hd,htok,_⟩ := hT.parent hi hp
  have hpos := List.length_pos_of_ne_nil htok
  obtain ⟨d,hdep⟩ : ∃ d, n.depthInTokens+1 = d+2 := ⟨n.depthInTokens-1,by omega⟩
  unfold pruneEmptyByNode
  apply getNode_bind hi
  rw [hdep]
  unfold pruneLoop
  apply getNode_bind hi
  simp only [hp]
  rw [runs_bind,runs_get]
  split
  · next hkept =>
    apply stay
    intro hb
    have hdevice := hb.resource .device
    have hhost := hb.resource .host
    simp only [TreeNode.resource] at hdevice hhost
    simp [hb.children,hdevice,hhost] at hkept
  · next hbare =>
    simp only [ne_eq,not_or,Decidable.not_not,Bool.not_eq_true,Option.isSome_eq_false_iff,
      Option.isNone_iff_eq_none] at hbare
    have hb : Bare kv.tree i n p := by
      refine ⟨hi,hp,List.length_eq_zero_iff.mp hbare.1,fun t => ?_⟩
      cases t
      · exact hbare.2.1
      · exact hbare.2.2
    rw [runs_bind,runs_modify]
    change Runs (pruneLoop (d+1) p) (withoutNode kv i) Q E
    have hpi : p ≠ i := by
      rintro rfl
      exact hb.parent_ne hi hp
    have hnp' : (withoutNode kv i).tree.read p = some np := by
      simp only [withoutNode]
      rw [Heap.read_release_ne _ hpi]
      exact hnp
    unfold pruneLoop
    apply getNode_bind hnp'
    cases hpp : np.parent with
    | none => exact gone hb
    | some q =>
      dsimp only
      rw [runs_bind,runs_get,if_pos]
      · exact gone hb
      · rcases hpar with rfl | hpar
        · exact absurd rfl (hT.ne_zero hnp hpp)
        · refine Or.inr ?_
          simp only [hasResource,hnp,Option.bind_some] at hpar
          cases t
          · exact Or.inl hpar
          · exact Or.inr hpar

/-- What the prune after an eviction leaves of the evicted nodes still to be visited. -/
structure Pruning (t : ResourceType) (refs : ResourceType → Multiset NodeId)
    (owned : ResourceType → Multiset PageId) (kv₀ kv : KVPrefixCache) (evicted rest : List NodeId) :
    Prop where
  inv : KVInv kv refs owned
  evolves : Evolves refs kv₀ kv
  shrinks : Shrinks t kv₀ kv
  capacity : kv.capacity t = kv₀.capacity t
  available : kv.availablePages t = kv₀.availablePages t
  nodup : rest.Nodup
  subset : rest ⊆ evicted
  live : ∀ j ∈ rest, ∃ n, kv.tree.read j = some n
  resident : ∀ j, hasResource t kv.tree j = hasResource t kv₀.tree j

/-- The parent of an evicted node is the root, evicted or still resident. -/
theorem EvictedFrom.parent {evicted : List NodeId} (h : EvictedFrom t refs owned kv₀ kv evicted)
    (hc : Closed t kv₀.tree) (hi : i ∈ evicted) (hn : kv.tree.read i = some n)
    (hp : n.parent = some p) (hpe : p ∉ evicted) : p = 0 ∨ hasResource t kv.tree p = true := by
  by_cases hp0 : p=0
  · exact Or.inl hp0
  · obtain ⟨m,hm,hs,_⟩ := h.shrinks.live hn
    have hmp : m.parent = some p := (congrArg Prod.fst hs).symm.trans hp
    have hpr := hc i m p hm hmp hp0 (h.nodes i hi).2.2
    exact Or.inr ((h.kept p hpr).resolve_right hpe)

/-- An evicted node that the prune is to remove. -/
def Prunable (evicted : List NodeId) (tree : Heap TreeNode) (i : NodeId) : Prop :=
  ∃ n p, Bare tree i n p ∧ p ∉ evicted

/-- A change that removes some nodes and is not seen of the others. -/
structure Removes (gone : NodeId → Prop) (tree tree' : Heap TreeNode) : Prop where
  length : tree'.length = tree.length
  none : ∀ j, tree'.read j = none ↔ tree.read j = none ∨ gone j
  live : ∀ {j n'}, tree'.read j = some n' → ∃ n, tree.read j = some n ∧
    shapeOf n' = shapeOf n ∧ ∀ u, coreOf u n' = coreOf u n

theorem removes_quiet {gone : NodeId → Prop} (h : Quiet kv kv') (hgone : ∀ j, ¬gone j) :
    Removes gone kv.tree kv'.tree where
  length := (h.agree .device).length
  none j := by
    constructor
    · intro hj
      exact .inl ((h.agree .device).symm.read_none hj)
    · rintro (hj | hj)
      · exact (h.agree .device).read_none hj
      · exact absurd hj (hgone j)
  live {j n'} hj := by
    obtain ⟨n,hn,hv⟩ := (h.agree .device).symm.read hj
    exact ⟨n,hn,(congrArg Prod.fst hv).symm,fun u => h.coreOf_eq hn hj u⟩

theorem Removes.quiet {gone : NodeId → Prop} (h : Removes gone tree kv.tree) (hq : Quiet kv kv') :
    Removes gone tree kv'.tree where
  length := (hq.agree .device).length.trans h.length
  none j := by
    rw [← h.none]
    exact ⟨(hq.agree .device).symm.read_none,(hq.agree .device).read_none⟩
  live {j n'} hj := by
    obtain ⟨m,hm,hv⟩ := (hq.agree .device).symm.read hj
    obtain ⟨n,hn,hs,hc⟩ := h.live hm
    exact ⟨n,hn,(congrArg Prod.fst hv).symm.trans hs,
      fun u => (hq.coreOf_eq hm hj u).trans (hc u)⟩

theorem removes_release (tree : Heap TreeNode) (i : NodeId) :
    Removes (· = i) tree (tree.release i) where
  length := by simp
  none j := by
    rw [Heap.read_release]
    split
    · next hji => simp [hji.symm]
    · next hji => simp [Ne.symm hji]
  live {j n'} hj := ⟨n',(Heap.of_read_release hj).1,rfl,fun _ => rfl⟩

theorem Removes.congr {gone gone' : NodeId → Prop} {tree' : Heap TreeNode}
    (h : Removes gone tree tree') (hg : ∀ j, gone j ↔ gone' j) : Removes gone' tree tree' :=
  ⟨h.length,fun j => by rw [h.none,hg],h.live⟩

/-- One turn of the prune. -/
theorem pruneTurn_returns {evicted rest : List NodeId} {kv₁ : KVPrefixCache}
    (hinv : KVInv kv₀ refs owned) (h : EvictedFrom t refs owned kv₀ kv evicted)
    (hp : Pruning t refs owned kv kv₁ evicted (i::rest)) :
    Returns (do
      let n ← getNode i
      if n.parent.any fun p => evicted.contains p then return
      let survivor ← pruneEmptyByNode i
      updateLeaves t survivor) kv₁ (fun _ kv' => Pruning t refs owned kv kv' evicted rest ∧
        Removes (fun j => j = i ∧ Prunable evicted kv₁.tree i) kv₁.tree kv'.tree) := by
  obtain ⟨n,hn⟩ := hp.live i List.mem_cons_self
  have hie : i ∈ evicted := hp.subset List.mem_cons_self
  have hrest : Pruning t refs owned kv kv₁ evicted rest :=
    ⟨hp.inv,hp.evolves,hp.shrinks,hp.capacity,hp.available,(List.nodup_cons.mp hp.nodup).2,
      fun j hj => hp.subset (List.mem_cons_of_mem _ hj),
      fun j hj => hp.live j (List.mem_cons_of_mem _ hj),hp.resident⟩
  have hbare : ∀ {p}, n.parent = some p → (Prunable evicted kv₁.tree i ↔
      Bare kv₁.tree i n p ∧ p ∉ evicted) := by
    intro p hnp
    constructor
    · rintro ⟨m,q,hb,hq⟩
      have hmn : m = n := by
        have := hb.read
        rw [hn] at this
        exact (Option.some.inj this).symm
      subst hmn
      have hpq : q = p := by
        have := hb.parent
        rw [hnp] at this
        exact (Option.some.inj this).symm
      subst hpq
      exact ⟨hb,hq⟩
    · exact fun ⟨hb,hq⟩ => ⟨n,p,hb,hq⟩
  -- the entries of the survivor and of its parent are settled once more
  have settle : ∀ {k kv₂}, Pruning t refs owned kv kv₂ evicted rest →
      Removes (fun j => j = i ∧ Prunable evicted kv₁.tree i) kv₁.tree kv₂.tree →
      (∃ m, kv₂.tree.read k = some m) → Runs (updateLeaves t k) kv₂
        (fun _ kv' => Pruning t refs owned kv kv' evicted rest ∧
          Removes (fun j => j = i ∧ Prunable evicted kv₁.tree i) kv₁.tree kv'.tree)
        (fun _ _ => False) := by
    rintro k kv₂ h₂ hr₂ ⟨m,hm⟩
    refine (updateLeaves_returns h₂.inv.inv.tree hm).runs ?_
    rintro _ kv₃ ⟨hs,hl⟩
    have ha := hs.quiet.agree t
    refine ⟨⟨⟨h₂.inv.inv.quiet hs.quiet,fun u => ?_,fun u => (h₂.inv.closed u).congr
      (hs.quiet.agree u)⟩,h₂.evolves.trans (hs.quiet.evolves refs),
      h₂.shrinks.trans (shrinks_of_quiet hs.quiet t),(hs.quiet.capacity_eq t).trans h₂.capacity,
      ?_,h₂.nodup,h₂.subset,fun j hj => ?_,fun j => by rw [ha.hasResource_eq,h₂.resident]⟩,
      hr₂.quiet hs.quiet⟩
    · by_cases hu : u=t
      · subst hu
        exact hl [] ((h₂.inv.leaves u).mono (List.nil_subset _))
      · exact hs.leaves hu (h₂.inv.leaves u)
    · rw [← h₂.available]
      unfold availablePages
      rw [hs.quiet.allocator]
    · obtain ⟨m,hm⟩ := h₂.live j hj
      obtain ⟨m',hm',_⟩ := ha.read hm
      exact ⟨m',hm'⟩
  obtain ⟨m,hm,hs,_⟩ := hp.shrinks.live hn
  have h0 : i ≠ 0 := ((hinv.inv.tier t).size (h.nodes i hie).2.2).1
  obtain ⟨p,np,hnp,hrp,_⟩ := hp.inv.inv.tree.node hn h0
  apply getNode_bind hn
  split
  · next hpar =>
    have hpe : p ∈ evicted := by simpa [hnp] using hpar
    apply And.intro hrest
    apply removes_quiet (Quiet.refl kv₁)
    rintro j ⟨_,hprune⟩
    exact ((hbare hnp).mp hprune).2 hpe
  · next hpar =>
    have hpe : p ∉ evicted := by simpa [hnp] using hpar
    have hmp : m.parent = some p := (congrArg Prod.fst hs).symm.trans hnp
    have hpres : p = 0 ∨ hasResource t kv₁.tree p = true := by
      rw [hp.resident]
      exact h.parent (hinv.closed t) hie hm hmp hpe
    rw [runs_bind]
    refine pruneEmptyByNode_runs hp.inv.inv.tree hn hnp hpres ?_ ?_
    · intro hstay
      refine settle hrest ?_ ⟨n,hn⟩
      apply removes_quiet (Quiet.refl kv₁)
      rintro j ⟨_,hprune⟩
      exact hstay ((hbare hnp).mp hprune).1
    intro hb
    have hpi : p ≠ i := by
      rintro rfl
      exact hb.parent_ne hn hnp
    refine settle ?_ ?_ ⟨np,?_⟩
    · refine ⟨hb.kvInv hp.inv,hp.evolves.trans (hb.evolves hp.inv),
        hp.shrinks.trans (hb.shrinks t),(hb.capacity_eq t).trans hp.capacity,?_,hrest.nodup,
        hrest.subset,fun j hj => ?_,fun j => ?_⟩
      · rw [← hp.available]
        unfold availablePages
        rw [withoutNode_manager]
      · obtain ⟨m,hm⟩ := hrest.live j hj
        refine ⟨m,?_⟩
        simp only [withoutNode]
        rw [Heap.read_release_ne]
        · exact hm
        · rintro rfl
          exact (List.nodup_cons.mp hp.nodup).1 hj
      · simp only [withoutNode]
        rw [hb.hasResource_eq,hp.resident]
    · apply (removes_release kv₁.tree i).congr
      intro j
      have hprune : Prunable evicted kv₁.tree i := ⟨n,p,hb,hpe⟩
      simp [hprune]
    · simp only [withoutNode]
      rw [Heap.read_release_ne _ hpi]
      exact hrp

theorem pruneEvicted_returns {evicted : List NodeId} (hinv : KVInv kv₀ refs owned)
    (h : EvictedFrom t refs owned kv₀ kv evicted) :
    Returns (pruneEvicted t evicted) kv (fun _ kv' => Pruning t refs owned kv kv' evicted []) := by
  unfold Returns pruneEvicted
  refine runs_forM _ (fun rest kv' => Pruning t refs owned kv kv' evicted rest) ?_ evicted
    ⟨h.inv,Evolves.refl _ _,Shrinks.refl t kv,rfl,rfl,h.nodup,fun _ hj => hj,
      fun j hj => (h.nodes j hj).1,fun _ => rfl⟩
  intro i rest kv₁ hp
  exact (pruneTurn_returns hinv h hp).runs fun _ _ h' => h'.1

/-- `EnsureCapacityByEvict` succeeds exactly when the free and the unlocked pages suffice. -/
theorem ensureCapacityByEvict_returns (num : Int) (hinv : KVInv kv refs owned) :
    Returns (ensureCapacityByEvict t num) kv (fun ensured kv' => KVInv kv' refs owned ∧
      Evolves refs kv kv' ∧ Shrinks t kv kv' ∧ kv'.capacity t = kv.capacity t ∧
      (ensured = true ↔ num ≤ kv.capacity t) ∧ (ensured = true ↔ num ≤ kv'.availablePages t)) := by
  unfold Returns ensureCapacityByEvict
  refine (ensureCapacity_returns num hinv).bind ?_
  rintro evicted kv₁ ⟨h,hend⟩
  refine (pruneEvicted_returns hinv h).bind ?_
  intro _ kv₂ hp
  rw [runs_bind,runs_get]
  have hcap : kv₂.capacity t = kv.capacity t := hp.capacity.trans h.capacity
  have hle : kv₂.availablePages t ≤ kv₂.capacity t := Nat.le_add_right _ _
  refine ⟨hp.inv,h.evolves.trans hp.evolves,h.shrinks.trans hp.shrinks,hcap,?_,by simp⟩
  have hav := hp.available
  have hcap₁ := hp.capacity
  rw [decide_eq_true_eq]
  omega

end FluxServe
