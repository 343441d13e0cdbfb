import FluxServe.Resource.LockProof

namespace FluxServe

open KVPrefixCache

variable {kv kv' : KVPrefixCache} {t u : ResourceType} {i j : NodeId} {n : TreeNode}
  {r : NodeResource} {refs : ResourceType → Multiset NodeId}
  {owned : ResourceType → Multiset PageId} {pages : List PageId}

/-- The pages owned outside the tree with more of tier `t`. -/
def own (t : ResourceType) (pages : List PageId) (owned : ResourceType → Multiset PageId) :
    ResourceType → Multiset PageId :=
  fun u => if u=t then ↑pages+owned u else owned u

@[simp] theorem own_same (t : ResourceType) (pages : List PageId)
    (owned : ResourceType → Multiset PageId) : own t pages owned t = ↑pages+owned t := if_pos rfl

theorem own_ne (h : u ≠ t) : own t pages owned u = owned u := if_neg h

@[simp] theorem own_nil (t : ResourceType) (owned : ResourceType → Multiset PageId) :
    own t [] owned = owned := by
  funext u
  unfold own
  split <;> simp

theorem own_append (t : ResourceType) (ps qs : List PageId)
    (owned : ResourceType → Multiset PageId) : own t (ps ++ qs) owned = own t ps (own t qs owned) := by
  funext u
  unfold own
  split
  · rw [← Multiset.coe_add,add_assoc]
  · rfl

theorem own_comm (t : ResourceType) (ps qs : List PageId)
    (owned : ResourceType → Multiset PageId) : own t ps (own t qs owned) = own t qs (own t ps owned) := by
  funext u
  unfold own
  split
  · exact add_left_comm _ _ _
  · rfl

theorem own_perm {qs : List PageId} (h : pages.Perm qs) : own t pages owned = own t qs owned := by
  funext u
  unfold own
  rw [Multiset.coe_eq_coe.mpr h]

theorem mem_collectAllPages_of_mem_pathPages {p : PageId} (h : p ∈ pathPages t kv.tree i) :
    p ∈ collectAllPages t kv := by
  unfold pathPages at h
  obtain ⟨j,_,hj⟩ := List.mem_flatMap.mp h
  unfold nodePages at hj
  cases hr : kv.tree.read j with
  | none => simp [hr] at hj
  | some n => exact Heap.mem_collect.mpr ⟨j,n,hr,by simpa [hr] using hj⟩

/-- A page owned outside the tree is on no path of the tree. -/
theorem KVPrefixCache.PagesOK.notMem_pathPages {o : Multiset PageId} (h : PagesOK t kv o)
    {p : PageId} (hp : p ∈ o) : p ∉ pathPages t kv.tree i := by
  intro hm
  have hnd : (PageAllocator.allPages (kv.manager t).allocator.totalPages : Multiset PageId).Nodup :=
    Multiset.coe_nodup.mpr List.nodup_range'
  rw [← h,Multiset.nodup_add] at hnd
  refine Multiset.disjoint_left.mp hnd.2.2 ?_ hp
  exact Multiset.mem_add.mpr (Or.inr (mem_collectAllPages_of_mem_pathPages hm))

/-- A change of one allocator alone: the tree and the leaf sets stay. -/
structure AllocStep (t : ResourceType) (kv kv' : KVPrefixCache) : Prop where
  other : ∀ u, u ≠ t → kv'.manager u = kv.manager u
  tree : kv'.tree = kv.tree
  lruLeaves : ∀ u, (kv'.manager u).lruLeaves = (kv.manager u).lruLeaves
  nodeTime : ∀ u, (kv'.manager u).nodeTime = (kv.manager u).nodeTime

theorem AllocStep.leaves {x : List NodeId} (h : AllocStep t kv kv') (hl : Leaves u kv x) :
    Leaves u kv' x :=
  hl.congr (by rw [h.tree]; exact Agree.refl u _) (h.lruLeaves u) (h.nodeTime u)

theorem AllocStep.kvInv {owned' : ResourceType → Multiset PageId} (h : AllocStep t kv kv')
    (hk : KVInv kv refs owned) (hi : Inv kv' refs owned') : KVInv kv' refs owned' :=
  ⟨hi,fun u => h.leaves (hk.leaves u),fun u => by rw [h.tree]; exact hk.closed u⟩

theorem allocStep_setAllocator (a : PageAllocator) :
    AllocStep t kv (kv.setManager t { kv.manager t with allocator := a }) := by
  refine ⟨fun u hu => manager_setManager_ne _ _ (Ne.symm hu),by simp,fun u => ?_,fun u => ?_⟩ <;>
  · by_cases hu : t=u
    · subst hu; rw [manager_setManager]
    · rw [manager_setManager_ne _ _ hu]

theorem returned_setAllocator {a : PageAllocator}
    (ha : a.returned = (kv.manager t).allocator.returned) (u : ResourceType) :
    ((kv.setManager t { kv.manager t with allocator := a }).manager u).allocator.returned =
      (kv.manager u).allocator.returned := by
  by_cases hu : t=u
  · subst hu; rw [manager_setManager,ha]
  · rw [manager_setManager_ne _ _ hu]

theorem inv_setAllocator {owned' : ResourceType → Multiset PageId} {a : PageAllocator}
    (hinv : Inv kv refs owned) (ho : ∀ u, u ≠ t → owned' u = owned u)
    (hp : PagesOK t (kv.setManager t { kv.manager t with allocator := a }) (owned' t)) :
    Inv (kv.setManager t { kv.manager t with allocator := a }) refs owned' := by
  refine ⟨by simpa using hinv.tree,?_,by simpa using hinv.tier,?_⟩
  · rw [setManager_tree]
    exact hinv.plain
  · intro u
    by_cases hu : u=t
    · exact hu ▸ hp
    · have hpu := hinv.pages u
      rw [ho u hu]
      unfold PagesOK collectAllPages at *
      rw [manager_setManager_ne _ _ (Ne.symm hu),setManager_tree]
      exact hpu

theorem evolves_setAllocator {a : PageAllocator} (fresh : List PageId)
    (hf : a.returned = fresh ++ (kv.manager t).allocator.returned)
    (hd : ∀ i ∈ refs t, ∀ p ∈ fresh, p ∉ pathPages t kv.tree i)
    (ht : a.totalPages = (kv.manager t).allocator.totalPages) :
    Evolves refs kv (kv.setManager t { kv.manager t with allocator := a }) := by
  refine ⟨by simp,by simp,by simp,by simp,?_,?_,?_,?_,?_⟩
  · intro i n _ hi
    exact ⟨n,by simpa using hi⟩
  · exact fun _ _ => by rw [setManager_tree]
  · exact fun u i _ => by rw [setManager_tree]
  · intro u
    by_cases hu : u=t
    · subst hu
      exact ⟨fresh,by rw [manager_setManager,hf],hd⟩
    · exact ⟨[],by rw [manager_setManager_ne _ _ (Ne.symm hu)]; rfl,by simp⟩
  · intro u
    by_cases hu : u=t
    · subst hu
      rw [manager_setManager,ht]
    · rw [manager_setManager_ne _ _ (Ne.symm hu)]

/-- Pages of tier `t` were returned and none was taken. -/
structure Frees (t : ResourceType) (kv kv' : KVPrefixCache) : Prop where
  other : ∀ u, u ≠ t → (kv'.manager u).allocator = (kv.manager u).allocator
  free : (kv.manager t).allocator.freePages ⊆ (kv'.manager t).allocator.freePages
  returned : ∃ ret, (kv'.manager t).allocator.returned =
    ret ++ (kv.manager t).allocator.returned ∧
      ∀ x ∈ ret, x ∈ (kv'.manager t).allocator.freePages

theorem frees_of_allocator_eq (h : ∀ u, (kv'.manager u).allocator = (kv.manager u).allocator) :
    Frees t kv kv' := by
  refine ⟨fun u _ => h u,?_,[],?_,by simp⟩
  · rw [h]
    exact List.Subset.refl _
  · rw [h]
    rfl

theorem Frees.trans {kv'' : KVPrefixCache} (h : Frees t kv kv') (h' : Frees t kv' kv'') :
    Frees t kv kv'' := by
  obtain ⟨ret,hret,hfree⟩ := h.returned
  obtain ⟨ret',hret',hfree'⟩ := h'.returned
  refine ⟨fun u hu => (h'.other u hu).trans (h.other u hu),fun _ hx => h'.free (h.free hx),ret' ++ ret,?_,?_⟩
  · rw [hret',hret,List.append_assoc]
  · intro x hx
    rcases List.mem_append.mp hx with hx | hx
    · exact hfree' x hx
    · exact h'.free (hfree x hx)

/-- Giving owned pages back. -/
theorem deallocatePages_returns (hinv : Inv kv refs (own t pages owned)) :
    Returns (deallocatePages t pages) kv
      (fun _ kv' => Inv kv' refs owned ∧ Evolves refs kv kv' ∧ AllocStep t kv kv' ∧
        kv'.availablePages t = kv.availablePages t+pages.length ∧ Frees t kv kv') := by
  change Inv (kv.setManager t _) refs owned ∧ _
  refine ⟨?_,?_,allocStep_setAllocator _,?_,?_⟩
  · refine inv_setAllocator hinv (fun u hu => (own_ne hu).symm) ?_
    have hp := hinv.pages t
    unfold PagesOK collectAllPages at *
    rw [own_same] at hp
    simp only [manager_setManager,setManager_tree,PageAllocator.deallocate,← Multiset.coe_add,
      Multiset.coe_reverse]
    rw [← hp]
    abel
  · refine evolves_setAllocator pages rfl (fun i _ p hp => ?_) rfl
    refine (hinv.pages t).notMem_pathPages ?_
    rw [own_same]
    exact Multiset.mem_add.mpr (Or.inl hp)
  · simp only [availablePages,manager_setManager,PageAllocator.availablePages,
      PageAllocator.deallocate,List.length_append,List.length_reverse]
    omega
  · refine ⟨fun u hu => ?_,?_,pages,?_,?_⟩
    · rw [manager_setManager_ne _ _ (Ne.symm hu)]
    · rw [manager_setManager]
      exact List.subset_append_right _ _
    · rw [manager_setManager]
      rfl
    · intro x hx
      rw [manager_setManager]
      exact List.mem_append_left _ (List.mem_reverse.mpr hx)

theorem deallocatePages_nil (kv : KVPrefixCache) : deallocatePages t [] kv = .ok () kv := by
  cases t <;> rfl

theorem runs_allocatePages {Q : List PageId → KVPrefixCache → Prop}
    {E : Fault → KVPrefixCache → Prop} {num : Int} {a : PageAllocator}
    (ha : (kv.manager t).allocator.allocate num = (pages,a))
    (h : Q pages (kv.setManager t { kv.manager t with allocator := a })) :
    Runs (allocatePages t num) kv Q E := by
  unfold allocatePages
  rw [runs_bind,runs_get]
  simp only [ha]
  exact h

/-- Taking pages from the free list. -/
theorem allocatePages_returns (hinv : Inv kv refs owned) (num : Int) :
    Returns (allocatePages t num) kv
      (fun pages kv' => Inv kv' refs (own t pages owned) ∧ Evolves refs kv kv' ∧
        AllocStep t kv kv' ∧ kv.availablePages t = kv'.availablePages t+pages.length ∧
        (num ≤ kv.availablePages t → (pages.length : Int) = max 0 num) ∧
        (kv.availablePages t < num → pages = []) ∧
        ∀ u, (kv'.manager u).allocator.returned = (kv.manager u).allocator.returned) := by
  by_cases hn : num ≤ 0 ∨ ((kv.manager t).allocator.freePages.length : Int) < num
  · have ha : (kv.manager t).allocator.allocate num = ([],(kv.manager t).allocator) := by
      simp [PageAllocator.allocate,hn]
    apply runs_allocatePages ha
    refine ⟨?_,evolves_setAllocator [] rfl (by simp) rfl,allocStep_setAllocator _,?_,?_,
      fun _ => rfl,returned_setAllocator rfl⟩
    · rw [own_nil]
      refine inv_setAllocator hinv (fun _ _ => rfl) ?_
      have hp := hinv.pages t
      unfold PagesOK collectAllPages at *
      simpa using hp
    · simp [availablePages]
    · intro hle
      simp only [availablePages,PageAllocator.availablePages] at hle
      simp
      omega
  · rw [not_or] at hn
    let k := num.toNat
    have hk : k ≤ (kv.manager t).allocator.freePages.length := by omega
    have ha : (kv.manager t).allocator.allocate num =
        ((kv.manager t).allocator.freePages.take k,
          { (kv.manager t).allocator with
            freePages := (kv.manager t).allocator.freePages.drop k }) := by
      simp only [PageAllocator.allocate]
      rw [if_neg (by omega)]
    apply runs_allocatePages ha
    refine ⟨?_,evolves_setAllocator [] rfl (by simp) rfl,allocStep_setAllocator _,?_,
      ?_,?_,returned_setAllocator rfl⟩
    · refine inv_setAllocator hinv (fun u hu => own_ne hu) ?_
      have hp := hinv.pages t
      unfold PagesOK collectAllPages at *
      rw [own_same]
      simp only [manager_setManager,setManager_tree]
      rw [← hp]
      have hsplit : ((kv.manager t).allocator.freePages : Multiset PageId) =
          ((kv.manager t).allocator.freePages.take k : Multiset PageId)+
            ((kv.manager t).allocator.freePages.drop k : Multiset PageId) := by
        rw [Multiset.coe_add,List.take_append_drop]
      rw [hsplit]
      abel
    · simp [availablePages,PageAllocator.availablePages]
      omega
    · intro _
      simp
      omega
    · intro hlt
      simp only [availablePages,PageAllocator.availablePages] at hlt
      omega

theorem takeFirst_bind {α : Type} {f : List PageId × List PageId → KV α}
    {Q : α → KVPrefixCache → Prop} {E : Fault → KVPrefixCache → Prop} {k : Int} (h0 : 0 ≤ k)
    (hk : k ≤ pages.length) (h : Runs (f (pages.take k.toNat,pages.drop k.toNat)) kv Q E) :
    Runs (takeFirst pages k >>= f) kv Q E := by
  unfold takeFirst
  rw [if_neg (by omega)]
  exact h

theorem takeLast_bind {α : Type} {f : List PageId × List PageId → KV α}
    {Q : α → KVPrefixCache → Prop} {E : Fault → KVPrefixCache → Prop} {k : Int} (h0 : 0 ≤ k)
    (hk : k ≤ pages.length)
    (h : Runs (f (pages.drop (pages.length-k.toNat),pages.take (pages.length-k.toNat))) kv Q E) :
    Runs (takeLast pages k >>= f) kv Q E := by
  unfold takeLast
  rw [if_neg (by omega)]
  exact h

section SetResource

variable {tree : Heap TreeNode} {r' : Option NodeResource}

theorem agree_setResource (r' : Option NodeResource) (hi : tree.read i = some n) (hu : u ≠ t) :
    Agree u tree (tree.write i (n.setResource t r')) := by
  refine Agree.write hi ?_
  unfold viewOf
  rw [TreeNode.resource_setResource_ne n _ (Ne.symm hu)]
  simp [shapeOf]

theorem ResourceType.other_ne (t : ResourceType) : t.other ≠ t := by
  cases t <;> decide

theorem hasResource_setResource (hi : tree.read i = some n) (j : NodeId) :
    hasResource t (tree.write i (n.setResource t r')) j =
      if j=i then r'.isSome else hasResource t tree j := by
  unfold hasResource
  rw [Heap.read_write _ _ (Heap.lt_of_read hi)]
  by_cases hij : i=j
  · subst hij; simp
  · simp [hij,Ne.symm hij]

theorem nodePages_setResource (hi : tree.read i = some n) (j : NodeId) :
    nodePages t (tree.write i (n.setResource t r')) j =
      if j=i then (r'.map NodeResource.pages).getD [] else nodePages t tree j := by
  unfold nodePages
  rw [Heap.read_write _ _ (Heap.lt_of_read hi)]
  by_cases hij : i=j
  · subst hij; simp [TreeNode.pages]
  · simp [hij,Ne.symm hij]

theorem refCountOf_setResource (hi : tree.read i = some n) (j : NodeId) :
    refCountOf t (tree.write i (n.setResource t r')) j =
      if j=i then (r'.map NodeResource.refCount).getD 0 else refCountOf t tree j := by
  unfold refCountOf
  rw [Heap.read_write _ _ (Heap.lt_of_read hi)]
  by_cases hij : i=j
  · subst hij; simp
  · simp [hij,Ne.symm hij]

/-- Only the node and its parent can turn into or cease to be leaves. -/
theorem isLeaf_setResource (hi : tree.read i = some n) (hj : j ≠ i) (hp : n.parent ≠ some j) :
    isLeaf t (tree.write i (n.setResource t r')) j = isLeaf t tree j := by
  have ha := agree_setResource r' hi (ResourceType.other_ne t)
  have hc : hasChildWithPages t (tree.write i (n.setResource t r')) j =
      hasChildWithPages t tree j := by
    unfold hasChildWithPages
    rw [ha.children_eq]
    rw [Bool.eq_iff_iff,List.any_eq_true,List.any_eq_true]
    refine exists_congr fun k => and_congr_right fun hk => ?_
    have hki : k ≠ i := by
      rintro rfl
      obtain ⟨m,hm,hmp⟩ := mem_children.mp hk
      rw [hi] at hm
      cases hm
      exact hp hmp
    rw [nodePages_setResource hi,if_neg hki]
  unfold isLeaf
  rw [hc,hasResource_setResource hi,if_neg hj,nodePages_setResource hi,if_neg hj,ha.parent_eq]

theorem pathPages_setResource (hi : tree.read i = some n) (hj : i ∉ leafToRoot tree j) :
    pathPages t (tree.write i (n.setResource t r')) j = pathPages t tree j := by
  have ha := agree_setResource r' hi (ResourceType.other_ne t)
  unfold pathPages rootToLeaf
  rw [ha.leafToRoot_eq]
  refine List.flatMap_congr fun k hk => ?_
  rw [nodePages_setResource hi,if_neg]
  rintro rfl
  exact hj (List.mem_reverse.mp hk)

end SetResource

/-- The state once node `i` holds `r'` on tier `t`. -/
def withResource (kv : KVPrefixCache) (t : ResourceType) (i : NodeId) (n : TreeNode)
    (r' : Option NodeResource) : KVPrefixCache :=
  { kv with tree := kv.tree.write i (n.setResource t r') }

@[simp] theorem withResource_manager (r' : Option NodeResource) (u : ResourceType) :
    (withResource kv t i n r').manager u = kv.manager u := by
  cases u <;> rfl

theorem Leaves.withResource (r' : Option NodeResource) {x : List NodeId} (hl : Leaves t kv x)
    (hi : kv.tree.read i = some n) :
    Leaves t (FluxServe.withResource kv t i n r') (i :: (n.parent.toList ++ x)) := by
  refine ⟨by simpa using hl.nodup,by simpa using hl.entries,by simpa using hl.root,?_⟩
  intro j hj
  simp only [List.mem_cons,List.mem_append,Option.mem_toList,not_or] at hj
  rw [withResource_manager]
  change _ ↔ isLeaf t (kv.tree.write i (n.setResource t r')) j = true
  rw [isLeaf_setResource hi hj.1 hj.2.1]
  exact hl.leaf j hj.2.2

theorem Leaves.withResource_ne {r' : Option NodeResource} {x : List NodeId} (hu : u ≠ t)
    (hl : Leaves u kv x) (hi : kv.tree.read i = some n) :
    Leaves u (FluxServe.withResource kv t i n r') x :=
  hl.congr (agree_setResource _ hi hu) (by simp) (by simp)

theorem evolves_withResource {r' : Option NodeResource} (hi : kv.tree.read i = some n)
    (hnot : ∀ j ∈ refs t, i ∉ leafToRoot kv.tree j) :
    Evolves refs kv (withResource kv t i n r') := by
  have ha := agree_setResource r' hi (ResourceType.other_ne t)
  refine ⟨rfl,rfl,rfl,by simp [withResource],?_,?_,?_,?_,fun u => by simp⟩
  · intro j m _ hj
    obtain ⟨m',hm',_⟩ := ha.symm.read hj
    exact ⟨m',hm'⟩
  · exact fun _ _ => ha.pathTokens_eq _
  · intro u j hj
    by_cases hu : u=t
    · subst hu
      exact pathPages_setResource hi (hnot j hj)
    · exact (agree_setResource _ hi hu).pathPages_eq j
  · exact fun u => ⟨[],by simp,by simp⟩

/-- No reference goes through a node that is not resident. -/
theorem refsBelow_eq_zero_of_not_resident {ps : Nat} {rs : Multiset NodeId}
    (h : TierOK ps t kv.tree rs) (hi : hasResource t kv.tree i = false) :
    (∀ j ∈ rs, i ∉ leafToRoot kv.tree j) ∧ refsBelow kv.tree rs i = 0 := by
  have hnot : ∀ j ∈ rs, i ∉ leafToRoot kv.tree j := by
    intro j hj hm
    rw [(h.pinned hj).2 i hm] at hi
    cases hi
  exact ⟨hnot,Multiset.countP_eq_zero.mpr hnot⟩

/-- No reference goes through a node whose ref count is zero. -/
theorem notMem_path_of_refCount_zero {ps : Nat} {rs : Multiset NodeId}
    (h : TierOK ps t kv.tree rs) (hi : hasResource t kv.tree i = true)
    (h0 : refCountOf t kv.tree i = 0) : ∀ j ∈ rs, i ∉ leafToRoot kv.tree j := by
  rw [h.count hi] at h0
  exact Multiset.countP_eq_zero.mp h0

/-- The invariant with a resource of tier `t` exchanged at a node no reference goes through. -/
theorem inv_withResource {r' : Option NodeResource} {owned' : ResourceType → Multiset PageId}
    (hinv : Inv kv refs owned) (hi : kv.tree.read i = some n)
    (hnot : ∀ j ∈ refs t, i ∉ leafToRoot kv.tree j)
    (hnew : ∀ r, r' = some r → i ≠ 0 ∧ r.pages.length*kv.pageSize = n.tokens.length ∧
      r.refCount = 0)
    (ho : ∀ u, u ≠ t → owned' u = owned u)
    (hpg : ((r'.map NodeResource.pages).getD [] : Multiset PageId)+owned' t =
      (n.pages t : Multiset PageId)+owned t) :
    Inv (withResource kv t i n r') refs owned' := by
  have ha := agree_setResource r' hi (ResourceType.other_ne t)
  refine ⟨ha.treeOK hinv.tree,?_,?_,?_⟩
  · intro j m hj
    obtain ⟨m',hm',hv⟩ := ha.symm.read hj
    exact (congrArg (fun v => v.1.2.2.2) hv).symm.trans (hinv.plain hm')
  · intro u
    by_cases hu : u=t
    · subst hu
      have htier := hinv.tier u
      refine ⟨fun {j} hj => ?_,fun {j} hj => ?_,fun {j} hj => ?_⟩
      · simp only [withResource] at hj ⊢
        rw [hasResource_setResource hi] at hj
        rw [nodePages_setResource hi,ha.nodeTokens_eq]
        by_cases hji : j=i
        · subst hji
          rw [if_pos rfl] at hj ⊢
          obtain ⟨r,hr⟩ := Option.isSome_iff_exists.mp hj
          obtain ⟨h0,hl,_⟩ := hnew r hr
          refine ⟨h0,?_⟩
          simpa [hr,nodeTokens,hi] using hl
        · rw [if_neg hji] at hj ⊢
          exact htier.size hj
      · simp only [withResource] at hj ⊢
        rw [hasResource_setResource hi] at hj
        rw [refCountOf_setResource hi,refsBelow_congr ha.leafToRoot_eq]
        by_cases hji : j=i
        · subst hji
          rw [if_pos rfl] at hj ⊢
          obtain ⟨r,hr⟩ := Option.isSome_iff_exists.mp hj
          have hz : refsBelow kv.tree (refs u) j = 0 := Multiset.countP_eq_zero.mpr hnot
          rw [hz,hr]
          simpa using (hnew r hr).2.2
        · rw [if_neg hji] at hj ⊢
          exact htier.count hj
      · obtain ⟨⟨m,hm⟩,hpath⟩ := htier.pinned hj
        obtain ⟨m',hm',_⟩ := ha.read hm
        refine ⟨⟨m',hm'⟩,fun k hk => ?_⟩
        simp only [withResource] at hk ⊢
        rw [ha.leafToRoot_eq] at hk
        have hki : k ≠ i := by
          rintro rfl
          exact hnot j hj hk
        rw [hasResource_setResource hi,if_neg hki]
        exact hpath k hk
    · have hau := agree_setResource r' hi hu
      refine (hinv.tier u).congr hau fun j => ?_
      simp only [withResource]
      unfold refCountOf
      rw [Heap.read_write _ _ (Heap.lt_of_read hi)]
      by_cases hij : i=j
      · subst hij
        simp [hi,TreeNode.resource_setResource_ne n _ (Ne.symm hu)]
      · simp [hij]
  · intro u
    by_cases hu : u=t
    · subst hu
      have hp := hinv.pages u
      unfold PagesOK collectAllPages at *
      rw [withResource_manager,← hp]
      have hc := Heap.collect_write (TreeNode.pages u) kv.tree (n.setResource u r') hi
      have hnp : TreeNode.pages u (n.setResource u r') = (r'.map NodeResource.pages).getD [] := by
        simp [TreeNode.pages]
      rw [hnp] at hc
      simp only [withResource]
      -- cancel the pages the node held before
      refine add_right_cancel (b := (n.pages u : Multiset PageId)) ?_
      calc _ = ((kv.manager u).allocator.freePages : Multiset PageId)+
              (((kv.tree.write i (n.setResource u r')).collect (TreeNode.pages u) :
                Multiset PageId)+(n.pages u : Multiset PageId))+owned' u := by abel
        _ = ((kv.manager u).allocator.freePages : Multiset PageId)+
              (kv.tree.collect (TreeNode.pages u) : Multiset PageId)+
              (((r'.map NodeResource.pages).getD [] : Multiset PageId)+owned' u) := by
            rw [hc]; abel
        _ = _ := by rw [hpg]; abel
    · rw [ho u hu]
      exact (hinv.pages u).congr (agree_setResource _ hi hu) (by simp)

end FluxServe
