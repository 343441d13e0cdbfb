import FluxServe.Resource.PageMoves

namespace FluxServe

open KVPrefixCache

variable {kv kv' kv'' : KVPrefixCache} {t u : ResourceType} {i j : NodeId} {n n' : TreeNode}
  {tree tree' : Heap TreeNode} {refs : ResourceType → Multiset NodeId}
  {owned : ResourceType → Multiset PageId}

/-- The pages of a node no reference pins. -/
def TreeNode.unlockedPages (t : ResourceType) (n : TreeNode) : List PageId :=
  match n.resource t with
  | some r => if r.refCount = 0 then r.pages else []
  | none => []

/-- The pages a tier can hand out: the free ones and those of unlocked nodes. -/
def KVPrefixCache.capacity (t : ResourceType) (kv : KVPrefixCache) : Nat :=
  kv.availablePages t+(kv.tree.collect (TreeNode.unlockedPages t)).length

theorem unlockedPages_of_core (h : coreOf t n' = coreOf t n) :
    n'.unlockedPages t = n.unlockedPages t := by
  unfold coreOf at h
  unfold TreeNode.unlockedPages
  cases hr : n.resource t <;> cases hr' : n'.resource t <;> simp_all

/-- Pages and counts together determine what is seen of a node. -/
theorem coreOf_eq (ha : Agree t tree tree')
    (hc : ∀ i, refCountOf t tree' i = refCountOf t tree i) (hi : tree.read i = some n)
    (hi' : tree'.read i = some n') : coreOf t n' = coreOf t n := by
  obtain ⟨m,hm,hv⟩ := ha.read hi
  rw [hi'] at hm
  cases hm
  have hp := congrArg Prod.snd hv
  have hcnt := hc i
  simp only [viewOf] at hp
  simp only [refCountOf,hi,hi',Option.bind_some] at hcnt
  unfold coreOf
  cases hr : n.resource t <;> cases hr' : n'.resource t <;> simp_all

theorem KVPrefixCache.Quiet.coreOf_eq (h : Quiet kv kv') (hi : kv.tree.read i = some n)
    (hi' : kv'.tree.read i = some n') (u : ResourceType) : coreOf u n' = coreOf u n :=
  FluxServe.coreOf_eq (h.agree u) (h.counts u) hi hi'

theorem KVPrefixCache.Quiet.collect_unlockedPages_eq (h : Quiet kv kv') (t : ResourceType) :
    kv'.tree.collect (TreeNode.unlockedPages t) = kv.tree.collect (TreeNode.unlockedPages t) := by
  refine Heap.collect_congr (h.agree t).length fun i => ?_
  cases hi : kv.tree.read i with
  | none => simp [(h.agree t).read_none hi]
  | some n =>
    obtain ⟨n',hn',_⟩ := (h.agree t).read hi
    simp [hn',unlockedPages_of_core (h.coreOf_eq hi hn' t)]

theorem KVPrefixCache.Quiet.capacity_eq (h : Quiet kv kv') (t : ResourceType) :
    kv'.capacity t = kv.capacity t := by
  unfold capacity availablePages
  rw [h.collect_unlockedPages_eq,h.allocator]

/-- How an eviction on tier `t` changes the tree: some unlocked nodes lose their pages, some
nodes left without any page go. -/
structure Shrinks (t : ResourceType) (kv kv' : KVPrefixCache) : Prop where
  live : ∀ {j n'}, kv'.tree.read j = some n' → ∃ n, kv.tree.read j = some n ∧
    shapeOf n' = shapeOf n ∧ coreOf t.other n' = coreOf t.other n ∧
      (coreOf t n' = coreOf t n ∨ coreOf t n' = none ∧ refCountOf t kv.tree j = 0)
  gone : ∀ {j n}, kv.tree.read j = some n → kv'.tree.read j = none →
    coreOf t.other n = none ∧ refCountOf t kv.tree j = 0
  frees : Frees t kv kv'

theorem refCountOf_eq_of_core {t : ResourceType} (hi : tree.read i = some n)
    (hi' : tree'.read i = some n') (h : coreOf t n' = coreOf t n) :
    refCountOf t tree' i = refCountOf t tree i := by
  unfold coreOf at h
  unfold refCountOf
  cases hr : n.resource t <;> cases hr' : n'.resource t <;> simp_all

theorem refCountOf_eq_zero_of_core (hi : tree.read i = some n) (h : coreOf t n = none) :
    refCountOf t tree i = 0 := by
  simp only [coreOf,Option.map_eq_none_iff] at h
  simp [refCountOf,hi,h]

theorem Shrinks.refl (t : ResourceType) (kv : KVPrefixCache) : Shrinks t kv kv := by
  refine ⟨fun {j n'} hj => ⟨n',hj,rfl,rfl,Or.inl rfl⟩,fun {j n} hj hj' => ?_,
    frees_of_allocator_eq fun _ => rfl⟩
  rw [hj] at hj'
  cases hj'

theorem Shrinks.refCount_zero (h : Shrinks t kv kv') (hi : kv.tree.read i = some n)
    (hi' : kv'.tree.read i = some n') (h0 : refCountOf t kv'.tree i = 0) :
    refCountOf t kv.tree i = 0 := by
  obtain ⟨m,hm,_,_,hc⟩ := h.live hi'
  rw [hi] at hm
  cases hm
  rcases hc with hc | ⟨_,hc⟩
  · rw [← refCountOf_eq_of_core hi hi' hc]
    exact h0
  · exact hc

theorem Shrinks.trans (h : Shrinks t kv kv') (h' : Shrinks t kv' kv'') : Shrinks t kv kv'' := by
  constructor
  · intro j n'' hj''
    obtain ⟨n',hn',hs',ho',hc'⟩ := h'.live hj''
    obtain ⟨n,hn,hs,ho,hc⟩ := h.live hn'
    refine ⟨n,hn,hs'.trans hs,ho'.trans ho,?_⟩
    rcases hc' with hc' | ⟨hc',h0⟩
    · rw [hc']
      exact hc
    · exact Or.inr ⟨hc',h.refCount_zero hn hn' h0⟩
  · intro j n hj hj''
    cases hj' : kv'.tree.read j with
    | none => exact h.gone hj hj'
    | some n' =>
      obtain ⟨m,hm,_,ho,_⟩ := h.live hj'
      rw [hj] at hm
      cases hm
      obtain ⟨ho',h0⟩ := h'.gone hj' hj''
      exact ⟨by rw [← ho,ho'],h.refCount_zero hj hj' h0⟩
  · exact h.frees.trans h'.frees

theorem shrinks_of_quiet (h : Quiet kv kv') (t : ResourceType) : Shrinks t kv kv' := by
  constructor
  · intro j n' hj'
    obtain ⟨n,hn,hv⟩ := (h.agree t).symm.read hj'
    exact ⟨n,hn,(congrArg Prod.fst hv).symm,h.coreOf_eq hn hj' _,Or.inl (h.coreOf_eq hn hj' _)⟩
  · intro j n hj hj'
    obtain ⟨m,hm,_⟩ := (h.agree t).read hj
    rw [hj'] at hm
    cases hm
  · exact frees_of_allocator_eq h.allocator

theorem shrinks_of_tree_eq (h : kv'.tree = kv.tree) (hf : Frees t kv kv') : Shrinks t kv kv' := by
  have hr := Shrinks.refl t kv
  exact ⟨by rw [h]; exact hr.live,by rw [h]; exact hr.gone,hf⟩

/-- Detaching the pages of an unlocked node. -/
theorem shrinks_detach (hi : kv.tree.read i = some n) (h0 : refCountOf t kv.tree i = 0) :
    Shrinks t kv (withResource kv t i n none) := by
  constructor
  · intro j m hj
    simp only [withResource] at hj
    rw [Heap.read_write _ _ (Heap.lt_of_read hi)] at hj
    by_cases hij : i=j
    · subst hij
      rw [if_pos rfl] at hj
      cases hj
      refine ⟨n,hi,by simp [shapeOf],?_,Or.inr ⟨by simp [coreOf],h0⟩⟩
      simp [coreOf,TreeNode.resource_setResource_ne n _ (Ne.symm (ResourceType.other_ne t))]
    · rw [if_neg hij] at hj
      exact ⟨m,hj,rfl,rfl,Or.inl rfl⟩
  · intro j m hj hj'
    simp only [withResource] at hj'
    rw [Heap.read_write _ _ (Heap.lt_of_read hi)] at hj'
    split at hj'
    · cases hj'
    · rw [hj] at hj'
      cases hj'
  · exact frees_of_allocator_eq fun u => by rw [withResource_manager]

/-- Every unlocked page is in the count of an unlocked node. -/
theorem capacity_withResource_none (hi : kv.tree.read i = some n)
    (h0 : refCountOf t kv.tree i = 0) :
    (withResource kv t i n none).capacity t+(n.pages t).length = kv.capacity t := by
  have hc := Heap.collect_write (TreeNode.unlockedPages t) kv.tree (n.setResource t none) hi
  have h1 : (n.setResource t none).unlockedPages t = [] := by simp [TreeNode.unlockedPages]
  have h2 : n.unlockedPages t = n.pages t := by
    simp only [refCountOf,hi,Option.bind_some] at h0
    unfold TreeNode.unlockedPages TreeNode.pages
    cases hr : n.resource t with
    | none => rfl
    | some r =>
      have hr0 : r.refCount = 0 := by simpa [hr] using h0
      simp [hr0]
  have hcard := congrArg Multiset.card hc
  simp only [h1,h2,Multiset.card_add,Multiset.coe_card,List.length_nil,Nat.add_zero] at hcard
  unfold capacity availablePages
  rw [withResource_manager]
  simp only [withResource]
  omega

end FluxServe
