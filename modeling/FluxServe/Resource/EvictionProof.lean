import FluxServe.Resource.Capacity
import Mathlib.Data.Finset.Lattice.Fold

namespace FluxServe

open KVPrefixCache

variable {kv kv₀ kv' : KVPrefixCache} {t u : ResourceType} {i j : NodeId} {n : TreeNode}
  {refs : ResourceType → Multiset NodeId} {owned : ResourceType → Multiset PageId} {e : Evicted}

/-- What holds between two turns of the eviction loop started in `kv₀`. -/
structure Evicting (t : ResourceType) (refs : ResourceType → Multiset NodeId)
    (owned : ResourceType → Multiset PageId) (kv₀ kv : KVPrefixCache) (e : Evicted) : Prop where
  inv : Inv kv refs owned
  closed : ∀ u, Closed u kv.tree
  leaves : Leaves t kv e.deferredLocked
  others : ∀ u, u ≠ t → Leaves u kv []
  evolves : Evolves refs kv₀ kv
  shrinks : Shrinks t kv₀ kv
  capacity : kv.capacity t = kv₀.capacity t
  numPages : (kv.availablePages t : Int) = kv₀.availablePages t+e.numPages
  deferredNodup : e.deferredLocked.Nodup
  deferred : ∀ j ∈ e.deferredLocked, isLeaf t kv.tree j = true ∧ refCountOf t kv.tree j ≠ 0 ∧
    j ∉ (kv.manager t).nodeTime.map Prod.fst
  nodesNodup : e.nodes.Nodup
  nodes : ∀ j ∈ e.nodes, (∃ n, kv.tree.read j = some n) ∧ hasResource t kv.tree j = false ∧
    hasResource t kv₀.tree j = true
  kept : ∀ j, hasResource t kv₀.tree j = true → hasResource t kv.tree j = true ∨ j ∈ e.nodes

theorem isLeaf_iff {tree : Heap TreeNode} : isLeaf t tree i = true ↔
    hasResource t tree i = true ∧ (∃ n p, tree.read i = some n ∧ n.parent = some p) ∧
      nodePages t tree i ≠ [] ∧ hasChildWithPages t tree i = false := by
  unfold isLeaf
  simp only [Bool.and_eq_true,Option.isSome_iff_exists,Option.bind_eq_some_iff,Bool.not_eq_true',
    List.isEmpty_eq_false_iff]
  constructor
  · rintro ⟨⟨⟨h1,p,n,h2⟩,h3⟩,h4⟩
    exact ⟨h1,⟨n,p,h2⟩,h3,h4⟩
  · rintro ⟨h1,⟨n,p,h2⟩,h3,h4⟩
    exact ⟨⟨⟨h1,p,n,h2⟩,h3⟩,h4⟩

/-- A resident node is never without pages. -/
theorem nodePages_ne_nil_of_size {ps : Nat} {tree : Heap TreeNode} (hT : TreeOK ps tree)
    (hi : hasResource t tree i = true)
    (h : i ≠ 0 ∧ (nodePages t tree i).length*ps = (nodeTokens tree i).length) :
    nodePages t tree i ≠ [] := by
  obtain ⟨n,r,hn,_⟩ := exists_resource_of_hasResource hi
  obtain ⟨h0,hlen⟩ := h
  obtain ⟨p,np,_,_,_,htk,_⟩ := hT.node hn h0
  intro hnil
  rw [hnil,List.length_nil,Nat.zero_mul] at hlen
  simp only [nodeTokens,hn,Option.map_some,Option.getD_some] at hlen
  exact htk (List.length_eq_zero_iff.mp hlen.symm)

theorem nodePages_ne_nil {rs : Multiset NodeId} (hT : TreeOK kv.pageSize kv.tree)
    (h : TierOK kv.pageSize t kv.tree rs) (hi : hasResource t kv.tree i = true) :
    nodePages t kv.tree i ≠ [] := nodePages_ne_nil_of_size hT hi (h.size hi)

theorem not_hasResource_of_child {rs : Multiset NodeId} (hT : TreeOK kv.pageSize kv.tree)
    (h : TierOK kv.pageSize t kv.tree rs) (hc : hasChildWithPages t kv.tree i = false)
    (hj : kv.tree.read j = some n) (hp : n.parent = some i) : hasResource t kv.tree j = false := by
  by_contra hr
  rw [Bool.not_eq_false] at hr
  unfold hasChildWithPages at hc
  rw [List.any_eq_false] at hc
  refine hc j (mem_children.mpr ⟨n,hj,hp⟩) ?_
  simpa using nodePages_ne_nil hT h hr

/-- A leaf has no resident child. -/
theorem not_hasResource_of_isLeaf {rs : Multiset NodeId} (hT : TreeOK kv.pageSize kv.tree)
    (h : TierOK kv.pageSize t kv.tree rs) (hi : isLeaf t kv.tree i = true)
    (hj : kv.tree.read j = some n) (hp : n.parent = some i) : hasResource t kv.tree j = false :=
  not_hasResource_of_child hT h (isLeaf_iff.mp hi).2.2.2 hj hp

/-- Detaching a leaf keeps residency closed towards the root. -/
theorem closed_detach (hc : ∀ u, Closed u kv.tree)
    (hi : kv.tree.read i = some n)
    (hleaf : ∀ j m, kv.tree.read j = some m → m.parent = some i → hasResource t kv.tree j = false)
    (u : ResourceType) : Closed u (withResource kv t i n none).tree := by
  by_cases hu : u=t
  · subst hu
    intro j m p hj hp hp0 hr
    have ha := agree_setResource none hi (ResourceType.other_ne u)
    obtain ⟨m',hm',hv⟩ := ha.symm.read hj
    have hp' : m'.parent = some p := (congrArg (fun v => v.1.1) hv).trans hp
    simp only [withResource] at hr ⊢
    rw [hasResource_setResource hi] at hr ⊢
    by_cases hji : j=i
    · rw [if_pos hji] at hr
      cases hr
    · rw [if_neg hji] at hr
      by_cases hpi : p=i
      · subst hpi
        rw [hleaf j m' hm' hp'] at hr
        cases hr
      · rw [if_neg hpi]
        exact hc u j m' p hm' hp' hp0 hr
  · exact (hc u).congr (agree_setResource none hi hu)

/-- A node that is no leaf and has no entry needs no exception. -/
theorem Leaves.settled {x : List NodeId} (hl : Leaves t kv (i::x))
    (hk : i ∉ (kv.manager t).nodeTime.map Prod.fst) (hi : isLeaf t kv.tree i = false) :
    Leaves t kv x := by
  refine ⟨hl.nodup,hl.entries,hl.root,fun j hj => ?_⟩
  by_cases hji : j=i
  · subst hji
    simp [hk,hi]
  · exact hl.leaf j (by simp [hji,hj])

/-- Popping the oldest entry of the leaf sets. -/
theorem leaves_pop {ts : Timestamp} {rest : List (Timestamp × NodeId)} {x : List NodeId}
    (hl : Leaves t kv x) (hlru : (kv.manager t).lruLeaves = (ts,i) :: rest) :
    Leaves t (kv.setManager t { kv.manager t with
      lruLeaves := (kv.manager t).lruLeaves.tail
      nodeTime := dropKey i (kv.manager t).nodeTime }) (i::x) := by
  have hmem : (i,ts) ∈ (kv.manager t).nodeTime := by
    have hm : (ts,i) ∈ (kv.manager t).lruLeaves := by rw [hlru]; exact List.mem_cons_self
    obtain ⟨e,he,hs⟩ := List.mem_map.mp (hl.entries.mem_iff.mp hm)
    have : e = (i,ts) := by rw [← Prod.swap_swap e,hs]; rfl
    exact this ▸ he
  refine ⟨?_,?_,?_,?_⟩
  · rw [manager_setManager]
    exact nodup_keys_dropKey hl.nodup
  · rw [manager_setManager,hlru]
    have hp := hl.entries.trans ((perm_cons_dropKey hl.nodup hmem).map Prod.swap)
    rw [hlru] at hp
    exact List.Perm.cons_inv hp
  · rw [manager_setManager]
    exact fun h => hl.root (mem_keys_dropKey.mp h).1
  · intro j hj
    rw [manager_setManager,setManager_tree]
    rw [List.mem_cons,not_or] at hj
    exact (mem_keys_dropKey.trans (and_iff_left hj.1)).trans (hl.leaf j hj.2)

theorem mem_keys_of_lru {ts : Timestamp} {rest : List (Timestamp × NodeId)} {x : List NodeId}
    (hl : Leaves t kv x) (hlru : (kv.manager t).lruLeaves = (ts,i) :: rest) :
    i ∈ (kv.manager t).nodeTime.map Prod.fst := by
  have hm : (ts,i) ∈ (kv.manager t).lruLeaves := by rw [hlru]; exact List.mem_cons_self
  obtain ⟨e,he,hs⟩ := List.mem_map.mp (hl.entries.mem_iff.mp hm)
  exact List.mem_map.mpr ⟨e,he,congrArg Prod.snd hs⟩

/-- The oldest entry is a leaf that was not set aside. -/
theorem Evicting.oldest {ts : Timestamp} {rest : List (Timestamp × NodeId)}
    (h : Evicting t refs owned kv₀ kv e) (hlru : (kv.manager t).lruLeaves = (ts,i) :: rest) :
    isLeaf t kv.tree i = true ∧ i ∉ e.deferredLocked := by
  have hk := mem_keys_of_lru h.leaves hlru
  have hd : i ∉ e.deferredLocked := fun hd => (h.deferred i hd).2.2 hk
  exact ⟨(h.leaves.leaf i hd).mp hk,hd⟩

/-- One turn of the loop. -/
theorem evictLeaf_returns {ts : Timestamp} {rest : List (Timestamp × NodeId)}
    (h : Evicting t refs owned kv₀ kv e) (hlru : (kv.manager t).lruLeaves = (ts,i) :: rest) :
    Returns (evictLeaf t i e) kv (fun e' kv' => Evicting t refs owned kv₀ kv' e' ∧
      ((∀ j, hasResource t kv'.tree j = hasResource t kv.tree j) ∧
          kv'.tree.length = kv.tree.length ∧
          e'.deferredLocked = e.deferredLocked ++ [i] ∨
        (∀ j, hasResource t kv'.tree j = (!decide (j=i) && hasResource t kv.tree j)) ∧
          kv'.tree.length = kv.tree.length ∧
          e'.deferredLocked = e.deferredLocked)) := by
  obtain ⟨hleaf,hnd⟩ := h.oldest hlru
  obtain ⟨hres,⟨n,p,hn,hp⟩,_,_⟩ := isLeaf_iff.mp hleaf
  let m₁ : ResourceManager := { kv.manager t with
    lruLeaves := (kv.manager t).lruLeaves.tail
    nodeTime := dropKey i (kv.manager t).nodeTime }
  let kv₁ := kv.setManager t m₁
  have hs₁ : LeafStep t kv kv₁ := leafStep_setManager m₁ rfl
  have hl₁ : Leaves t kv₁ (i :: e.deferredLocked) := leaves_pop h.leaves hlru
  have hn₁ : kv₁.tree.read i = some n := by rw [setManager_tree]; exact hn
  have hkeys₁ : ∀ j, j ∈ (kv₁.manager t).nodeTime.map Prod.fst ↔
      j ∈ (kv.manager t).nodeTime.map Prod.fst ∧ j ≠ i := by
    intro j
    rw [manager_setManager]
    exact mem_keys_dropKey
  have hinv₁ := h.inv.quiet hs₁.quiet
  obtain ⟨n',r,hn',hr⟩ := exists_resource_of_hasResource hres
  rw [hn] at hn'
  cases hn'
  unfold Returns evictLeaf
  rw [runs_bind]
  change Runs _ kv₁ _ _
  apply getResource_bind hn₁ hr
  by_cases hlock : r.refCount = 0
  · -- the leaf is unlocked: it loses its pages
    rw [if_neg (by simpa using hlock),runs_bind]
    apply setResource_runs hn₁
    let kv₂ := withResource kv₁ t i n none
    change Runs _ kv₂ _ _
    have h0 : refCountOf t kv₁.tree i = 0 := by rw [refCountOf_of_resource hn₁ hr,hlock]
    have hres₁ : hasResource t kv₁.tree i = true := hasResource_of_resource hn₁ hr
    have hpages : n.pages t = r.pages := by simp [TreeNode.pages,hr]
    have hinv₂ : Inv kv₂ refs (own t r.pages owned) := by
      refine inv_withResource hinv₁ hn₁ (notMem_path_of_refCount_zero (hinv₁.tier t) hres₁ h0)
        (by simp) (fun u hu => own_ne hu) ?_
      rw [own_same,hpages]
      simp
    have hev₂ : Evolves refs kv₁ kv₂ :=
      evolves_withResource hn₁ (notMem_path_of_refCount_zero (hinv₁.tier t) hres₁ h0)
    have hchild : ∀ j m, kv₁.tree.read j = some m → m.parent = some i →
        hasResource t kv₁.tree j = false := by
      intro j m hj hm
      simp only [kv₁,setManager_tree] at hj ⊢
      exact not_hasResource_of_isLeaf h.inv.tree (h.inv.tier t) hleaf hj hm
    have hcl₂ : ∀ u, Closed u kv₂.tree :=
      closed_detach (fun u => (h.closed u).congr (hs₁.quiet.agree u))
        hn₁ hchild
    have hl₂ : Leaves t kv₂ (i :: (n.parent.toList ++ (i :: e.deferredLocked))) :=
      Leaves.withResource _ hl₁ hn₁
    have hn₂ : kv₂.tree.read i = some (n.setResource t none) :=
      Heap.read_write_self _ _ (Heap.lt_of_read hn₁)
    have hnp₂ : (n.setResource t none).parent = some p := by simpa using hp
    apply getNode_bind hn₂
    simp only [hnp₂]
    obtain ⟨np,hnp,_⟩ := hinv₂.tree.parent hn₂ hnp₂
    refine (updateLeaf_returns hinv₂.tree hnp).bind ?_
    rintro _ kv₃ ⟨hs₃,hk₃,hl₃⟩
    have hinv₃ := hinv₂.quiet hs₃.quiet
    refine (deallocatePages_returns hinv₃).bind ?_
    rintro _ kv₄ ⟨hinv₄,hev₄,hstep₄,hav₄,hfr₄⟩
    have hhas : ∀ j, hasResource t kv₄.tree j = (!decide (j=i) && hasResource t kv.tree j) := by
      intro j
      rw [hstep₄.tree,(hs₃.quiet.agree t).hasResource_eq]
      simp only [kv₂,withResource]
      rw [hasResource_setResource hn₁]
      simp only [kv₁,setManager_tree]
      by_cases hji : j=i <;> simp [hji]
    have hcnt : ∀ j, j ≠ i → refCountOf t kv₄.tree j = refCountOf t kv.tree j := by
      intro j hji
      rw [hstep₄.tree,hs₃.quiet.counts]
      simp only [kv₂,withResource]
      rw [refCountOf_setResource hn₁,if_neg hji]
      simp only [kv₁,setManager_tree]
    have hlen : kv₄.tree.length = kv.tree.length := by
      rw [hstep₄.tree,(hs₃.quiet.agree t).length]
      simp [kv₂,withResource,kv₁]
    have havail : kv₃.availablePages t = kv.availablePages t := by
      unfold availablePages
      rw [hs₃.quiet.allocator,withResource_manager,manager_setManager]
    refine ⟨⟨hinv₄,fun u => ?_,?_,fun u hu => ?_,?_,?_,?_,?_,h.deferredNodup,?_,?_,?_,?_⟩,
      Or.inr ⟨hhas,hlen,rfl⟩⟩
    · rw [hstep₄.tree]
      exact (hcl₂ u).congr (hs₃.quiet.agree u)
    · refine hstep₄.leaves (hl₃ _ ?_)
      have hx : Leaves t kv₂ (i :: p :: e.deferredLocked) := hl₂.mono (by
        intro j hj
        simp only [hp,Option.toList_some,List.cons_append,List.nil_append,List.mem_cons] at hj ⊢
        tauto)
      refine Leaves.settled hx ?_ ?_
      · rw [withResource_manager]
        simp [hkeys₁]
      · simp only [isLeaf,kv₂,withResource,hasResource_setResource hn₁]
        simp
    · refine hstep₄.leaves (hs₃.leaves hu ?_)
      exact Leaves.withResource_ne hu (hs₁.leaves hu (h.others u hu)) hn₁
    · exact (h.evolves.trans (hs₁.quiet.evolves refs)).trans
        ((hev₂.trans (hs₃.quiet.evolves refs)).trans hev₄)
    · exact (h.shrinks.trans (shrinks_of_quiet hs₁.quiet t)).trans
        (((shrinks_detach hn₁ h0).trans (shrinks_of_quiet hs₃.quiet t)).trans
          (shrinks_of_tree_eq hstep₄.tree hfr₄))
    · have hc₂ := capacity_withResource_none hn₁ h0
      rw [hpages] at hc₂
      have hc₃ := hs₃.quiet.capacity_eq t
      have hc₁ := hs₁.quiet.capacity_eq t
      have hc₄ : kv₄.capacity t = kv₃.capacity t+r.pages.length := by
        unfold KVPrefixCache.capacity
        rw [hstep₄.tree,hav₄]
        omega
      have hc := h.capacity
      change (withResource kv₁ t i n none).capacity t + _ = _ at hc₂
      change kv₃.capacity t = (withResource kv₁ t i n none).capacity t at hc₃
      omega
    · have := h.numPages
      rw [hav₄,havail]
      push_cast
      omega
    · intro j hj
      obtain ⟨hjl,hjc,hjk⟩ := h.deferred j hj
      have hji : j ≠ i := fun hji => hnd (hji ▸ hj)
      have hjp : n.parent ≠ some j := by
        intro hjp
        have := not_hasResource_of_isLeaf h.inv.tree (h.inv.tier t) hjl hn hjp
        rw [hres] at this
        cases this
      have hjp' : j ≠ p := fun hjp' => hjp (hjp' ▸ hp)
      refine ⟨?_,by rw [hcnt j hji]; exact hjc,?_⟩
      · rw [hstep₄.tree,(hs₃.quiet.agree t).isLeaf_eq]
        simp only [kv₂,withResource]
        rw [isLeaf_setResource hn₁ hji hjp]
        simp only [kv₁,setManager_tree]
        exact hjl
      · rw [hstep₄.nodeTime,hk₃ j hjp',withResource_manager,hkeys₁]
        exact fun hm => hjk hm.1
    · have hni : i ∉ e.nodes := by
        intro hi
        rw [(h.nodes i hi).2.1] at hres
        cases hres
      exact List.nodup_append.mpr ⟨h.nodesNodup,by simp,by
        intro a ha b hb
        rw [List.mem_singleton] at hb
        subst hb
        rintro rfl
        exact hni ha⟩
    · intro j hj
      rcases List.mem_append.mp hj with hj | hj
      · obtain ⟨⟨m,hm⟩,hf,ht⟩ := h.nodes j hj
        refine ⟨?_,by rw [hhas,hf]; simp,ht⟩
        obtain ⟨m₁,hm₁,_⟩ := (hs₁.quiet.agree t).read hm
        obtain ⟨m₂,hm₂,_⟩ := (agree_setResource none hn₁ (ResourceType.other_ne t)).read hm₁
        obtain ⟨m₃,hm₃,_⟩ := (hs₃.quiet.agree t).read hm₂
        exact ⟨m₃,by rw [hstep₄.tree]; exact hm₃⟩
      · rw [List.mem_singleton] at hj
        subst hj
        obtain ⟨m₃,hm₃,_⟩ := (hs₃.quiet.agree t).read hn₂
        refine ⟨⟨m₃,by rw [hstep₄.tree]; exact hm₃⟩,by rw [hhas]; simp,?_⟩
        obtain ⟨m₀,hm₀,_,_,hc⟩ := h.shrinks.live hn
        rcases hc with hc | ⟨hc,_⟩
        · simp only [coreOf,hr,Option.map_some] at hc
          obtain ⟨r₀,hr₀,_⟩ := Option.map_eq_some_iff.mp hc.symm
          exact hasResource_of_resource hm₀ hr₀
        · simp [coreOf,hr] at hc
    · intro j hj
      rcases h.kept j hj with hk | hk
      · by_cases hji : j=i
        · exact Or.inr (by simp [hji])
        · exact Or.inl (by rw [hhas]; simp [hji,hk])
      · exact Or.inr (List.mem_append_left _ hk)
  · -- the leaf is locked: it is set aside
    rw [if_pos (by simpa using hlock)]
    refine ⟨⟨hinv₁,fun u => (h.closed u).congr (hs₁.quiet.agree u),?_,
      fun u hu => hs₁.leaves hu (h.others u hu),h.evolves.trans (hs₁.quiet.evolves refs),
      h.shrinks.trans (shrinks_of_quiet hs₁.quiet t),(hs₁.quiet.capacity_eq t).trans h.capacity,
      ?_,?_,?_,h.nodesNodup,?_,?_⟩,Or.inl ⟨fun j => ?_,?_,rfl⟩⟩
    · refine hl₁.mono ?_
      intro j hj
      simp only [List.mem_cons,List.mem_append,List.not_mem_nil,or_false] at hj ⊢
      tauto
    · have := h.numPages
      unfold availablePages at *
      rw [hs₁.quiet.allocator]
      exact this
    · exact List.nodup_append.mpr ⟨h.deferredNodup,by simp,by
        intro a ha b hb
        rw [List.mem_singleton] at hb
        subst hb
        rintro rfl
        exact hnd ha⟩
    · intro j hj
      rw [(hs₁.quiet.agree t).isLeaf_eq,hs₁.quiet.counts]
      rcases List.mem_append.mp hj with hj | hj
      · obtain ⟨h1,h2,h3⟩ := h.deferred j hj
        exact ⟨h1,h2,fun hk => h3 ((hkeys₁ j).mp hk).1⟩
      · rw [List.mem_singleton] at hj
        subst hj
        refine ⟨hleaf,?_,fun hk => ((hkeys₁ j).mp hk).2 rfl⟩
        rw [refCountOf_of_resource hn hr]
        exact hlock
    · intro j hj
      obtain ⟨⟨m,hm⟩,hf,ht⟩ := h.nodes j hj
      obtain ⟨m',hm',_⟩ := (hs₁.quiet.agree t).read hm
      exact ⟨⟨m',hm'⟩,by rw [(hs₁.quiet.agree t).hasResource_eq]; exact hf,ht⟩
    · intro j hj
      rw [(hs₁.quiet.agree t).hasResource_eq]
      exact h.kept j hj
    · exact (hs₁.quiet.agree t).hasResource_eq j
    · exact (hs₁.quiet.agree t).length

/-- The resident nodes of a tier. -/
def residents (t : ResourceType) (tree : Heap TreeNode) : List NodeId :=
  (List.range tree.length).filter fun j => hasResource t tree j

theorem mem_residents {tree : Heap TreeNode} :
    j ∈ residents t tree ↔ hasResource t tree j = true := by
  unfold residents
  rw [List.mem_filter,List.mem_range]
  refine and_iff_right_of_imp fun h => ?_
  obtain ⟨n,_,hn,_⟩ := exists_resource_of_hasResource h
  exact Heap.lt_of_read hn

theorem residents_nodup (t : ResourceType) (tree : Heap TreeNode) : (residents t tree).Nodup :=
  List.nodup_range.filter _

theorem length_residents_le (t : ResourceType) (tree : Heap TreeNode) :
    (residents t tree).length ≤ tree.length := by
  have h := List.length_filter_le (fun j => hasResource t tree j) (List.range tree.length)
  rwa [List.length_range] at h

/-- Every leaf set aside and every leaf emptied brings the loop closer to its end. -/
theorem length_residents_of_detach {tree tree' : Heap TreeNode}
    (hi : hasResource t tree i = true)
    (h : ∀ j, hasResource t tree' j = (!decide (j=i) && hasResource t tree j)) :
    (residents t tree').length+1 = (residents t tree).length := by
  have hp : (i :: residents t tree').Perm (residents t tree) := by
    refine (List.perm_ext_iff_of_nodup ?_ (residents_nodup t tree)).mpr fun j => ?_
    · refine List.nodup_cons.mpr ⟨fun hm => ?_,residents_nodup t tree'⟩
      rw [mem_residents,h] at hm
      simp at hm
    · rw [List.mem_cons,mem_residents,mem_residents,h]
      by_cases hji : j=i
      · subst hji; simp [hi]
      · simp [hji]
  simpa using hp.length_eq

theorem Evicting.deferred_subset (h : Evicting t refs owned kv₀ kv e) :
    e.deferredLocked ⊆ residents t kv.tree :=
  fun j hj => mem_residents.mpr (isLeaf_iff.mp (h.deferred j hj).1).1

/-- The loop ends with enough pages or with every leaf set aside. -/
theorem evictLoop_returns (num : Int) (fuel : Nat) (h : Evicting t refs owned kv₀ kv e)
    (hf : (residents t kv.tree).length ≤ e.deferredLocked.length+fuel) :
    Returns (evictLoop t num fuel e) kv (fun e' kv' => Evicting t refs owned kv₀ kv' e' ∧
      (num ≤ e'.numPages ∨ (kv'.manager t).lruLeaves = [])) := by
  induction fuel generalizing kv e with
  | zero =>
    refine ⟨h,Or.inr ?_⟩
    cases hlru : (kv.manager t).lruLeaves with
    | nil => rfl
    | cons f rest =>
      obtain ⟨hleaf,hnd⟩ := h.oldest (i := f.2) hlru
      have hsub : (f.2 :: e.deferredLocked) ⊆ residents t kv.tree := by
        intro j hj
        rcases List.mem_cons.mp hj with rfl | hj
        · exact mem_residents.mpr (isLeaf_iff.mp hleaf).1
        · exact h.deferred_subset hj
      have hle := ((List.nodup_cons.mpr ⟨hnd,h.deferredNodup⟩).subperm hsub).length_le
      simp only [List.length_cons] at hle
      omega
  | succ fuel ih =>
    unfold Returns evictLoop
    split
    · next hnum => exact ⟨h,Or.inl hnum⟩
    · rw [runs_bind,runs_get]
      cases hlru : (kv.manager t).lruLeaves with
      | nil => exact ⟨h,Or.inr hlru⟩
      | cons f rest =>
        obtain ⟨ts,i⟩ := f
        obtain ⟨hleaf,_⟩ := h.oldest hlru
        refine (evictLeaf_returns h hlru).bind ?_
        rintro e' kv' ⟨h',hstep⟩
        refine ih h' ?_
        rcases hstep with ⟨hres,hlen,hd⟩ | ⟨hres,hlen,hd⟩
        · have hr : residents t kv'.tree = residents t kv.tree := by
            unfold residents
            rw [hlen]
            exact List.filter_congr fun j _ => hres j
          rw [hr,hd,List.length_append,List.length_singleton]
          omega
        · have := length_residents_of_detach (isLeaf_iff.mp hleaf).1 hres
          rw [hd]
          omega

/-- Putting the leaves set aside back. -/
theorem restoreDeferred_returns {ps : Nat} {x : List NodeId} (hT : TreeOK ps kv.tree)
    (hl : Leaves t kv x) (hx : x.Nodup)
    (hd : ∀ j ∈ x, isLeaf t kv.tree j = true ∧ j ∉ (kv.manager t).nodeTime.map Prod.fst) :
    Returns (x.forM (insertLeafEntry t)) kv (fun _ kv' => LeafStep t kv kv' ∧ Leaves t kv' []) := by
  let I : List NodeId → KVPrefixCache → Prop := fun rest kv' => LeafStep t kv kv' ∧
    Leaves t kv' rest ∧ rest.Nodup ∧
      ∀ j ∈ rest, isLeaf t kv'.tree j = true ∧ j ∉ (kv'.manager t).nodeTime.map Prod.fst
  refine (runs_forM _ I ?_ x ⟨LeafStep.refl t kv,hl,hx,hd⟩).imp ?_ (fun _ _ h => h)
  · rintro j rest kv₁ ⟨hs,hl₁,hnd,hd₁⟩
    obtain ⟨hleaf,hk⟩ := hd₁ j List.mem_cons_self
    obtain ⟨_,⟨n,p,hn,hp⟩,_⟩ := isLeaf_iff.mp hleaf
    have hT₁ := (hs.quiet.agree t).treeOK hT
    refine (insertLeafEntry_returns hn).runs ?_
    rintro _ kv₂ ⟨hs₂,hk₂,hl₂⟩
    refine ⟨hs.trans hs₂,hl₂ rest hl₁ hk hleaf (hT₁.ne_zero hn hp),(List.nodup_cons.mp hnd).2,?_⟩
    intro k hm
    obtain ⟨hlk,hkk⟩ := hd₁ k (List.mem_cons_of_mem _ hm)
    have hkj : k ≠ j := by
      rintro rfl
      exact (List.nodup_cons.mp hnd).1 hm
    refine ⟨?_,?_⟩
    · rw [(hs₂.quiet.agree t).isLeaf_eq]
      exact hlk
    · rw [hk₂ k hkj]
      exact hkk
  · rintro _ kv' ⟨hs,hl',_⟩
    exact ⟨hs,hl'⟩

/-- What an eviction of tier `t` leaves behind; `evicted` are the emptied nodes. -/
structure EvictedFrom (t : ResourceType) (refs : ResourceType → Multiset NodeId)
    (owned : ResourceType → Multiset PageId) (kv₀ kv : KVPrefixCache) (evicted : List NodeId) :
    Prop where
  inv : KVInv kv refs owned
  evolves : Evolves refs kv₀ kv
  shrinks : Shrinks t kv₀ kv
  capacity : kv.capacity t = kv₀.capacity t
  nodup : evicted.Nodup
  nodes : ∀ j ∈ evicted, (∃ n, kv.tree.read j = some n) ∧ hasResource t kv.tree j = false ∧
    hasResource t kv₀.tree j = true
  kept : ∀ j, hasResource t kv₀.tree j = true → hasResource t kv.tree j = true ∨ j ∈ evicted

/-- Every resident node has a leaf below it. -/
theorem exists_leaf_below {rs : Multiset NodeId} (hT : TreeOK kv.pageSize kv.tree)
    (h : TierOK kv.pageSize t kv.tree rs) (hi : hasResource t kv.tree i = true) :
    ∃ j, isLeaf t kv.tree j = true ∧ i ∈ leafToRoot kv.tree j := by
  -- induction on the distance to the greatest depth
  have hbound : ∃ B, ∀ j n, kv.tree.read j = some n → n.depthInTokens ≤ B := by
    refine ⟨(Finset.range kv.tree.length).sup (nodeDepth kv.tree),fun j n hj => ?_⟩
    have hle := Finset.le_sup (f := nodeDepth kv.tree) (Finset.mem_range.mpr (Heap.lt_of_read hj))
    simpa [nodeDepth,hj] using hle
  obtain ⟨B,hB⟩ := hbound
  have key : ∀ d i n, kv.tree.read i = some n → hasResource t kv.tree i = true →
      B-n.depthInTokens = d → ∃ j, isLeaf t kv.tree j = true ∧ i ∈ leafToRoot kv.tree j := by
    intro d
    induction d using Nat.strong_induction_on with
    | _ d ih =>
      intro i n hn hi hd
      obtain ⟨h0,_⟩ := h.size hi
      obtain ⟨p,_,hp,_⟩ := hT.node hn h0
      by_cases hc : hasChildWithPages t kv.tree i = true
      · unfold hasChildWithPages at hc
        obtain ⟨k,hk,hpg⟩ := List.any_eq_true.mp hc
        obtain ⟨m,hm,hmp⟩ := mem_children.mp hk
        have hkr : hasResource t kv.tree k = true := by
          by_contra hno
          rw [Bool.not_eq_true] at hno
          simp only [hasResource,hm,Option.bind_some,Option.isSome_eq_false_iff,
            Option.isNone_iff_eq_none] at hno
          simp [nodePages,hm,TreeNode.pages,hno] at hpg
        have hlt := hT.depth_lt hm hmp hn
        have hle := hB k m hm
        obtain ⟨j,hj,hkj⟩ := ih (B-m.depthInTokens) (by omega) k m hm hkr rfl
        refine ⟨j,hj,hT.mem_leafToRoot_trans ?_ hkj⟩
        rw [hT.leafToRoot_cons hm hmp]
        exact List.mem_cons_of_mem _ (hT.self_mem_leafToRoot hn hp)
      · refine ⟨i,isLeaf_iff.mpr ⟨hi,⟨n,p,hn,hp⟩,nodePages_ne_nil hT h hi,by simpa using hc⟩,?_⟩
        exact hT.self_mem_leafToRoot hn hp
  obtain ⟨n,_,hn,_⟩ := exists_resource_of_hasResource hi
  exact key _ i n hn hi rfl

/-- Where all leaves are locked, everything is. -/
theorem capacity_of_leaves_locked {rs : Multiset NodeId} (hT : TreeOK kv.pageSize kv.tree)
    (h : TierOK kv.pageSize t kv.tree rs)
    (hlock : ∀ j, isLeaf t kv.tree j = true → refCountOf t kv.tree j ≠ 0) :
    kv.capacity t = kv.availablePages t := by
  have hnil : kv.tree.collect (TreeNode.unlockedPages t) = [] := by
    refine List.eq_nil_iff_forall_not_mem.mpr fun p hp => ?_
    obtain ⟨i,n,hn,hp⟩ := Heap.mem_collect.mp hp
    unfold TreeNode.unlockedPages at hp
    cases hr : n.resource t with
    | none => simp [hr] at hp
    | some r =>
      have hi := hasResource_of_resource hn hr
      by_cases hc : r.refCount = 0
      · obtain ⟨j,hj,hij⟩ := exists_leaf_below hT h hi
        refine hlock j hj ?_
        have h0 : refsBelow kv.tree rs i = 0 := by
          rw [← h.count hi,refCountOf_of_resource hn hr,hc]
        rw [h.count (isLeaf_iff.mp hj).1]
        refine Multiset.countP_eq_zero.mpr fun k hk hjk => ?_
        exact Multiset.countP_eq_zero.mp h0 k hk (hT.mem_leafToRoot_trans hij hjk)
      · simp [hr,hc] at hp
  unfold capacity
  rw [hnil]
  rfl

theorem evict_returns (num : Int) (hinv : KVInv kv refs owned) :
    Returns (evict t num) kv (fun nodes kv' => EvictedFrom t refs owned kv kv' nodes ∧
      (num ≤ (kv'.availablePages t : Int)-kv.availablePages t ∨
        kv'.capacity t = kv'.availablePages t)) := by
  unfold Returns evict
  split
  · next hnum =>
    refine ⟨⟨hinv,Evolves.refl _ _,Shrinks.refl t kv,rfl,List.nodup_nil,by simp,fun j hj => Or.inl hj⟩,?_⟩
    exact Or.inl (by omega)
  · rw [runs_bind,runs_get]
    have h₀ : Evicting t refs owned kv kv {} :=
      ⟨hinv.inv,hinv.closed,hinv.leaves t,fun u _ => hinv.leaves u,Evolves.refl _ _,
        Shrinks.refl t kv,rfl,by simp,List.nodup_nil,by simp,List.nodup_nil,by simp,
        fun j hj => Or.inl hj⟩
    have hf := length_residents_le t kv.tree
    refine (evictLoop_returns num kv.tree.length h₀ (by simpa using hf)).bind ?_
    rintro e kv₁ ⟨h₁,hend⟩
    refine (restoreDeferred_returns h₁.inv.tree h₁.leaves h₁.deferredNodup
      fun j hj => ⟨(h₁.deferred j hj).1,(h₁.deferred j hj).2.2⟩).bind ?_
    rintro _ kv₂ ⟨hs,hl⟩
    have ha := hs.quiet.agree t
    have hav : kv₂.availablePages t = kv₁.availablePages t := by
      unfold availablePages
      rw [hs.quiet.allocator]
    refine ⟨⟨⟨h₁.inv.quiet hs.quiet,fun u => ?_,fun u => (h₁.closed u).congr (hs.quiet.agree u)⟩,
      h₁.evolves.trans (hs.quiet.evolves refs),h₁.shrinks.trans (shrinks_of_quiet hs.quiet t),
      (hs.quiet.capacity_eq t).trans h₁.capacity,h₁.nodesNodup,fun j hj => ?_,fun j hj => ?_⟩,?_⟩
    · by_cases hu : u=t
      · exact hu ▸ hl
      · exact hs.leaves hu (h₁.others u hu)
    · obtain ⟨⟨m,hm⟩,hf,h0⟩ := h₁.nodes j hj
      obtain ⟨m',hm',_⟩ := ha.read hm
      exact ⟨⟨m',hm'⟩,by rw [ha.hasResource_eq]; exact hf,h0⟩
    · rw [ha.hasResource_eq]
      exact h₁.kept j hj
    · rcases hend with hend | hend
      · exact Or.inl (by rw [hav,h₁.numPages]; omega)
      · refine Or.inr ?_
        rw [hs.quiet.capacity_eq t,hav]
        refine capacity_of_leaves_locked h₁.inv.tree (h₁.inv.tier t) fun j hj => ?_
        by_cases hd : j ∈ e.deferredLocked
        · exact (h₁.deferred j hd).2.1
        · have hk := (h₁.leaves.leaf j hd).mpr hj
          obtain ⟨x,hx,rfl⟩ := List.mem_map.mp hk
          have hm := h₁.leaves.entries.mem_iff.mpr (List.mem_map.mpr ⟨x,hx,rfl⟩)
          rw [hend] at hm
          cases hm

/-- `EnsureCapacity` reaches the required count unless every page left is locked. -/
theorem ensureCapacity_returns (num : Int) (hinv : KVInv kv refs owned) :
    Returns (ensureCapacity t num) kv (fun nodes kv' => EvictedFrom t refs owned kv kv' nodes ∧
      (num ≤ kv'.availablePages t ∨ kv'.capacity t = kv'.availablePages t)) := by
  have hrefl : EvictedFrom t refs owned kv kv [] :=
    ⟨hinv,Evolves.refl _ _,Shrinks.refl t kv,rfl,List.nodup_nil,by simp,fun j hj => Or.inl hj⟩
  unfold Returns ensureCapacity
  split
  · next hnum => exact ⟨hrefl,Or.inl (by omega)⟩
  · rw [runs_bind,runs_get]
    dsimp only
    split
    · next hav => exact ⟨hrefl,Or.inl hav⟩
    · refine (evict_returns _ hinv).runs ?_
      rintro nodes kv' ⟨h,hend⟩
      refine ⟨h,hend.imp (fun hle => ?_) id⟩
      omega

end FluxServe
