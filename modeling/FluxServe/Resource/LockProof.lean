import FluxServe.Resource.LeavesProof

namespace FluxServe

open KVPrefixCache

variable {kv kv' : KVPrefixCache} {t u : ResourceType} {i j : NodeId} {n : TreeNode}
  {r : NodeResource} {refs : ResourceType → Multiset NodeId}
  {owned : ResourceType → Multiset PageId}

/-- The references with one more on tier `t`. -/
def pin (t : ResourceType) (i : NodeId) (refs : ResourceType → Multiset NodeId) :
    ResourceType → Multiset NodeId :=
  fun u => if u=t then i ::ₘ refs u else refs u

@[simp] theorem pin_same (t : ResourceType) (i : NodeId) (refs : ResourceType → Multiset NodeId) :
    pin t i refs t = i ::ₘ refs t := if_pos rfl

theorem pin_ne (h : u ≠ t) : pin t i refs u = refs u := if_neg h

theorem le_pin (t : ResourceType) (i : NodeId) (refs : ResourceType → Multiset NodeId)
    (u : ResourceType) : refs u ≤ pin t i refs u := by
  unfold pin
  split
  · exact Multiset.le_cons_self _ _
  · exact le_rfl

theorem exists_resource_of_hasResource {tree : Heap TreeNode} (h : hasResource t tree i = true) :
    ∃ n r, tree.read i = some n ∧ n.resource t = some r := by
  unfold hasResource at h
  obtain ⟨r,hr⟩ := Option.isSome_iff_exists.mp h
  obtain ⟨n,hn,hr⟩ := Option.bind_eq_some_iff.mp hr
  exact ⟨n,r,hn,hr⟩

theorem hasResource_of_resource {tree : Heap TreeNode} (hi : tree.read i = some n)
    (hr : n.resource t = some r) : hasResource t tree i = true := by
  simp [hasResource,hi,hr]

theorem refCountOf_of_resource {tree : Heap TreeNode} (hi : tree.read i = some n)
    (hr : n.resource t = some r) : refCountOf t tree i = r.refCount := by
  simp [refCountOf,hi,hr]

theorem getResource_bind {α : Type} {f : NodeResource → KV α} {Q : α → KVPrefixCache → Prop}
    {E : Fault → KVPrefixCache → Prop} (hi : kv.tree.read i = some n)
    (hr : n.resource t = some r) (h : Runs (f r) kv Q E) :
    Runs (getResource t i >>= f) kv Q E := by
  unfold getResource
  rw [bind_assoc]
  apply getNode_bind hi
  simp only [hr]
  exact h

theorem getLeafToRoot_bind {α : Type} {f : List NodeId → KV α} {Q : α → KVPrefixCache → Prop}
    {E : Fault → KVPrefixCache → Prop} (hi : kv.tree.read i = some n)
    (h : Runs (f (leafToRoot kv.tree i)) kv Q E) : Runs (getLeafToRoot i >>= f) kv Q E := by
  unfold getLeafToRoot
  rw [bind_assoc]
  apply getNode_bind hi
  exact h

theorem setResource_runs {Q : PUnit → KVPrefixCache → Prop} {E : Fault → KVPrefixCache → Prop}
    {r : Option NodeResource} (hi : kv.tree.read i = some n)
    (h : Q ⟨⟩ { kv with tree := kv.tree.write i (n.setResource t r) }) :
    Runs (setResource t i r) kv Q E := by
  unfold setResource
  apply getNode_bind hi
  exact h

/-- Only the ref counts of tier `t` differ: `kv'` has `d` more at every resident node. -/
structure Shifted (t : ResourceType) (kv kv' : KVPrefixCache) (d : NodeId → Nat) : Prop
    extends Calm kv kv' where
  other : ∀ u, u ≠ t → ∀ i, refCountOf u kv'.tree i = refCountOf u kv.tree i
  shift : ∀ i, hasResource t kv.tree i = true →
    refCountOf t kv'.tree i = refCountOf t kv.tree i+d i

theorem calm_symm (h : Calm kv kv') : Calm kv' kv :=
  ⟨h.pageSize.symm,h.disablePrefixCache.symm,h.nextOpId.symm,fun u => (h.agree u).symm,
    fun u => (h.allocator u).symm⟩

theorem calm_setRefCount (hi : kv.tree.read i = some n) (hr : n.resource t = some r) (c : Nat) :
    Calm kv { kv with
      tree := kv.tree.write i (n.setResource t (some { r with refCount := c })) } := by
  refine ⟨rfl,rfl,rfl,fun u => Agree.write hi ?_,fun u => by cases u <;> rfl⟩
  unfold viewOf
  by_cases htu : t=u
  · subst htu; simp [hr,shapeOf]
  · rw [TreeNode.resource_setResource_ne n _ htu]
    simp [shapeOf]

theorem refCountOf_setRefCount {tree : Heap TreeNode} (hi : tree.read i = some n) (c : Nat)
    (u : ResourceType) (j : NodeId) :
    refCountOf u (tree.write i (n.setResource t (some { r with refCount := c }))) j =
      if u=t ∧ j=i then c else refCountOf u tree j := by
  unfold refCountOf
  rw [Heap.read_write _ _ (Heap.lt_of_read hi)]
  by_cases hij : i=j
  · subst hij
    by_cases htu : t=u
    · subst htu; simp
    · simp [hi,TreeNode.resource_setResource_ne n _ htu,Ne.symm htu]
  · simp [hij,Ne.symm hij]

theorem KVPrefixCache.TreeOK.leafToRoot_nodup {ps : Nat} {tree : Heap TreeNode}
    (h : TreeOK ps tree) (hi : tree.read i = some n) : (leafToRoot tree i).Nodup := by
  refine h.induction (P := fun i => (leafToRoot tree i).Nodup) ?_ ?_ i n hi
  · rw [h.leafToRoot_zero]
    exact List.nodup_nil
  · intro i n p hi hp ih
    rw [h.leafToRoot_cons hi hp,List.nodup_cons]
    refine ⟨fun hm => ?_,ih⟩
    obtain ⟨np,hnp,_⟩ := h.parent hi hp
    have hle := h.depth_le_of_mem hnp hm
    have hlt := h.depth_lt hi hp hnp
    simp only [nodeDepth,hi,Option.map_some,Option.getD_some] at hle
    omega

/-- `Lock` raises the count of every node on the path by one. -/
theorem lock_shifts (hi : kv.tree.read i = some n)
    (hres : ∀ j ∈ leafToRoot kv.tree i, hasResource t kv.tree j = true) :
    Returns (lock t i) kv (fun _ kv' => Shifted t kv kv' (fun j => (leafToRoot kv.tree i).count j) ∧
      ∀ u, kv'.manager u = kv.manager u) := by
  unfold Returns lock
  apply getLeafToRoot_bind hi
  -- the loop invariant counts the nodes already visited
  let I : List NodeId → KVPrefixCache → Prop := fun rest kv' => ∃ done, done ++ rest =
    leafToRoot kv.tree i ∧ Shifted t kv kv' (fun j => done.count j) ∧
      ∀ u, kv'.manager u = kv.manager u
  refine (runs_forM _ I ?_ (leafToRoot kv.tree i) ?_).imp ?_ (fun _ _ h => h)
  · rintro j rest kv₁ ⟨done,hdone,hs,hm⟩
    have hj : hasResource t kv.tree j = true := hres j (by rw [← hdone]; simp)
    have hj₁ : hasResource t kv₁.tree j = true := by rw [(hs.agree t).hasResource_eq]; exact hj
    obtain ⟨n₁,r₁,hn₁,hr₁⟩ := exists_resource_of_hasResource hj₁
    apply getResource_bind hn₁ hr₁
    apply setResource_runs hn₁
    refine ⟨done ++ [j],by simp [hdone],⟨hs.toCalm.trans (calm_setRefCount hn₁ hr₁ _),?_,?_⟩,?_⟩
    · intro u hu k
      rw [refCountOf_setRefCount hn₁,if_neg (by simp [hu]),hs.other u hu]
    · intro k hk
      rw [refCountOf_setRefCount hn₁]
      have hk' := hs.shift k hk
      by_cases hkj : k=j
      · subst hkj
        rw [refCountOf_of_resource hn₁ hr₁] at hk'
        simp [hk']
        omega
      · simp [hkj,hk',Ne.symm hkj]
    · exact fun u => by rw [← hm u]; cases u <;> rfl
  · exact ⟨[],by simp,⟨Calm.refl kv,fun _ _ _ => rfl,fun _ _ => by simp⟩,fun _ => rfl⟩
  · rintro _ kv' ⟨done,hdone,hs,hm⟩
    rw [List.append_nil] at hdone
    rw [hdone] at hs
    exact ⟨hs,hm⟩

theorem refsBelow_cons {tree : Heap TreeNode} (rs : Multiset NodeId) (i j : NodeId) :
    refsBelow tree (i ::ₘ rs) j = refsBelow tree rs j+if j ∈ leafToRoot tree i then 1 else 0 := by
  unfold refsBelow
  rw [Multiset.countP_cons]

/-- Counts shifted along one path are counts for one reference more. -/
theorem Shifted.tier_pin (hs : Shifted t kv kv' (fun j => (leafToRoot kv.tree i).count j))
    (hinv : Inv kv refs owned) (hi : kv.tree.read i = some n)
    (hres : ∀ j ∈ leafToRoot kv.tree i, hasResource t kv.tree j = true) (u : ResourceType) :
    TierOK kv'.pageSize u kv'.tree (pin t i refs u) := by
  rw [hs.pageSize]
  by_cases hu : u=t
  · subst hu
    rw [pin_same]
    refine ⟨fun {j} hj => ?_,fun {j} hj => ?_,fun {j} hj => ?_⟩
    · rw [(hs.agree u).hasResource_eq] at hj
      rw [(hs.agree u).nodePages_eq,(hs.agree u).nodeTokens_eq]
      exact (hinv.tier u).size hj
    · rw [(hs.agree u).hasResource_eq] at hj
      rw [hs.shift j hj,(hinv.tier u).count hj,refsBelow_congr (hs.agree u).leafToRoot_eq,
        refsBelow_cons,(hinv.tree.leafToRoot_nodup hi).count]
    · rcases Multiset.mem_cons.mp hj with rfl | hj
      · obtain ⟨n',hn',_⟩ := (hs.agree u).read hi
        refine ⟨⟨n',hn'⟩,fun k hk => ?_⟩
        rw [(hs.agree u).leafToRoot_eq] at hk
        rw [(hs.agree u).hasResource_eq]
        exact hres k hk
      · obtain ⟨⟨m,hm⟩,hpath⟩ := (hinv.tier u).pinned hj
        obtain ⟨m',hm',_⟩ := (hs.agree u).read hm
        refine ⟨⟨m',hm'⟩,fun k hk => ?_⟩
        rw [(hs.agree u).leafToRoot_eq] at hk
        rw [(hs.agree u).hasResource_eq]
        exact hpath k hk
  · rw [pin_ne hu]
    exact (hinv.tier u).congr (hs.agree u) (hs.other u hu)

/-- The invariant between operations survives a calm change whose leaf sets are in order. -/
theorem KVPrefixCache.KVInv.calm {refs' : ResourceType → Multiset NodeId}
    (hinv : KVInv kv refs owned) (hc : Calm kv kv')
    (ht : ∀ u, TierOK kv'.pageSize u kv'.tree (refs' u)) (hl : ∀ u, Leaves u kv' []) :
    KVInv kv' refs' owned :=
  ⟨hinv.inv.calm hc ht,hl,fun u => (hinv.closed u).congr (hc.agree u)⟩

theorem lock_returns (hinv : KVInv kv refs owned) (hi : kv.tree.read i = some n)
    (hres : ∀ j ∈ leafToRoot kv.tree i, hasResource t kv.tree j = true) :
    Returns (lock t i) kv (fun _ kv' => KVInv kv' (pin t i refs) owned ∧ Calm kv kv' ∧
      Shifted t kv kv' (fun j => (leafToRoot kv.tree i).count j)) := by
  refine (lock_shifts hi hres).runs ?_
  rintro _ kv' ⟨hs,hm⟩
  refine ⟨hinv.calm hs.toCalm (hs.tier_pin hinv.inv hi hres) fun u => ?_,hs.toCalm,hs⟩
  exact (hinv.leaves u).congr (hs.agree u) (by rw [hm]) (by rw [hm])

/-- `Unlock` of one node whose count is positive. -/
theorem unlockNode_returns {ps : Nat} (hT : TreeOK ps kv.tree)
    (hj : hasResource t kv.tree j = true) (hpos : 0 < refCountOf t kv.tree j)
    (hl : Leaves t kv []) :
    Returns (unlockNode t j) kv (fun _ kv' => Calm kv kv' ∧ Leaves t kv' [] ∧
      (∀ u, u ≠ t → kv'.manager u = kv.manager u) ∧
      ∀ u k, refCountOf u kv'.tree k =
        if u=t ∧ k=j then refCountOf u kv.tree k-1 else refCountOf u kv.tree k) := by
  obtain ⟨n,r,hn,hr⟩ := exists_resource_of_hasResource hj
  rw [refCountOf_of_resource hn hr] at hpos
  unfold Returns unlockNode
  apply getNode_bind hn
  simp only [hr,hpos,if_true]
  rw [runs_bind]
  apply setResource_runs hn
  have hc := calm_setRefCount hn hr (r.refCount-1)
  have hcount : ∀ u k, refCountOf u
      (kv.tree.write j (n.setResource t (some { r with refCount := r.refCount-1 }))) k =
        if u=t ∧ k=j then refCountOf u kv.tree k-1 else refCountOf u kv.tree k := by
    intro u k
    rw [refCountOf_setRefCount hn]
    split
    · next h => rw [h.1,h.2,refCountOf_of_resource hn hr]
    · rfl
  have hl' := hl.congr (hc.agree t) (by cases t <;> rfl) (by cases t <;> rfl)
  split
  · have hT' := (hc.agree t).treeOK hT
    obtain ⟨n',hn',_⟩ := (hc.agree t).read hn
    refine (updateLeaf_returns hT' hn').runs ?_
    rintro _ kv' ⟨hs,_,hlx⟩
    refine ⟨hc.trans hs.quiet.toCalm,hlx [] (hl'.mono (List.nil_subset _)),?_,?_⟩
    · intro u hu
      rw [hs.other u hu]
      cases u <;> rfl
    · intro u k
      rw [hs.quiet.counts,hcount]
  · exact ⟨hc,hl',fun u _ => by cases u <;> rfl,hcount⟩

/-- `Unlock` lowers the count of every node on the path by one and never meets a node without
the tier's resource. -/
theorem unlock_returns (hinv : KVInv kv (pin t i refs) owned) :
    Returns (unlock t i) kv (fun _ kv' => KVInv kv' refs owned ∧ Calm kv kv') := by
  obtain ⟨⟨n,hi⟩,hres⟩ := (hinv.inv.tier t).pinned (j := i) (by simp)
  have hT := hinv.inv.tree
  have hnd := hT.leafToRoot_nodup hi
  have hcountT : ∀ j ∈ leafToRoot kv.tree i,
      refCountOf t kv.tree j = refsBelow kv.tree (refs t) j+1 := by
    intro j hj
    rw [(hinv.inv.tier t).count (hres j hj),pin_same,refsBelow_cons,if_pos hj]
  unfold Returns unlock
  apply getLeafToRoot_bind hi
  let I : List NodeId → KVPrefixCache → Prop := fun rest kv' => ∃ done, done ++ rest =
    leafToRoot kv.tree i ∧ Calm kv kv' ∧ Leaves t kv' [] ∧
      (∀ u, u ≠ t → kv'.manager u = kv.manager u) ∧
      ∀ u k, refCountOf u kv'.tree k =
        if u=t ∧ k ∈ done then refCountOf u kv.tree k-1 else refCountOf u kv.tree k
  refine (runs_forM _ I ?_ (leafToRoot kv.tree i) ?_).imp ?_ (fun _ _ h => h)
  · rintro j rest kv₁ ⟨done,hdone,hc,hl,hm,hcnt⟩
    have hmem : j ∈ leafToRoot kv.tree i := by rw [← hdone]; simp
    have hnotin : j ∉ done := by
      rw [← hdone,List.nodup_append] at hnd
      exact fun h => hnd.2.2 j h j List.mem_cons_self rfl
    have hj₁ : hasResource t kv₁.tree j = true := by
      rw [(hc.agree t).hasResource_eq]; exact hres j hmem
    have hpos : 0 < refCountOf t kv₁.tree j := by
      rw [hcnt,if_neg (by simp [hnotin]),hcountT j hmem]
      omega
    refine (unlockNode_returns ((hc.agree t).treeOK hT) hj₁ hpos hl).runs ?_
    rintro _ kv₂ ⟨hc₂,hl₂,hm₂,hcnt₂⟩
    refine ⟨done ++ [j],by simp [hdone],hc.trans hc₂,hl₂,
      fun u hu => (hm₂ u hu).trans (hm u hu),fun u k => ?_⟩
    rw [hcnt₂,hcnt]
    by_cases hu : u=t
    · subst hu
      by_cases hkj : k=j
      · subst hkj; simp [hnotin]
      · simp [hkj]
    · simp [hu]
  · exact ⟨[],by simp,Calm.refl kv,hinv.leaves t,fun _ _ => rfl,by simp⟩
  · rintro _ kv' ⟨done,hdone,hc,hl,hm,hcnt⟩
    rw [List.append_nil] at hdone
    subst hdone
    refine ⟨hinv.calm hc (fun u => ?_) (fun u => ?_),hc⟩
    · rw [hc.pageSize]
      have htu := hinv.inv.tier u
      by_cases hu : u=t
      · subst hu
        rw [pin_same] at htu
        refine ⟨fun {j} hj => ?_,fun {j} hj => ?_,fun {j} hj => ?_⟩
        · rw [(hc.agree u).hasResource_eq] at hj
          rw [(hc.agree u).nodePages_eq,(hc.agree u).nodeTokens_eq]
          exact htu.size hj
        · rw [(hc.agree u).hasResource_eq] at hj
          rw [hcnt,refsBelow_congr (hc.agree u).leafToRoot_eq,htu.count hj,refsBelow_cons]
          by_cases hm : j ∈ leafToRoot kv.tree i
          · simp [hm]
          · simp [hm]
        · obtain ⟨⟨m,hm⟩,hpath⟩ := htu.pinned (Multiset.mem_cons_of_mem hj)
          obtain ⟨m',hm',_⟩ := (hc.agree u).read hm
          refine ⟨⟨m',hm'⟩,fun k hk => ?_⟩
          rw [(hc.agree u).leafToRoot_eq] at hk
          rw [(hc.agree u).hasResource_eq]
          exact hpath k hk
      · rw [pin_ne hu] at htu
        exact htu.congr (hc.agree u) (fun k => by rw [hcnt]; simp [hu])
    · by_cases hu : u=t
      · exact hu ▸ hl
      · exact (hinv.leaves u).congr (hc.agree u) (by rw [hm u hu]) (by rw [hm u hu])

theorem unlock?_returns {o : Option NodeId} {refs' : ResourceType → Multiset NodeId}
    (hinv : KVInv kv refs' owned) (hr : ∀ u, refs' u = if u=t then o.toList+refs u else refs u) :
    Returns (unlock? t o) kv (fun _ kv' => KVInv kv' refs owned ∧ Calm kv kv') := by
  cases o with
  | none =>
    have he : refs' = refs := by
      funext u
      rw [hr u]
      simp
    subst he
    exact ⟨hinv,Calm.refl kv⟩
  | some i =>
    have he : refs' = pin t i refs := by
      funext u
      rw [hr u]
      unfold pin
      simp
    subst he
    exact unlock_returns hinv

end FluxServe
