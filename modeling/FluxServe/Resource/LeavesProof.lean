import FluxServe.Resource.Invariant

namespace FluxServe

open KVPrefixCache

variable {kv kv' : KVPrefixCache} {t : ResourceType} {i : NodeId} {n : TreeNode}

theorem getNode_returns (hi : kv.tree.read i = some n) :
    Returns (getNode i) kv (fun a kv' => a = n ∧ kv' = kv) := by
  unfold Returns getNode
  rw [runs_bind,runs_get]
  simp only [hi]
  exact ⟨rfl,rfl⟩

theorem getNode_bind {α : Type} {f : TreeNode → KV α} {Q : α → KVPrefixCache → Prop}
    {E : Fault → KVPrefixCache → Prop} (hi : kv.tree.read i = some n) (h : Runs (f n) kv Q E) :
    Runs (getNode i >>= f) kv Q E := by
  refine (getNode_returns hi).bind ?_
  rintro a kv' ⟨rfl,rfl⟩
  exact h

/-- What the invariants see of a tier's resource: neither its notifier nor its owner's time. -/
def coreOf (t : ResourceType) (n : TreeNode) : Option (List PageId × Nat) :=
  (n.resource t).map fun r => (r.pages,r.refCount)

theorem viewOf_of_core {u : ResourceType} {n' : TreeNode} (hs : shapeOf n' = shapeOf n)
    (hc : coreOf u n' = coreOf u n) : viewOf u n' = viewOf u n := by
  have hp := congrArg (Option.map Prod.fst) hc
  simp only [coreOf,Option.map_map] at hp
  unfold viewOf
  rw [hs]
  exact congrArg (Prod.mk (shapeOf n)) hp

theorem refCountOf_write {u : ResourceType} {tree : Heap TreeNode} {n' : TreeNode}
    (hi : tree.read i = some n) (hc : coreOf u n' = coreOf u n) (j : NodeId) :
    refCountOf u (tree.write i n') j = refCountOf u tree j := by
  unfold refCountOf
  rw [Heap.read_write _ _ (Heap.lt_of_read hi)]
  split
  · next hij =>
    subst hij
    have hp := congrArg (fun c => (c.map Prod.snd).getD 0) hc
    simpa [coreOf,hi,Function.comp_def] using hp
  · rfl

theorem quiet_setNode {n' : TreeNode} (hi : kv.tree.read i = some n)
    (hs : shapeOf n' = shapeOf n) (hc : ∀ u, coreOf u n' = coreOf u n) :
    Quiet kv { kv with tree := kv.tree.write i n' } :=
  ⟨⟨rfl,rfl,rfl,fun u => Agree.write hi (viewOf_of_core hs (hc u)),fun u => by cases u <;> rfl⟩,
    fun u => refCountOf_write hi (hc u)⟩

theorem coreOf_setNotifier (u : ResourceType) {r : NodeResource} (hr : n.resource t = some r)
    (b : Bool) :
    coreOf u (n.setResource t (some { r with evictNotifier := b })) = coreOf u n := by
  unfold coreOf
  by_cases htu : t=u
  · subst htu; simp [hr]
  · rw [TreeNode.resource_setResource_ne n _ htu]

/-- Setting the notifier is invisible and leaves the managers alone. -/
theorem setEvictNotifier_returns (hi : kv.tree.read i = some n) (b : Bool) :
    Returns (setEvictNotifier t i b) kv
      (fun _ kv' => Quiet kv kv' ∧ ∀ u, kv'.manager u = kv.manager u) := by
  unfold Returns setEvictNotifier
  apply getNode_bind hi
  cases hr : n.resource t with
  | none => exact ⟨Quiet.refl kv,fun _ => rfl⟩
  | some r =>
    refine ⟨quiet_setNode hi (by simp [shapeOf]) fun u => coreOf_setNotifier u hr b,fun u => ?_⟩
    cases u <;> rfl

theorem touch_returns (hi : kv.tree.read i = some n) (now : Timestamp) :
    Returns (touch i now) kv (fun _ kv' => Quiet kv kv' ∧ ∀ u, kv'.manager u = kv.manager u) := by
  unfold Returns touch
  apply getNode_bind hi
  refine ⟨quiet_setNode hi rfl fun u => ?_,fun u => by cases u <;> rfl⟩
  cases u <;> rfl

/-- A change of the leaf sets of tier `t` alone. -/
structure LeafStep (t : ResourceType) (kv kv' : KVPrefixCache) : Prop where
  quiet : Quiet kv kv'
  other : ∀ u, u ≠ t → kv'.manager u = kv.manager u

theorem LeafStep.refl (t : ResourceType) (kv : KVPrefixCache) : LeafStep t kv kv :=
  ⟨Quiet.refl kv,fun _ _ => rfl⟩

theorem LeafStep.trans {kv'' : KVPrefixCache} (h : LeafStep t kv kv') (h' : LeafStep t kv' kv'') :
    LeafStep t kv kv'' :=
  ⟨h.quiet.trans h'.quiet,fun u hu => (h'.other u hu).trans (h.other u hu)⟩

theorem LeafStep.leaves {u : ResourceType} {x : List NodeId} (h : LeafStep t kv kv') (hu : u ≠ t)
    (hl : Leaves u kv x) : Leaves u kv' x :=
  hl.congr (h.quiet.agree u) (by rw [h.other u hu]) (by rw [h.other u hu])

/-- Which nodes other than `i` have an entry stays as it was. -/
def KeysExcept (t : ResourceType) (i : NodeId) (kv kv' : KVPrefixCache) : Prop :=
  ∀ j, j ≠ i → (j ∈ (kv'.manager t).nodeTime.map Prod.fst ↔
    j ∈ (kv.manager t).nodeTime.map Prod.fst)

/-- Replacing a manager by one with the same allocator. -/
theorem leafStep_setManager (m : ResourceManager) (hm : m.allocator = (kv.manager t).allocator) :
    LeafStep t kv (kv.setManager t m) := by
  refine ⟨⟨⟨by simp,by simp,by simp,fun u => ?_,fun u => ?_⟩,fun u i => ?_⟩,fun u hu => ?_⟩
  · rw [setManager_tree]
    exact Agree.refl u _
  · by_cases htu : t=u
    · subst htu; rw [manager_setManager,hm]
    · rw [manager_setManager_ne _ _ htu]
  · rw [setManager_tree]
  · exact manager_setManager_ne _ _ (Ne.symm hu)

theorem lru_notMem_of_notMem_keys {x : List NodeId} (hl : Leaves t kv x)
    (hi : i ∉ (kv.manager t).nodeTime.map Prod.fst) (ts : Timestamp) :
    (ts,i) ∉ (kv.manager t).lruLeaves := by
  intro hm
  obtain ⟨e,he,hs⟩ := List.mem_map.mp (hl.entries.mem_iff.mp hm)
  refine hi (List.mem_map.mpr ⟨e,he,?_⟩)
  have := congrArg Prod.snd hs
  simpa using this

/-- The manager once the entry of node `i` under `ts` is gone. -/
def withoutLeaf (m : ResourceManager) (ts : Timestamp) (i : NodeId) : ResourceManager :=
  { m with lruLeaves := m.lruLeaves.erase (ts,i), nodeTime := dropKey i m.nodeTime }

theorem KVPrefixCache.Leaves.withoutLeaf {x : List NodeId} {ts : Timestamp} (hl : Leaves t kv x)
    (ht : (kv.manager t).nodeTime.lookup i = some ts) :
    Leaves t (kv.setManager t (withoutLeaf (kv.manager t) ts i)) (i::x) ∧
      i ∉ (dropKey i (kv.manager t).nodeTime).map Prod.fst := by
  have hi : i ∉ (dropKey i (kv.manager t).nodeTime).map Prod.fst :=
    fun h => (mem_keys_dropKey.mp h).2 rfl
  refine ⟨⟨?_,?_,?_,?_⟩,hi⟩
  · rw [manager_setManager]
    exact nodup_keys_dropKey hl.nodup
  · rw [manager_setManager]
    have hp := (perm_cons_dropKey hl.nodup (mem_of_lookup ht)).map Prod.swap
    exact ((hl.entries.trans hp).erase (ts,i)).trans (by simp [FluxServe.withoutLeaf])
  · rw [manager_setManager]
    exact fun h => hl.root (mem_keys_dropKey.mp h).1
  · intro j hj
    rw [manager_setManager,setManager_tree]
    have hji : j ≠ i := fun h => hj (h ▸ List.mem_cons_self)
    have hjx : j ∉ x := fun h => hj (List.mem_cons_of_mem _ h)
    rw [show (FluxServe.withoutLeaf (kv.manager t) ts i).nodeTime =
      dropKey i (kv.manager t).nodeTime from rfl,mem_keys_dropKey]
    exact ⟨fun h => (hl.leaf j hjx).mp h.1,fun h => ⟨(hl.leaf j hjx).mpr h,hji⟩⟩

/-- After `removeLeaf` the node has no entry. -/
theorem removeLeaf_returns (hi : kv.tree.read i = some n) :
    Returns (removeLeaf t i) kv (fun _ kv' => LeafStep t kv kv' ∧ KeysExcept t i kv kv' ∧
      ∀ x, Leaves t kv x → Leaves t kv' (i::x) ∧
        (n.parent ≠ none → i ∉ (kv'.manager t).nodeTime.map Prod.fst)) := by
  unfold Returns removeLeaf
  apply getNode_bind hi
  by_cases hroot : n.isRoot = true
  · simp only [hroot,if_true]
    refine ⟨LeafStep.refl t kv,fun _ _ => Iff.rfl,
      fun x hl => ⟨hl.mono (List.subset_cons_self _ _),fun hp => ?_⟩⟩
    simp only [TreeNode.isRoot,Option.isNone_iff_eq_none] at hroot
    exact absurd hroot hp
  · simp only [hroot]
    rw [if_neg (by simp),runs_bind,runs_get]
    cases ht : (kv.manager t).nodeTime.lookup i with
    | none =>
      refine ⟨LeafStep.refl t kv,fun _ _ => Iff.rfl,
        fun x hl => ⟨hl.mono (List.subset_cons_self _ _),fun _ => ?_⟩⟩
      exact lookup_eq_none_iff_notMem.mp ht
    | some ts =>
      dsimp only
      rw [runs_bind]
      change Runs (setEvictNotifier t i false)
        (kv.setManager t (withoutLeaf (kv.manager t) ts i)) _ _
      have hi' : (kv.setManager t (withoutLeaf (kv.manager t) ts i)).tree.read i = some n := by
        rw [setManager_tree]; exact hi
      refine (setEvictNotifier_returns hi' false).runs ?_
      rintro _ kv' ⟨hq,hm⟩
      have h1 := leafStep_setManager (withoutLeaf (kv.manager t) ts i) (rfl : _ = (kv.manager t).allocator)
      refine ⟨h1.trans ⟨hq,fun u _ => hm u⟩,fun j hj => ?_,fun x hl => ?_⟩
      · rw [hm,manager_setManager]
        exact mem_keys_dropKey.trans (and_iff_left hj)
      obtain ⟨hl',hk⟩ := hl.withoutLeaf ht
      refine ⟨hl'.congr (hq.agree t) (by rw [hm]) (by rw [hm]),fun _ => ?_⟩
      rw [hm,manager_setManager]
      exact hk

theorem insertLeaf_perm {e : Timestamp × NodeId} {l : List (Timestamp × NodeId)} (h : e ∉ l) :
    (ResourceManager.insertLeaf e l).Perm (e::l) := by
  induction l with
  | nil => exact List.Perm.refl _
  | cons f l ih =>
    rw [List.mem_cons,not_or] at h
    unfold ResourceManager.insertLeaf
    rw [if_neg h.1]
    split
    · exact List.Perm.refl _
    · exact ((ih h.2).cons f).trans (List.Perm.swap _ _ _)

/-- Putting a leaf without an entry back into the leaf sets. -/
theorem insertLeafEntry_returns (hi : kv.tree.read i = some n) :
    Returns (insertLeafEntry t i) kv (fun _ kv' => LeafStep t kv kv' ∧ KeysExcept t i kv kv' ∧
      ∀ x, Leaves t kv (i::x) → i ∉ (kv.manager t).nodeTime.map Prod.fst →
        isLeaf t kv.tree i = true → i ≠ 0 → Leaves t kv' x) := by
  unfold Returns insertLeafEntry
  apply getNode_bind hi
  rw [runs_bind]
  let m : ResourceManager :=
    { kv.manager t with
      lruLeaves := ResourceManager.insertLeaf (n.lastAccessTime,i) (kv.manager t).lruLeaves
      nodeTime := (i,n.lastAccessTime) :: dropKey i (kv.manager t).nodeTime }
  change Runs (setEvictNotifier t i true) (kv.setManager t m) _ _
  have hi' : (kv.setManager t m).tree.read i = some n := by rw [setManager_tree]; exact hi
  refine (setEvictNotifier_returns hi' true).runs ?_
  rintro _ kv' ⟨hq,hm⟩
  have hmt : kv'.manager t = m := by rw [hm,manager_setManager]
  refine ⟨(leafStep_setManager (t := t) m rfl).trans ⟨hq,fun u _ => hm u⟩,?_,?_⟩
  · intro j hj
    rw [hmt]
    simp only [m,List.map_cons,List.mem_cons,hj,false_or]
    exact mem_keys_dropKey.trans (and_iff_left hj)
  intro x hl hk hleaf hi0
  have hd : dropKey i (kv.manager t).nodeTime = (kv.manager t).nodeTime := dropKey_of_notMem hk
  refine ⟨?_,?_,?_,?_⟩
  · rw [hmt]
    simp only [m,hd,List.map_cons,List.nodup_cons]
    exact ⟨hk,hl.nodup⟩
  · rw [hmt]
    simp only [m,hd,List.map_cons]
    exact (insertLeaf_perm (lru_notMem_of_notMem_keys hl hk _)).trans (hl.entries.cons _)
  · rw [hmt]
    simp only [m,hd,List.map_cons,List.mem_cons,not_or]
    exact ⟨Ne.symm hi0,hl.root⟩
  · intro j hj
    rw [hmt,(hq.agree t).isLeaf_eq,setManager_tree]
    simp only [m,hd,List.map_cons,List.mem_cons]
    by_cases hji : j=i
    · subst hji
      simp [hleaf]
    · simp only [hji,false_or]
      exact hl.leaf j (by simp [hji,hj])

/-- `updateLeaf` settles the node's entry, whatever it was. -/
theorem updateLeaf_returns {ps : Nat} (hT : TreeOK ps kv.tree) (hi : kv.tree.read i = some n) :
    Returns (updateLeaf t i) kv (fun _ kv' => LeafStep t kv kv' ∧ KeysExcept t i kv kv' ∧
      ∀ x, Leaves t kv (i::x) → Leaves t kv' x) := by
  unfold Returns updateLeaf
  apply getNode_bind hi
  by_cases hroot : n.isRoot = true
  · simp only [hroot,if_true]
    refine ⟨LeafStep.refl t kv,fun _ _ => Iff.rfl,
      fun x hl => ⟨hl.nodup,hl.entries,hl.root,fun j hj => ?_⟩⟩
    simp only [TreeNode.isRoot,Option.isNone_iff_eq_none] at hroot
    by_cases hji : j=i
    · subst hji
      obtain rfl := hT.root_of_parent_none hi hroot
      simp only [isLeaf,hi,Option.bind_some,hroot,Option.isSome_none,Bool.and_false,
        Bool.false_and,Bool.false_eq_true,iff_false]
      exact hl.root
    · exact hl.leaf j (by simp [hji,hj])
  · have hp : n.parent ≠ none := by simpa [TreeNode.isRoot] using hroot
    simp only [hroot]
    rw [if_neg (by simp)]
    refine (removeLeaf_returns hi).bind ?_
    rintro _ kv₁ ⟨hs,hk₁,hl₁⟩
    rw [runs_bind,runs_get]
    obtain ⟨n₁,hn₁,_⟩ := (hs.quiet.agree t).read hi
    by_cases hleaf : isLeaf t kv₁.tree i = true
    · rw [if_pos hleaf]
      refine (insertLeafEntry_returns hn₁).runs ?_
      rintro _ kv₂ ⟨hs₂,hk₂,hl₂⟩
      refine ⟨hs.trans hs₂,fun j hj => (hk₂ j hj).trans (hk₁ j hj),fun x hl => ?_⟩
      obtain ⟨hx,hk⟩ := hl₁ _ hl
      refine hl₂ x (hx.mono ?_) (hk hp) hleaf ?_
      · intro j hj
        simp only [List.mem_cons] at hj ⊢
        tauto
      · obtain ⟨p,hpp⟩ := Option.ne_none_iff_exists'.mp hp
        exact hT.ne_zero hi hpp
    · rw [if_neg hleaf]
      refine ⟨hs,hk₁,fun x hl => ?_⟩
      obtain ⟨hx,hk⟩ := hl₁ _ hl
      refine ⟨hx.nodup,hx.entries,hx.root,fun j hj => ?_⟩
      by_cases hji : j=i
      · subst hji
        exact ⟨fun h => absurd h (hk hp),fun h => absurd h hleaf⟩
      · exact hx.leaf j (by simp [hji,hj])

theorem updateLeaves_returns {ps : Nat} (hT : TreeOK ps kv.tree) (hi : kv.tree.read i = some n) :
    Returns (updateLeaves t i) kv (fun _ kv' => LeafStep t kv kv' ∧
      ∀ x, Leaves t kv (i :: (n.parent.toList ++ x)) → Leaves t kv' x) := by
  unfold Returns updateLeaves
  refine (updateLeaf_returns hT hi).bind ?_
  rintro _ kv₁ ⟨hs,_,hl₁⟩
  obtain ⟨n₁,hn₁,hv⟩ := (hs.quiet.agree t).read hi
  have hpar : n₁.parent = n.parent := congrArg (fun v => v.1.1) hv
  apply getNode_bind hn₁
  rw [hpar]
  cases hp : n.parent with
  | none =>
    refine ⟨hs,fun x hl => hl₁ x ?_⟩
    simpa [hp] using hl
  | some p =>
    have hT₁ := (hs.quiet.agree t).treeOK hT
    obtain ⟨np,hnp,_⟩ := hT₁.parent hn₁ (hpar.trans hp)
    refine (updateLeaf_returns hT₁ hnp).runs ?_
    rintro _ kv₂ ⟨hs₂,_,hl₂⟩
    refine ⟨hs.trans hs₂,fun x hl => hl₂ x (hl₁ _ ?_)⟩
    simpa [hp] using hl

end FluxServe
