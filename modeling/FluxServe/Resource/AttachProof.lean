import FluxServe.Resource.NewLeafProof

namespace FluxServe

open KVPrefixCache

variable {t u : ResourceType} {i j p : NodeId} {n : TreeNode} {kv kv' kv'' : KVPrefixCache}
  {nodes nodes' : List NodeId} {pages : List PageId}
  {refs : ResourceType → Multiset NodeId} {owned : ResourceType → Multiset PageId}

/-- `kv'` differs from `kv` by pages attached to `nodes` on tier `t`. -/
structure Attached (t : ResourceType) (nodes : List NodeId) (kv kv' : KVPrefixCache) : Prop where
  others : ∀ u, u ≠ t → (kv'.manager u).allocator = (kv.manager u).allocator
  agree : ∀ u, u ≠ t → Agree u kv.tree kv'.tree
  counts : ∀ u i, refCountOf u kv'.tree i = refCountOf u kv.tree i
  resident : ∀ i, hasResource t kv'.tree i = true ↔ hasResource t kv.tree i = true ∨ i ∈ nodes
  kept : ∀ i, hasResource t kv.tree i = true → nodePages t kv'.tree i = nodePages t kv.tree i

namespace Attached

theorem of_quiet (h : Quiet kv kv') (t : ResourceType) : Attached t [] kv kv' where
  others := fun u _ => h.allocator u
  agree := fun u _ => h.agree u
  counts := h.counts
  resident := fun i => by rw [(h.agree t).hasResource_eq]; simp
  kept := fun i _ => (h.agree t).nodePages_eq i

theorem refl (t : ResourceType) (kv : KVPrefixCache) : Attached t [] kv kv :=
  of_quiet (Quiet.refl kv) t

theorem trans (h : Attached t nodes kv kv') (h' : Attached t nodes' kv' kv'') :
    Attached t (nodes ++ nodes') kv kv'' where
  others := fun u hu => (h'.others u hu).trans (h.others u hu)
  agree := fun u hu => (h.agree u hu).trans (h'.agree u hu)
  counts := fun u i => (h'.counts u i).trans (h.counts u i)
  resident := fun i => by rw [h'.resident,h.resident,List.mem_append,or_assoc]
  kept := fun i hi => (h'.kept i ((h.resident i).mpr (Or.inl hi))).trans (h.kept i hi)

theorem shape (h : Attached t nodes kv kv') : Agree t.other kv.tree kv'.tree :=
  h.agree _ (ResourceType.other_ne t)

theorem alloc_right (h : Attached t nodes kv kv') (hs : AllocStep t kv' kv'') :
    Attached t nodes kv kv'' := by
  refine ⟨fun u hu => by rw [hs.other u hu]; exact h.others u hu,?_,?_,?_,?_⟩ <;> rw [hs.tree]
  · exact h.agree
  · exact h.counts
  · exact h.resident
  · exact h.kept

theorem alloc_left (hs : AllocStep t kv kv') (h : Attached t nodes kv' kv'') :
    Attached t nodes kv kv'' := by
  have hk := h.kept
  have hr := h.resident
  have hc := h.counts
  have ha := h.agree
  rw [hs.tree] at hk hr hc ha
  exact ⟨fun u hu => by rw [h.others u hu,hs.other u hu],ha,hc,hr,hk⟩

end Attached

/-- Attaching pages to a node without any. -/
theorem attachResource_returns (hinv : Inv kv refs (own t pages owned))
    (hi : kv.tree.read i = some n) (hp : n.parent = some p) (hnone : n.resource t = none)
    (hsize : pages.length*kv.pageSize = n.tokens.length) :
    Returns (attachResource t i pages) kv (fun _ kv' => Inv kv' refs owned ∧ Evolves refs kv kv' ∧
      Attached t [i] kv kv' ∧
      (∀ u, (kv'.manager u).allocator = (kv.manager u).allocator) ∧
      nodePages t kv'.tree i = pages ∧
      (∀ x, Leaves t kv x → Leaves t kv' (i :: (n.parent.toList ++ x))) ∧
      ∀ u, u ≠ t → ∀ x, Leaves u kv x → Leaves u kv' x) := by
  have h0 := hinv.tree.ne_zero hi hp
  have hno : hasResource t kv.tree i = false := by simp [hasResource,hi,hnone]
  have hnot := (refsBelow_eq_zero_of_not_resident (hinv.tier t) hno).1
  have hpages : n.pages t = [] := by simp [TreeNode.pages,hnone]
  unfold Returns attachResource
  apply getNode_bind hi
  unfold setNode
  rw [runs_bind,runs_modify]
  change Runs (deallocatePages t (n.pages t)) (withResource kv t i n (some { pages })) _ _
  have hinv₁ : Inv (withResource kv t i n (some { pages })) refs owned := by
    refine inv_withResource hinv hi hnot ?_ (fun u hu => (own_ne hu).symm) ?_
    · rintro r ⟨rfl⟩
      exact ⟨h0,hsize,rfl⟩
    · rw [own_same,hpages]
      simp
  have hev₁ : Evolves refs kv (withResource kv t i n (some { pages })) :=
    evolves_withResource hi hnot
  have hatt : Attached t [i] kv (withResource kv t i n (some { pages })) := by
    refine ⟨fun u _ => by rw [withResource_manager],fun u hu => agree_setResource _ hi hu,
      fun u k => ?_,fun k => ?_,fun k hk => ?_⟩
    · simp only [withResource]
      by_cases hu : u=t
      · subst hu
        rw [refCountOf_setResource hi]
        by_cases hki : k=i
        · subst hki
          simp [refCountOf,hi,hnone]
        · rw [if_neg hki]
      · unfold refCountOf
        rw [Heap.read_write _ _ (Heap.lt_of_read hi)]
        by_cases hik : i=k
        · subst hik
          simp [hi,TreeNode.resource_setResource_ne n _ (Ne.symm hu)]
        · simp [hik]
    · simp only [withResource]
      rw [hasResource_setResource hi]
      by_cases hki : k=i
      · simp [hki]
      · simp [hki]
    · simp only [withResource]
      rw [nodePages_setResource hi,if_neg]
      rintro rfl
      rw [hno] at hk
      cases hk
  rw [hpages]
  refine returns_of_ok (deallocatePages_nil _) ⟨hinv₁,hev₁,hatt,fun u => ?_,?_,fun x hl => ?_,
    fun u hu x hl => ?_⟩
  · rw [withResource_manager]
  · simp only [withResource]
    rw [nodePages_setResource hi,if_pos rfl]
    rfl
  · exact Leaves.withResource _ hl hi
  · exact Leaves.withResource_ne hu hl hi

end FluxServe
