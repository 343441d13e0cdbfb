import FluxServe.Resource.TransferProof

namespace FluxServe

open KVPrefixCache

variable {t u : ResourceType} {i j p d : NodeId} {n : TreeNode} {kv kv' kv'' : KVPrefixCache}
  {refs : ResourceType → Multiset NodeId} {owned : ResourceType → Multiset PageId}

/-- How a demotion changes the cache: unlocked nodes with a copy on the host lose their device
pages, and nothing else happens to the tree. -/
structure Demoted (refs : ResourceType → Multiset NodeId) (owned : ResourceType → Multiset PageId)
    (kv kv' : KVPrefixCache) : Prop where
  kvInv : KVInv kv' refs owned
  evolves : Evolves refs kv kv'
  agree : Agree .host kv.tree kv'.tree
  counts : ∀ j, refCountOf .host kv'.tree j = refCountOf .host kv.tree j
  capacity : kv'.capacity .device = kv.capacity .device
  shrinks : Shrinks .device kv kv'
  demoted : ∀ j, hasResource .device kv.tree j = true → hasResource .device kv'.tree j = false →
    hasResource .host kv.tree j = true ∧ refCountOf .device kv.tree j = 0

namespace Demoted

theorem refl (hinv : KVInv kv refs owned) : Demoted refs owned kv kv :=
  ⟨hinv,Evolves.refl _ _,Agree.refl _ _,fun _ => rfl,rfl,Shrinks.refl _ _,
    fun j hj hj' => by rw [hj] at hj'; cases hj'⟩

theorem trans (h : Demoted refs owned kv kv') (h' : Demoted refs owned kv' kv'') :
    Demoted refs owned kv kv'' := by
  refine ⟨h'.kvInv,h.evolves.trans h'.evolves,h.agree.trans h'.agree,
    fun j => (h'.counts j).trans (h.counts j),h'.capacity.trans h.capacity,
    h.shrinks.trans h'.shrinks,fun j hj hj'' => ?_⟩
  cases hj' : hasResource .device kv'.tree j with
  | false => exact h.demoted j hj hj'
  | true =>
    obtain ⟨hh,h0⟩ := h'.demoted j hj' hj''
    rw [h.agree.hasResource_eq] at hh
    refine ⟨hh,?_⟩
    obtain ⟨n',_,hn',_⟩ := exists_resource_of_hasResource hj'
    obtain ⟨n,_,hn,_⟩ := exists_resource_of_hasResource hj
    exact h.shrinks.refCount_zero hn hn' h0

end Demoted

/-- One node of the demotion. -/
theorem releaseOnHost_returns (hinv : KVInv kv refs owned) (hi : kv.tree.read i = some n)
    (hp : n.parent = some p) :
    Returns (releaseOnHost i) kv (fun _ kv' => Demoted refs owned kv kv') := by
  have hT := hinv.inv.tree
  unfold Returns releaseOnHost
  apply getNode_bind hi
  cases hr : n.deviceResource with
  | none => exact Demoted.refl hinv
  | some r =>
    have hr' : n.resource .device = some r := hr
    dsimp only
    split
    · exact Demoted.refl hinv
    · next hfree =>
      simp only [not_or,Decidable.not_not,Bool.not_eq_true,Option.isNone_eq_false_iff] at hfree
      obtain ⟨hhost,hzero⟩ := hfree
      rw [runs_bind,runs_get]
      split
      · exact Demoted.refl hinv
      · next hchild =>
        rw [Bool.not_eq_true] at hchild
        have h0 : refCountOf .device kv.tree i = 0 := by rw [refCountOf_of_resource hi hr',hzero]
        have hres := hasResource_of_resource hi hr'
        have hnot := notMem_path_of_refCount_zero (hinv.inv.tier .device) hres h0
        have hpages : n.pages .device = r.pages := by simp [TreeNode.pages,hr']
        refine (removeLeaf_returns hi).bind ?_
        rintro _ kv₁ ⟨hs₁,_,hl₁⟩
        obtain ⟨hl₁,hk₁⟩ := hl₁ [] (hinv.leaves .device)
        have hinv₁ := hinv.inv.quiet hs₁.quiet
        obtain ⟨n₁,hn₁,hv₁⟩ := (hs₁.quiet.agree .device).read hi
        have hp₁ : n₁.parent = some p := (congrArg (fun v => v.1.1) hv₁).trans hp
        have hpages₁ : n₁.pages .device = r.pages := by
          have := congrArg (fun v => v.2.getD []) hv₁
          exact Eq.trans this hpages
        have h0₁ : refCountOf .device kv₁.tree i = 0 := by rw [hs₁.quiet.counts]; exact h0
        have hnot₁ : ∀ j ∈ refs .device, i ∉ leafToRoot kv₁.tree j := by
          intro j hj
          rw [(hs₁.quiet.agree .device).leafToRoot_eq]
          exact hnot j hj
        rw [runs_bind]
        apply setResource_runs hn₁
        let kv₂ := withResource kv₁ .device i n₁ none
        change Runs _ kv₂ _ _
        have hinv₂ : Inv kv₂ refs (own .device r.pages owned) := by
          refine inv_withResource hinv₁ hn₁ hnot₁ (by simp) (fun u hu => own_ne hu) ?_
          rw [own_same,hpages₁]
          simp
        have hev₂ : Evolves refs kv₁ kv₂ := evolves_withResource hn₁ hnot₁
        have hcl₂ : ∀ u, Closed u kv₂.tree := by
          refine closed_detach (fun u => (hinv.closed u).congr (hs₁.quiet.agree u)) hn₁ ?_
          intro j m hj hm
          obtain ⟨m₀,hm₀,hv⟩ := (hs₁.quiet.agree .device).symm.read hj
          rw [(hs₁.quiet.agree .device).hasResource_eq]
          exact not_hasResource_of_child hT (hinv.inv.tier .device) hchild hm₀
            ((congrArg (fun v => v.1.1) hv).trans hm)
        have hl₂ := Leaves.withResource none hl₁ hn₁
        have hn₂ : kv₂.tree.read i = some (n₁.setResource .device none) :=
          Heap.read_write_self _ _ (Heap.lt_of_read hn₁)
        obtain ⟨np,hnp,_⟩ := hinv₂.tree.parent hn₂ (by simpa using hp₁)
        simp only [hp]
        refine (updateLeaves_returns hinv₂.tree hnp).bind ?_
        rintro _ kv₃ ⟨hs₃,hl₃⟩
        have hinv₃ := hinv₂.quiet hs₃.quiet
        refine (deallocatePages_returns hinv₃).bind ?_
        rintro _ kv₄ ⟨hinv₄,hev₄,hstep₄,hav₄,hfr₄⟩
        have hagree : Agree .host kv.tree kv₄.tree := by
          have h2 : Agree .host kv₁.tree kv₂.tree := agree_setResource none hn₁ (by decide)
          have h4 : Agree .host kv₃.tree kv₄.tree := by rw [hstep₄.tree]; exact Agree.refl _ _
          exact (((hs₁.quiet.agree .host).trans h2).trans (hs₃.quiet.agree .host)).trans h4
        have hhas : ∀ j, hasResource .device kv₄.tree j =
            if j=i then false else hasResource .device kv.tree j := by
          intro j
          rw [hstep₄.tree,(hs₃.quiet.agree .device).hasResource_eq]
          simp only [kv₂,withResource]
          rw [hasResource_setResource hn₁,(hs₁.quiet.agree .device).hasResource_eq]
          rfl
        refine ⟨⟨hinv₄,fun u => hstep₄.leaves ?_,fun u => ?_⟩,?_,hagree,fun j => ?_,?_,?_,?_⟩
        · by_cases hu : u = .device
          · subst hu
            refine hl₃ [] ((Leaves.settled (i := i) (x := [p]) ?_ ?_ ?_).mono ?_)
            · refine hl₂.mono ?_
              rw [hp₁]
              intro j hj
              simp only [Option.toList_some,List.cons_append,List.nil_append,List.mem_cons] at hj ⊢
              tauto
            · rw [withResource_manager]
              exact hk₁ (by rw [hp]; simp)
            · simp only [isLeaf,kv₂,withResource,hasResource_setResource hn₁]
              simp
            · intro j hj
              simp only [List.mem_cons,List.not_mem_nil,or_false] at hj ⊢
              exact Or.inl hj
          · exact hs₃.leaves hu (Leaves.withResource_ne hu (hs₁.leaves hu (hinv.leaves u)) hn₁)
        · rw [hstep₄.tree]
          exact (hcl₂ u).congr (hs₃.quiet.agree u)
        · exact (hs₁.quiet.evolves refs).trans ((hev₂.trans (hs₃.quiet.evolves refs)).trans hev₄)
        · rw [hstep₄.tree,hs₃.quiet.counts,← hs₁.quiet.counts]
          simp only [kv₂,withResource]
          unfold refCountOf
          rw [Heap.read_write _ _ (Heap.lt_of_read hn₁)]
          by_cases hij : i=j
          · subst hij
            simp [hn₁,TreeNode.resource_setResource_ne n₁ _ (show ResourceType.device ≠ .host by decide)]
          · simp [hij]
        · have hc₂ := capacity_withResource_none hn₁ h0₁
          rw [hpages₁] at hc₂
          have hc₃ := hs₃.quiet.capacity_eq .device
          have hc₁ := hs₁.quiet.capacity_eq .device
          have hc₄ : kv₄.capacity .device = kv₃.capacity .device+r.pages.length := by
            unfold KVPrefixCache.capacity
            rw [hstep₄.tree,hav₄]
            omega
          change kv₃.capacity .device = (withResource kv₁ .device i n₁ none).capacity .device at hc₃
          omega
        · exact (shrinks_of_quiet hs₁.quiet _).trans (((shrinks_detach hn₁ h0₁).trans
            (shrinks_of_quiet hs₃.quiet _)).trans (shrinks_of_tree_eq hstep₄.tree hfr₄))
        · intro j hj hj'
          rw [hhas] at hj'
          by_cases hji : j=i
          · subst hji
            exact ⟨by simpa [hasResource,hi,TreeNode.resource] using hhost,h0⟩
          · rw [if_neg hji,hj] at hj'
            cases hj'

/-- `ReleaseDeviceResourcesPresentOnHost` walks up until a node must keep its device pages. -/
theorem releaseLoop_returns (hinv : KVInv kv refs owned) (path : List NodeId)
    (hpath : ∀ j ∈ path, ∃ n p, kv.tree.read j = some n ∧ n.parent = some p) :
    Returns (releaseLoop path) kv (fun _ kv' => Demoted refs owned kv kv') := by
  induction path generalizing kv with
  | nil => exact Demoted.refl hinv
  | cons i path ih =>
    obtain ⟨n,p,hn,hp⟩ := hpath i List.mem_cons_self
    unfold Returns releaseLoop
    refine (releaseOnHost_returns hinv hn hp).bind ?_
    intro b kv₁ h₁
    cases b with
    | false => exact h₁
    | true =>
      refine (ih h₁.kvInv fun j hj => ?_).runs fun _ kv₂ h₂ => h₁.trans h₂
      obtain ⟨m,q,hm,hq⟩ := hpath j (List.mem_cons_of_mem _ hj)
      obtain ⟨m',hm',hv⟩ := h₁.agree.read hm
      exact ⟨m',q,hm',(congrArg (fun v => v.1.1) hv).trans hq⟩

theorem releaseDeviceResourcesPresentOnHost_returns (hinv : KVInv kv refs owned)
    (hd : kv.tree.read d = some n) :
    Returns (releaseDeviceResourcesPresentOnHost d) kv
      (fun _ kv' => Demoted refs owned kv kv') := by
  unfold Returns releaseDeviceResourcesPresentOnHost
  apply getLeafToRoot_bind hd
  refine releaseLoop_returns hinv _ fun j hj => ?_
  obtain ⟨m,q,hm,hq,_⟩ := hinv.inv.tree.mem_leafToRoot hj
  exact ⟨m,q,hm,hq⟩

theorem depthInPage_bind {α : Type} {f : Nat → KV α} {Q : α → KVPrefixCache → Prop}
    {E : Fault → KVPrefixCache → Prop} (hi : kv.tree.read i = some n)
    (h : Runs (f (nodeDepth kv.tree i/kv.pageSize)) kv Q E) :
    Runs (depthInPage i >>= f) kv Q E := by
  unfold depthInPage
  rw [bind_assoc]
  apply getNode_bind hi
  rw [nodeDepth_of_read hi] at h
  exact h

/-- `DevicePagesFromRoot` of a node whose path is resident. -/
theorem devicePagesFromRoot_bind {α : Type} {f : List PageId → KV α}
    {Q : α → KVPrefixCache → Prop} {E : Fault → KVPrefixCache → Prop}
    (hi : kv.tree.read i = some n)
    (hres : ∀ j ∈ leafToRoot kv.tree i, hasResource .device kv.tree j = true)
    (h : Runs (f (pathPages .device kv.tree i)) kv Q E) :
    Runs (devicePagesFromRoot i >>= f) kv Q E := by
  unfold devicePagesFromRoot
  rw [bind_assoc]
  apply getLeafToRoot_bind hi
  rw [bind_assoc]
  have hloop : Returns ((leafToRoot kv.tree i).forM fun j => do
      let _ ← getResource .device j) kv (fun _ kv' => kv' = kv) := by
    refine (runs_forM _ (fun rest kv' => kv' = kv ∧ rest ⊆ leafToRoot kv.tree i) ?_ _
      ⟨rfl,fun _ h => h⟩).imp (fun _ _ h => h.1) (fun _ _ h => h)
    rintro j rest kv₁ ⟨rfl,hsub⟩
    obtain ⟨m,r,hm,hr⟩ := exists_resource_of_hasResource (hres j (hsub List.mem_cons_self))
    apply getResource_bind hm hr
    exact ⟨rfl,fun _ h => hsub (List.mem_cons_of_mem _ h)⟩
  refine hloop.bind ?_
  rintro _ _ rfl
  exact h

end FluxServe
