import FluxServe.Resource.ExactOperations

namespace FluxServe

open KVPrefixCache

variable {kv kv' : KVPrefixCache} {t u : ResourceType} {i j p : NodeId} {n np : TreeNode}
  {tree : Heap TreeNode} {e : Evicted}

/-- A node without an entry loses its resource: it is no leaf, its parent may become one. -/
theorem Unsettled.detach {x : List NodeId} (h : Unsettled t (i::x) kv)
    (hi : kv.tree.read i = some n) (hp : n.parent = some p)
    (hk : i ∉ (kv.manager t).nodeTime.map Prod.fst) :
    Unsettled t (p::x) (FluxServe.withResource kv t i n none) := by
  have hun : Unsettled t (i::p::i::x) (FluxServe.withResource kv t i n none) :=
    h.withResource hi hp (by rintro r ⟨⟩)
  refine ⟨hun.tree,hun.plain,hun.sized,?_,hun.others⟩
  have hx : Leaves t (FluxServe.withResource kv t i n none) (i::p::x) := hun.leaves.mono (by
    intro j hj
    simp only [List.mem_cons] at hj ⊢
    tauto)
  apply Leaves.settled hx
  · rw [withResource_manager]
    exact hk
  · simp [isLeaf,FluxServe.withResource,hasResource_setResource hi]

section Evict

/-- Between two turns of the eviction loop only the leaves set aside lack their entries. -/
structure Emptying (t : ResourceType) (kv : KVPrefixCache) (e : Evicted) : Prop where
  unsettled : Unsettled t e.deferredLocked kv
  nodup : e.deferredLocked.Nodup
  deferred : ∀ j ∈ e.deferredLocked,
    isLeaf t kv.tree j = true ∧ j ∉ (kv.manager t).nodeTime.map Prod.fst

/-- A leaf has no resident child. -/
theorem not_isLeaf_of_child {ps : Nat} (hT : TreeOK ps tree) (hs : Sized ps tree)
    (hj : tree.read j = some n) (hp : n.parent = some i) (hres : hasResource t tree j = true) :
    isLeaf t tree i = false := by
  rw [Bool.eq_false_iff]
  intro hi
  have hc := (isLeaf_iff.mp hi).2.2.2
  rw [Bool.eq_false_iff] at hc
  apply hc
  refine hasChildWithPages_iff.mpr ⟨j,n,hj,hp,?_⟩
  simpa [nodePages,hj] using nodePages_ne_nil_of_size hT hres (hs t j hres)

theorem evictLeaf_empties {ts : Timestamp} {rest : List (Timestamp × NodeId)}
    (h : Emptying t kv e) (hlru : (kv.manager t).lruLeaves = (ts,i) :: rest) :
    Returns (evictLeaf t i e) kv (fun e' kv' => Emptying t kv' e') := by
  have hk := mem_keys_of_lru h.unsettled.leaves hlru
  have hnd : i ∉ e.deferredLocked := fun hd => (h.deferred i hd).2 hk
  have hleaf := (h.unsettled.leaves.leaf i hnd).mp hk
  obtain ⟨hres,⟨n,p,hn,hp⟩,_,_⟩ := isLeaf_iff.mp hleaf
  obtain ⟨n',r,hn',hr⟩ := exists_resource_of_hasResource hres
  obtain rfl : n = n' := Option.some.inj (hn.symm.trans hn')
  let m₁ : ResourceManager := { kv.manager t with
    lruLeaves := (kv.manager t).lruLeaves.tail
    nodeTime := dropKey i (kv.manager t).nodeTime }
  let kv₁ := kv.setManager t m₁
  have hs₁ : LeafStep t kv kv₁ := leafStep_setManager m₁ rfl
  have hun₁ : Unsettled t (i :: e.deferredLocked) kv₁ :=
    h.unsettled.leafStep hs₁ (leaves_pop h.unsettled.leaves hlru)
  have hn₁ : kv₁.tree.read i = some n := by rw [setManager_tree]; exact hn
  have hkeys₁ : ∀ j, j ∈ (kv₁.manager t).nodeTime.map Prod.fst ↔
      j ∈ (kv.manager t).nodeTime.map Prod.fst ∧ j ≠ i := by
    intro j
    rw [manager_setManager]
    exact mem_keys_dropKey
  unfold Returns evictLeaf
  rw [runs_bind]
  change Runs _ kv₁ _ _
  apply getResource_bind hn₁ hr
  by_cases hlock : r.refCount = 0
  · -- the unlocked leaf loses its pages, and its parent may become a leaf
    rw [if_neg (by simpa using hlock),runs_bind]
    apply setResource_runs hn₁
    let kv₂ := withResource kv₁ t i n none
    change Runs _ kv₂ _ _
    have hun₂ : Unsettled t (p :: e.deferredLocked) kv₂ :=
      hun₁.detach hn₁ hp fun hm => ((hkeys₁ i).mp hm).2 rfl
    have hn₂ : kv₂.tree.read i = some (n.setResource t none) :=
      Heap.read_write_self _ _ (Heap.lt_of_read hn₁)
    apply getNode_bind hn₂
    simp only [TreeNode.setResource_parent,hp]
    obtain ⟨np,hnp,_⟩ := hun₂.tree.parent hn₂ (by simpa using hp)
    refine (hun₂.updateLeaf hnp (List.Subset.refl _)).bind ?_
    rintro _ kv₃ ⟨hun₃,hs₃,hk₃⟩
    refine (hun₃.deallocatePages t r.pages).and_eq.bind ?_
    rintro _ kv₄ ⟨⟨hun₄,htree₄⟩,hrun⟩
    have htime₄ : (kv₄.manager t).nodeTime = (kv₃.manager t).nodeTime := by
      cases hrun
      exact (allocStep_setAllocator _).nodeTime t
    refine ⟨hun₄,h.nodup,fun j hj => ?_⟩
    obtain ⟨hjl,hjk⟩ := h.deferred j hj
    have hji : j ≠ i := fun hji => hnd (hji ▸ hj)
    have hjp : n.parent ≠ some j := by
      intro hjp
      rw [not_isLeaf_of_child h.unsettled.tree h.unsettled.sized hn hjp hres] at hjl
      cases hjl
    have hjp' : j ≠ p := fun hjp' => hjp (hjp' ▸ hp)
    constructor
    · rw [htree₄,(hs₃.quiet.agree t).isLeaf_eq]
      simp only [kv₂,withResource]
      rw [isLeaf_setResource hn₁ hji hjp]
      simp only [kv₁,setManager_tree]
      exact hjl
    · rw [htime₄,hk₃ j hjp',withResource_manager,hkeys₁]
      exact fun hm => hjk hm.1
  · -- the locked leaf is set aside, without an entry
    rw [if_pos (by simpa using hlock)]
    refine ⟨?_,?_,?_⟩
    · refine ⟨hun₁.tree,hun₁.plain,hun₁.sized,hun₁.leaves.mono ?_,hun₁.others⟩
      intro j hj
      simp only [List.mem_cons,List.mem_append,List.not_mem_nil,or_false] at hj ⊢
      tauto
    · exact List.nodup_append.mpr ⟨h.nodup,by simp,by
        intro a ha b hb
        rw [List.mem_singleton] at hb
        subst hb
        rintro rfl
        exact hnd ha⟩
    · intro j hj
      rw [hkeys₁]
      simp only [kv₁,setManager_tree]
      rcases List.mem_append.mp hj with hj | hj
      · obtain ⟨hjl,hjk⟩ := h.deferred j hj
        exact ⟨hjl,fun hm => hjk hm.1⟩
      · rw [List.mem_singleton] at hj
        subst hj
        exact ⟨hleaf,fun hm => hm.2 rfl⟩

theorem evictLoop_empties (num : Int) (fuel : Nat) (h : Emptying t kv e) :
    Returns (evictLoop t num fuel e) kv (fun e' kv' => Emptying t kv' e') := by
  induction fuel generalizing kv e with
  | zero => exact h
  | succ fuel ih =>
    unfold Returns evictLoop
    split
    · exact h
    · rw [runs_bind,runs_get]
      cases hlru : (kv.manager t).lruLeaves with
      | nil => exact h
      | cons f rest =>
        obtain ⟨ts,i⟩ := f
        exact (evictLeaf_empties h hlru).bind fun e' kv' h' => ih h'

theorem keepsLeaves_evict (num : Int) : KeepsLeaves (evict t num) := by
  apply keepsLeaves_of_runs
  intro kv h
  unfold evict
  split
  · exact h
  · rw [runs_bind,runs_get]
    have h₀ : Emptying t kv {} := ⟨h.unsettled t,List.nodup_nil,by simp⟩
    refine (evictLoop_empties num _ h₀).bind ?_
    intro e kv₁ h₁
    have hun := h₁.unsettled
    refine (restoreDeferred_returns hun.tree hun.leaves h₁.nodup h₁.deferred).bind ?_
    rintro _ kv₂ ⟨hs,hl⟩
    exact (hun.leafStep hs hl).exact

theorem keepsLeaves_ensureCapacity (num : Int) : KeepsLeaves (ensureCapacity t num) := by
  refine follows_ite (leaves_rule.pure _) (leaves_rule.bind leaves_rule.get fun kv => ?_)
  exact follows_ite (leaves_rule.pure _) (keepsLeaves_evict _)

end Evict

section Prune

theorem keepsLeaves_pruneLoop (fuel : Nat) (i : NodeId) : KeepsLeaves (pruneLoop fuel i) := by
  induction fuel generalizing i with
  | zero => exact leaves_rule.pure _
  | succ fuel ih =>
    apply keepsLeaves_of_runs
    intro kv h
    unfold pruneLoop
    apply getNode_runs fun _ => h
    intro n hn
    cases hp : n.parent with
    | none => exact h
    | some p =>
      dsimp only
      rw [runs_bind,runs_get]
      split
      · exact h
      · next hbare =>
        simp only [ne_eq,not_or,Decidable.not_not,Bool.not_eq_true,Option.isSome_eq_false_iff,
          Option.isNone_iff_eq_none] at hbare
        have hb : Bare kv.tree i n p := by
          refine ⟨hn,hp,List.length_eq_zero_iff.mp hbare.1,fun t => ?_⟩
          cases t
          · exact hbare.2.1
          · exact hbare.2.2
        rw [runs_bind,runs_modify]
        exact keepsLeaves_apply (ih p) (h.withoutNode hb)

theorem keepsLeaves_ensureCapacityByEvict (num : Int) :
    KeepsLeaves (ensureCapacityByEvict t num) := by
  refine leaves_rule.bind (keepsLeaves_ensureCapacity num) fun evicted => leaves_rule.bind ?_ ?_
  · refine leaves_rule.forM (fun i => ?_) evicted
    refine leaves_rule.bind (leaves_rule.follows_getNode i) fun n => ?_
    refine follows_ite (leaves_rule.pure _) (leaves_rule.bind ?_ keepsLeaves_updateLeaves)
    exact leaves_rule.bind (leaves_rule.follows_getNode i) fun _ => keepsLeaves_pruneLoop _ _
  · exact fun _ => leaves_rule.bind leaves_rule.get fun _ => leaves_rule.pure _

end Prune

section Transfer

theorem keepsLeaves_attachAll (nodes : List NodeId) (pages : List PageId) :
    KeepsLeaves (attachAll t nodes pages) := by
  induction nodes generalizing pages with
  | nil => exact leaves_rule.pure _
  | cons i is ih =>
    apply keepsLeaves_of_runs
    intro kv h
    unfold attachAll
    apply getResource_runs fun _ => h
    intro n r hn hr
    apply takeFirst_runs fun _ => h
    intro taken rest hlen
    dsimp only
    -- the copy on the other tier tells how many pages the node has
    obtain ⟨h0,hsize⟩ := h.sized _ i (hasResource_of_resource hn hr)
    obtain ⟨p,np,hp,_⟩ := h.tree.node hn h0
    have htaken : taken.length*kv.pageSize = n.tokens.length := by
      have hpages : nodePages t.other kv.tree i = r.pages := by
        simp [nodePages,hn,TreeNode.pages,hr]
      have htokens : nodeTokens kv.tree i = n.tokens := by simp [nodeTokens,hn]
      rw [hpages,htokens] at hsize
      have heq : taken.length = r.pages.length := by exact_mod_cast hlen
      rw [heq,hsize]
    refine (attachResource_unsettles h hn hp htaken).bind ?_
    rintro _ kv₁ ⟨hun,_,n',hn',hp'⟩
    have hrecord : Returns (recordLoadBack t r.pages taken) kv₁ (fun _ kv' =>
        Unsettled t [i,p] kv' ∧ kv'.tree = kv₁.tree) := by
      unfold recordLoadBack
      split
      · exact ⟨hun.unseen rfl rfl (fun u => by cases u <;> rfl) fun u => by cases u <;> rfl,rfl⟩
      · exact ⟨hun,rfl⟩
    refine hrecord.bind ?_
    rintro _ kv₂ ⟨hun₂,htree⟩
    refine (hun₂.updateLeaves (by rw [htree]; exact hn') (by simp [hp'])).bind ?_
    rintro _ kv₃ ⟨h₃,_⟩
    exact keepsLeaves_apply (ih rest) h₃

theorem keepsLeaves_allocateResourceOfType (nodes : List NodeId) :
    KeepsLeaves (allocateResourceOfType t nodes) := by
  refine leaves_rule.bind (leaves_rule.follows_countPages nodes) fun total => ?_
  refine leaves_rule.bind (keepsLeaves_allocatePages _) fun pages => ?_
  apply follows_ite (leaves_rule.pure _)
  refine leaves_rule.bind (keepsLeaves_attachAll nodes pages) fun rest => ?_
  exact leaves_rule.bind (keepsLeaves_deallocatePages _) fun _ => leaves_rule.pure _

/-- One node of the demotion: its entry goes first, then its pages. -/
theorem keepsLeaves_releaseOnHost (i : NodeId) : KeepsLeaves (releaseOnHost i) := by
  apply keepsLeaves_of_runs
  intro kv h
  unfold releaseOnHost
  apply getNode_runs fun _ => h
  intro n hn
  cases hr : n.deviceResource with
  | none => exact h
  | some r =>
    have hr' : n.resource .device = some r := hr
    obtain ⟨h0,_⟩ := h.sized _ i (hasResource_of_resource hn hr')
    obtain ⟨p,np,hp,_⟩ := h.tree.node hn h0
    dsimp only
    split
    · exact h
    · rw [runs_bind,runs_get]
      split
      · exact h
      · refine (removeLeaf_returns hn).bind ?_
        rintro _ kv₁ ⟨hs₁,_,hl₁⟩
        obtain ⟨hl₁,hk₁⟩ := hl₁ [] (h.leaves .device)
        have hun₁ := (h.unsettled .device).leafStep hs₁ hl₁
        obtain ⟨n₁,hn₁,hv₁⟩ := (hs₁.quiet.agree .device).read hn
        have hp₁ : n₁.parent = some p := (congrArg (fun v => v.1.1) hv₁).trans hp
        rw [runs_bind]
        apply setResource_runs hn₁
        let kv₂ := withResource kv₁ .device i n₁ none
        change Runs _ kv₂ _ _
        have hun₂ : Unsettled .device [p] kv₂ :=
          hun₁.detach hn₁ hp₁ (hk₁ (by rw [hp]; simp))
        have hn₂ : kv₂.tree.read i = some (n₁.setResource .device none) :=
          Heap.read_write_self _ _ (Heap.lt_of_read hn₁)
        obtain ⟨np,hnp,_⟩ := hun₂.tree.parent hn₂ (by simpa using hp₁)
        simp only [hp]
        refine (hun₂.updateLeaves hnp (by simp)).bind ?_
        rintro _ kv₃ ⟨h₃,_⟩
        exact keepsLeaves_apply
          (leaves_rule.bind (keepsLeaves_deallocatePages _) fun _ => leaves_rule.pure _) h₃

theorem keepsLeaves_releaseDevice (last : NodeId) :
    KeepsLeaves (releaseDeviceResourcesPresentOnHost last) := by
  have hloop (path : List NodeId) : KeepsLeaves (releaseLoop path) := by
    induction path with
    | nil => exact leaves_rule.pure _
    | cons i is ih =>
      refine leaves_rule.bind (keepsLeaves_releaseOnHost i) fun b => ?_
      exact follows_ite ih (leaves_rule.pure _)
  exact leaves_rule.bind (leaves_rule.follows_getLeafToRoot last) hloop

end Transfer

end FluxServe
