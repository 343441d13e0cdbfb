import FluxServe.Resource.DemoteProof

namespace FluxServe

open KVPrefixCache

variable {t u : ResourceType} {i j : NodeId} {n : TreeNode} {kv kv' kv'' : KVPrefixCache}
  {pins : Multiset NodeId} {fresh : List NodeId} {x : PageId}
  {refs : ResourceType → Multiset NodeId} {owned : ResourceType → Multiset PageId}

/-- Where the host pages of the tree come from: outside `fresh`, every host page was in the tree
before, was not returned since, and has stayed below the pins it was below. -/
def Lineage (pins : Multiset NodeId) (fresh : List NodeId) (kv kv' : KVPrefixCache) : Prop :=
  ∃ ret, (kv'.manager .host).allocator.returned = ret ++ (kv.manager .host).allocator.returned ∧
    ∀ i x, x ∈ nodePages .host kv'.tree i → i ∈ fresh ∨
      ∃ j, x ∈ nodePages .host kv.tree j ∧ x ∉ ret ∧
        ∀ r ∈ pins, j ∈ leafToRoot kv.tree r → i ∈ leafToRoot kv'.tree r

theorem Lineage.trans (h : Lineage pins [] kv kv') (h' : Lineage pins fresh kv' kv'') :
    Lineage pins fresh kv kv'' := by
  obtain ⟨ret,hret,hl⟩ := h
  obtain ⟨ret',hret',hl'⟩ := h'
  refine ⟨ret' ++ ret,by rw [hret',hret,List.append_assoc],fun i x hx => ?_⟩
  rcases hl' i x hx with hf | ⟨j,hj,hnot,hpath⟩
  · exact Or.inl hf
  · rcases hl j x hj with hf | ⟨k,hk,hnot',hpath'⟩
    · cases hf
    · refine Or.inr ⟨k,hk,?_,fun r hr hkr => hpath r hr (hpath' r hr hkr)⟩
      rw [List.mem_append]
      exact fun hm => hm.elim hnot hnot'

theorem Lineage.mono {pins' : Multiset NodeId} (h : Lineage pins fresh kv kv')
    (hp : pins' ≤ pins) : Lineage pins' fresh kv kv' := by
  obtain ⟨ret,hret,hl⟩ := h
  refine ⟨ret,hret,fun i x hx => (hl i x hx).imp id ?_⟩
  rintro ⟨j,hj,hnot,hpath⟩
  exact ⟨j,hj,hnot,fun r hr => hpath r (Multiset.mem_of_le hp hr)⟩

/-- A change that leaves the host tier and all paths alone. -/
theorem lineage_of_agree (h : Agree .host kv.tree kv'.tree)
    (hr : (kv'.manager .host).allocator.returned = (kv.manager .host).allocator.returned)
    (pins : Multiset NodeId) : Lineage pins [] kv kv' := by
  refine ⟨[],by rw [hr]; rfl,fun i x hx => Or.inr ⟨i,?_,by simp,fun r _ hi => ?_⟩⟩
  · rwa [h.nodePages_eq] at hx
  · rwa [h.leafToRoot_eq]

theorem lineage_of_calm (h : Calm kv kv') (pins : Multiset NodeId) : Lineage pins [] kv kv' :=
  lineage_of_agree (h.agree .host) (by rw [h.allocator]) pins

theorem lineage_refl (pins : Multiset NodeId) (kv : KVPrefixCache) : Lineage pins [] kv kv :=
  lineage_of_calm (Calm.refl kv) pins

/-- What follows a copy in the same event is a change of this kind. -/
theorem Lineage.agree_right (h : Lineage pins fresh kv kv') (ha : Agree .host kv'.tree kv''.tree)
    (hr : (kv''.manager .host).allocator.returned = (kv'.manager .host).allocator.returned) :
    Lineage pins fresh kv kv'' := by
  obtain ⟨ret,hret,hl⟩ := h
  refine ⟨ret,by rw [hr,hret],fun i x hx => ?_⟩
  rw [ha.nodePages_eq] at hx
  refine (hl i x hx).imp id ?_
  rintro ⟨j,hj,hnot,hpath⟩
  refine ⟨j,hj,hnot,fun r hr hjr => ?_⟩
  rw [ha.leafToRoot_eq]
  exact hpath r hr hjr

theorem Lineage.calm_right (h : Lineage pins fresh kv kv') (hc : Calm kv' kv'') :
    Lineage pins fresh kv kv'' :=
  h.agree_right (hc.agree .host) (by rw [hc.allocator])

theorem lineage_of_allocStep (h : AllocStep .device kv kv') (pins : Multiset NodeId) :
    Lineage pins [] kv kv' :=
  lineage_of_agree (by rw [h.tree]; exact Agree.refl _ _) (by rw [h.other _ (by decide)]) pins

theorem lineage_of_grows {o : NodeId → NodeId} (h : Grows o kv kv')
    (hp : ∀ r ∈ pins, ∃ n, kv.tree.read r = some n) : Lineage pins [] kv kv' := by
  refine ⟨[],by rw [h.manager]; rfl,fun i x hx => Or.inr ⟨o i,h.pages .host hx,by simp,?_⟩⟩
  intro r hr hi
  obtain ⟨n,hn⟩ := hp r hr
  exact (h.path hn i).mpr hi

theorem KVPrefixCache.PagesOK.notMem_free {o : Multiset PageId} (h : PagesOK t kv o)
    (hx : x ∈ nodePages t kv.tree i) : x ∉ (kv.manager t).allocator.freePages := by
  intro hfree
  have hnd : (PageAllocator.allPages (kv.manager t).allocator.totalPages : Multiset PageId).Nodup :=
    Multiset.coe_nodup.mpr List.nodup_range'
  rw [← h,Multiset.nodup_add,Multiset.nodup_add] at hnd
  refine Multiset.disjoint_left.mp hnd.1.2.2 hfree ?_
  unfold nodePages at hx
  cases hr : kv.tree.read i with
  | none => simp [hr] at hx
  | some n => exact Heap.mem_collect.mpr ⟨i,n,hr,by simpa [hr] using hx⟩

theorem Shrinks.leafToRoot_eq {ps : Nat} (h : Shrinks t kv kv') (hT : TreeOK ps kv.tree)
    (hT' : TreeOK ps kv'.tree) (hi : kv'.tree.read i = some n) :
    leafToRoot kv'.tree i = leafToRoot kv.tree i := by
  refine hT'.induction (P := fun i => leafToRoot kv'.tree i = leafToRoot kv.tree i) ?_ ?_ i n hi
  · rw [hT.leafToRoot_zero,hT'.leafToRoot_zero]
  · intro i n p hi hp ih
    obtain ⟨m,hm,hs,_⟩ := h.live hi
    have hmp : m.parent = some p := (congrArg Prod.fst hs).symm.trans hp
    rw [hT'.leafToRoot_cons hi hp,hT.leafToRoot_cons hm hmp,ih]

theorem pages_of_coreOf {n n' : TreeNode} (h : coreOf t n' = coreOf t n) :
    n'.pages t = n.pages t := by
  have hp := congrArg (fun c => (c.map Prod.fst).getD []) h
  simpa [coreOf,TreeNode.pages,Function.comp_def] using hp

theorem lineage_of_shrinks (h : Shrinks t kv kv') (hT : TreeOK kv.pageSize kv.tree)
    (hps : kv'.pageSize = kv.pageSize) (hinv : KVInv kv' refs owned)
    (hp : ∀ r ∈ pins, ∃ n, kv'.tree.read r = some n) : Lineage pins [] kv kv' := by
  have hT' : TreeOK kv.pageSize kv'.tree := hps ▸ hinv.inv.tree
  have hpath : ∀ r ∈ pins, ∀ i, i ∈ leafToRoot kv.tree r → i ∈ leafToRoot kv'.tree r := by
    intro r hr i hi
    obtain ⟨n,hn⟩ := hp r hr
    rwa [h.leafToRoot_eq hT hT' hn]
  have hnode : ∀ i x, x ∈ nodePages .host kv'.tree i → x ∈ nodePages .host kv.tree i := by
    intro i x hx
    cases hi : kv'.tree.read i with
    | none => simp [nodePages,hi] at hx
    | some n' =>
      obtain ⟨n,hn,_,hother,hcore⟩ := h.live hi
      simp only [nodePages,hi,hn,Option.map_some,Option.getD_some] at hx ⊢
      cases t with
      | device =>
        have hp : n'.pages .host = n.pages .host := pages_of_coreOf hother
        rwa [hp] at hx
      | host =>
        rcases hcore with hcore | ⟨hcore,_⟩
        · rwa [pages_of_coreOf hcore] at hx
        · have hnil : n'.resource .host = none := by simpa [coreOf] using hcore
          simp [TreeNode.pages,hnil] at hx
  cases t with
  | device =>
    refine ⟨[],by rw [h.frees.other .host (by decide)]; rfl,fun i x hx => Or.inr
      ⟨i,hnode i x hx,by simp,fun r hr => hpath r hr i⟩⟩
  | host =>
    obtain ⟨ret,hret,hfree⟩ := h.frees.returned
    refine ⟨ret,hret,fun i x hx => Or.inr ⟨i,hnode i x hx,fun hm => ?_,fun r hr => hpath r hr i⟩⟩
    exact (hinv.inv.pages .host).notMem_free hx (hfree x hm)

theorem lineage_of_attached_device {nodes : List NodeId} (h : Attached .device nodes kv kv')
    (pins : Multiset NodeId) : Lineage pins [] kv kv' :=
  lineage_of_agree (h.agree .host (by decide)) (by rw [h.others .host (by decide)]) pins

theorem InsertedAt.lineage {T : List Token} {last : NodeId} (h : InsertedAt .device T kv kv' last)
    (hp : ∀ r ∈ pins, ∃ n, kv.tree.read r = some n) : Lineage pins [] kv kv' := by
  obtain ⟨o,kv₂,nodes,hg,ha,_⟩ := h.change
  exact (lineage_of_grows hg hp).trans (lineage_of_attached_device ha pins)

theorem Demoted.lineage (h : Demoted refs owned kv kv') (pins : Multiset NodeId) :
    Lineage pins [] kv kv' :=
  lineage_of_agree h.agree (by rw [h.shrinks.frees.other .host (by decide)]) pins

theorem Copied.lineage_device {m : MatchResult} {nodes : List NodeId}
    (h : Copied .device refs owned m nodes kv kv') (pins : Multiset NodeId) :
    Lineage pins [] kv kv' := lineage_of_attached_device h.attached pins

/-- A copy to the host attaches pages that were not in the tree before. -/
theorem Copied.lineage_host {m : MatchResult} {nodes : List NodeId}
    (h : Copied .host refs owned m nodes kv kv') (pins : Multiset NodeId) :
    Lineage pins nodes kv kv' := by
  refine ⟨[],by rw [h.returned]; rfl,fun i x hx => ?_⟩
  by_cases hi : i ∈ nodes
  · exact Or.inl hi
  · refine Or.inr ⟨i,?_,by simp,fun r _ hr => ?_⟩
    · have hres : hasResource .host kv'.tree i = true := by
        by_contra hno
        rw [Bool.not_eq_true] at hno
        simp only [hasResource,Option.isSome_eq_false_iff,Option.isNone_iff_eq_none] at hno
        unfold nodePages at hx
        cases hr : kv'.tree.read i with
        | none => simp [hr] at hx
        | some n =>
          rw [hr,Option.bind_some] at hno
          simp [hr,TreeNode.pages,hno] at hx
      have hold := ((h.attached.resident i).mp hres).resolve_right hi
      rwa [h.attached.kept i hold] at hx
    · rwa [h.attached.shape.leafToRoot_eq]

end FluxServe
