import FluxServe.Resource.Change

namespace FluxServe

open KVPrefixCache

variable {t u : ResourceType} {i j d : NodeId} {n : TreeNode} {kv kv' kv'' : KVPrefixCache}
  {T : List Token} {m : MatchResult} {ps : Nat} {tree tree' : Heap TreeNode} {terminal : NodeId}
  {refs : ResourceType → Multiset NodeId} {owned : ResourceType → Multiset PageId}

theorem takeWhile_congr {α : Type} {f g : α → Bool} {l : List α} (h : ∀ a ∈ l, f a = g a) :
    l.takeWhile f = l.takeWhile g := by
  induction l with
  | nil => rfl
  | cons a l ih =>
    simp only [List.takeWhile_cons,h a List.mem_cons_self,
      ih fun b hb => h b (List.mem_cons_of_mem a hb)]

/-- A match needs the shape and the residency of both tiers only. -/
theorem Matched.congr (ha : ∀ t, Agree t tree tree') (h : Matched T tree m terminal) :
    Matched T tree' m terminal := by
  obtain ⟨⟨n,hn⟩,htok,hstop⟩ := h
  obtain ⟨n',hn',_⟩ := (ha .device).read hn
  refine ⟨⟨n',hn'⟩,by rwa [(ha .device).pathTokens_eq],fun t => ?_⟩
  obtain ⟨⟨k,hk⟩,hon,hres⟩ := hstop t
  obtain ⟨k',hk',_⟩ := (ha .device).read hk
  refine ⟨⟨k',hk'⟩,by rwa [(ha t).leafToRoot_eq],fun j hj => ?_⟩
  rw [(ha t).leafToRoot_eq] at hj ⊢
  rw [(ha t).hasResource_eq]
  exact hres j hj

theorem missing_congr (ha : ∀ t, Agree t tree tree') (t : ResourceType) (m : MatchResult) :
    missing t tree' m = missing t tree m := by
  unfold missing
  rw [(ha t).leafToRoot_eq]
  simp only [(ha t).hasResource_eq]

/-- The deeper of the two last nodes of a match. -/
def MatchResult.deeper (m : MatchResult) (tree : Heap TreeNode) : NodeId :=
  if nodeDepth tree m.device < nodeDepth tree m.host then m.host else m.device

theorem MatchResult.last_deeper (m : MatchResult) (tree : Heap TreeNode) :
    ∃ u, m.deeper tree = m.last u ∧ ∀ t, nodeDepth tree (m.last t) ≤ nodeDepth tree (m.last u) := by
  unfold deeper
  split
  · next h =>
    refine ⟨.host,rfl,fun t => ?_⟩
    cases t
    · exact h.le
    · exact le_rfl
  · next h =>
    refine ⟨.device,rfl,fun t => ?_⟩
    cases t
    · exact le_rfl
    · exact Nat.le_of_not_lt h

/-- A match is also one that ends at its deeper last node. -/
theorem Matched.to_deeper (h : Matched T tree m terminal) (hT : TreeOK ps tree) :
    Matched T tree m (m.deeper tree) := by
  obtain ⟨u,hu,hle⟩ := m.last_deeper tree
  rw [hu]
  refine ⟨(h.stop u).live,h.last_tokens hT u,fun t => ?_⟩
  refine ⟨(h.stop t).live,h.ancestor hT (hle t),fun j hj => (h.stop t).resident j ?_⟩
  rcases (h.stop u).onPath with h0 | hon
  · rw [h0,hT.leafToRoot_zero] at hj
    cases hj
  · exact hT.mem_leafToRoot_trans hj hon

theorem hasResource_of_coreOf {n n' : TreeNode} (hi : tree.read i = some n)
    (hi' : tree'.read i = some n') (h : coreOf t n' = coreOf t n) :
    hasResource t tree' i = hasResource t tree i := by
  have hsome := congrArg Option.isSome h
  simpa [hasResource,coreOf,hi,hi'] using hsome

/-- An eviction on a tier keeps a match whose node of that tier is pinned. -/
theorem Matched.shrinks (h : Matched T kv.tree m terminal) (hT : TreeOK kv.pageSize kv.tree)
    (hs : Shrinks t kv kv') (hps : kv'.pageSize = kv.pageSize)
    (hinv : KVInv kv' refs owned) (hd : m.last t ∈ refs t)
    (htok : ∀ {i n m}, kv.tree.read i = some n → kv'.tree.read i = some m →
      pathTokens kv'.tree i = pathTokens kv.tree i) :
    Matched T kv'.tree m (m.deeper kv.tree) ∧
      missing t kv'.tree m = missing t kv.tree m ∧
      ∀ u, nodeDepth kv'.tree (m.last u) = nodeDepth kv.tree (m.last u) := by
  have hT' : TreeOK kv.pageSize kv'.tree := hps ▸ hinv.inv.tree
  have hm := h.to_deeper hT
  have hpath := hinv.inv.tier t
  have htier : ∀ u, u = t ∨ u = t.other := by
    intro u
    cases t <;> cases u <;> simp [ResourceType.other]
  -- Both last nodes survive: one is pinned, the other holds pages of the other tier.
  have hlive : ∀ u, ∃ n, kv'.tree.read (m.last u) = some n := by
    intro u
    rcases htier u with rfl | rfl
    · exact (hpath.pinned hd).1
    · obtain ⟨n,hn⟩ := (h.stop t.other).live
      cases hr : kv'.tree.read (m.last t.other) with
      | some n' => exact ⟨n',rfl⟩
      | none =>
        obtain ⟨hcore,_⟩ := hs.gone hn hr
        rcases Option.eq_none_or_eq_some n.parent with hp | ⟨p,hp⟩
        · obtain ⟨r,hr',_⟩ := hT'.root
          rw [hT.root_of_parent_none hn hp] at hr
          rw [hr] at hr'
          cases hr'
        · have hres := h.path hT t.other _ (hT.self_mem_leafToRoot hn hp)
          have hnone : n.resource t.other = none := by simpa [coreOf] using hcore
          simp [hasResource,hn,hnone] at hres
  have heq : ∀ u, leafToRoot kv'.tree (m.last u) = leafToRoot kv.tree (m.last u) := by
    intro u
    obtain ⟨n,hn⟩ := hlive u
    exact hs.leafToRoot_eq hT hT' hn
  obtain ⟨v,hv,_⟩ := m.last_deeper kv.tree
  have hdeep : leafToRoot kv'.tree (m.deeper kv.tree) = leafToRoot kv.tree (m.deeper kv.tree) := by
    rw [hv]
    exact heq v
  have hother : ∀ j ∈ leafToRoot kv'.tree (m.deeper kv.tree),
      hasResource t.other kv'.tree j = hasResource t.other kv.tree j := by
    intro j hj
    obtain ⟨n',_,hn',_⟩ := hT'.mem_leafToRoot hj
    obtain ⟨n,hn,_,hother,_⟩ := hs.live hn'
    exact hasResource_of_coreOf hn hn' hother
  have hsame : ∀ j ∈ leafToRoot kv'.tree (m.deeper kv.tree),
      hasResource t kv'.tree j = hasResource t kv.tree j := by
    intro j hj
    obtain ⟨n',_,hn',_⟩ := hT'.mem_leafToRoot hj
    obtain ⟨n,hn,_,_,hcore⟩ := hs.live hn'
    rcases hcore with hcore | ⟨hcore,_⟩
    · exact hasResource_of_coreOf hn hn' hcore
    · have hno : hasResource t kv'.tree j = false := by
        have hnone : n'.resource t = none := by simpa [coreOf] using hcore
        simp [hasResource,hn',hnone]
      rw [hno]
      by_contra hyes
      have hyes' : hasResource t kv.tree j = true := by
        cases hb : hasResource t kv.tree j
        · exact absurd hb.symm hyes
        · rfl
      rw [hdeep] at hj
      have hon := ((hm.stop t).resident j hj).mp hyes'
      rw [← heq t] at hon
      have := (hpath.pinned hd).2 j hon
      rw [hno] at this
      cases this
  have hres : ∀ u, ∀ j ∈ leafToRoot kv'.tree (m.deeper kv.tree),
      hasResource u kv'.tree j = hasResource u kv.tree j := by
    intro u
    rcases htier u with rfl | rfl
    · exact hsame
    · exact hother
  refine ⟨⟨by rw [hv]; exact hlive v,?_,fun u => ⟨hlive u,?_,fun j hj => ?_⟩⟩,?_,fun u => ?_⟩
  · obtain ⟨n,hn⟩ := hm.live
    rw [hv] at hn ⊢
    obtain ⟨n',hn'⟩ := hlive v
    rw [htok hn hn',← hv]
    exact hm.tokens
  · rw [hdeep]
    exact (hm.stop u).onPath
  · rw [hres u j hj,heq u]
    rw [hdeep] at hj
    exact (hm.stop u).resident j hj
  · have hsub : ∀ j ∈ leafToRoot kv.tree (m.last t.other),
        hasResource t kv'.tree j = hasResource t kv.tree j := by
      intro j hj
      refine hsame j ?_
      rw [hdeep]
      rcases (hm.stop t.other).onPath with h0 | hon
      · rw [h0,hT.leafToRoot_zero] at hj
        cases hj
      · exact hT.mem_leafToRoot_trans hj hon
    unfold missing
    rw [heq t.other]
    exact takeWhile_congr fun j hj => by rw [hsub j hj]
  · obtain ⟨n',hn'⟩ := hlive u
    obtain ⟨n,hn,hshape,_⟩ := hs.live hn'
    rw [nodeDepth_of_read hn,nodeDepth_of_read hn']
    exact congrArg (fun s => s.2.2.1) hshape

end FluxServe
