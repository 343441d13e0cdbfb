import FluxServe.Resource.Lineage

namespace FluxServe

open KVPrefixCache

variable {t u : ResourceType} {i j d : NodeId} {n : TreeNode} {kv kv' kv'' : KVPrefixCache}
  {fresh : List NodeId} {T : List Token} {m : MatchResult}
  {pins pins' refs refs' : ResourceType → Multiset NodeId}
  {owned owned' : ResourceType → Multiset PageId}

/-- What every change of the cache keeps for the references in `pins`; only nodes of `fresh` got
host pages that are new. -/
structure Change (pins : ResourceType → Multiset NodeId) (fresh : List NodeId)
    (kv kv' : KVPrefixCache) : Prop where
  evolves : Evolves pins kv kv'
  lineage : Lineage (pins .device) fresh kv kv'

namespace Change

theorem refl (pins : ResourceType → Multiset NodeId) (kv : KVPrefixCache) : Change pins [] kv kv :=
  ⟨Evolves.refl _ _,lineage_refl _ _⟩

theorem trans (h : Change pins [] kv kv') (h' : Change pins fresh kv' kv'') :
    Change pins fresh kv kv'' :=
  ⟨h.evolves.trans h'.evolves,h.lineage.trans h'.lineage⟩

theorem mono (h : Change pins fresh kv kv') (hp : ∀ t, pins' t ≤ pins t) :
    Change pins' fresh kv kv' :=
  ⟨h.evolves.mono hp,h.lineage.mono (hp .device)⟩

theorem of_calm (h : Calm kv kv') (pins : ResourceType → Multiset NodeId) :
    Change pins [] kv kv' :=
  ⟨h.evolves pins,lineage_of_calm h _⟩

theorem calm_right (h : Change pins fresh kv kv') (hc : Calm kv' kv'') :
    Change pins fresh kv kv'' :=
  ⟨h.evolves.trans (hc.evolves pins),h.lineage.calm_right hc⟩

theorem allocStep_right (h : Change pins fresh kv kv') (he : Evolves pins kv' kv'')
    (hs : AllocStep .device kv' kv'') : Change pins fresh kv kv'' := by
  refine ⟨h.evolves.trans he,h.lineage.agree_right ?_ ?_⟩
  · rw [hs.tree]
    exact Agree.refl _ _
  · rw [hs.other _ (by decide)]

theorem of_allocStep (he : Evolves pins kv kv') (hs : AllocStep .device kv kv') :
    Change pins [] kv kv' :=
  (refl pins kv).allocStep_right he hs

theorem of_grows {o : NodeId → NodeId} (h : Grows o kv kv')
    (hp : ∀ t, ∀ r ∈ pins t, ∃ n, kv.tree.read r = some n) : Change pins [] kv kv' :=
  ⟨h.evolves hp,lineage_of_grows h (hp .device)⟩

theorem of_shrinks (he : Evolves refs kv kv') (h : Shrinks t kv kv') (hinv : KVInv kv refs owned)
    (hinv' : KVInv kv' refs owned) : Change refs [] kv kv' :=
  ⟨he,lineage_of_shrinks h hinv.inv.tree he.pageSize hinv' fun _ hr => hinv'.live hr⟩

theorem of_inserted {last : NodeId} (he : Evolves refs kv kv') (h : InsertedAt .device T kv kv' last)
    (hinv : KVInv kv refs owned) : Change refs [] kv kv' :=
  ⟨he,h.lineage fun _ hr => hinv.live hr⟩

end Change

theorem KVPrefixCache.KVInv.congr (h : KVInv kv refs owned) (hr : ∀ t, refs' t = refs t)
    (ho : ∀ t, owned' t = owned t) : KVInv kv refs' owned' := by
  obtain rfl : refs' = refs := funext hr
  obtain rfl : owned' = owned := funext ho
  exact h

/-- A resident path has a page for every page of its tokens. -/
theorem pathPages_length {ps : Nat} {tree : Heap TreeNode} {rs : Multiset NodeId}
    (hT : TreeOK ps tree) (ht : TierOK ps t tree rs) (hi : tree.read i = some n)
    (hres : ∀ j ∈ leafToRoot tree i, hasResource t tree j = true) :
    (pathPages t tree i).length*ps = (pathTokens tree i).length := by
  refine hT.induction (P := fun i => (∀ j ∈ leafToRoot tree i, hasResource t tree j = true) →
    (pathPages t tree i).length*ps = (pathTokens tree i).length) ?_ ?_ i n hi hres
  · intro _
    rw [hT.pathPages_zero,hT.pathTokens_zero]
    simp
  · intro i n p hi hp ih hres
    rw [hT.leafToRoot_cons hi hp] at hres
    have hself := (ht.size (hres i List.mem_cons_self)).2
    simp only [nodePages,nodeTokens,hi,Option.map_some,Option.getD_some] at hself
    rw [hT.pathPages_cons t hi hp,hT.pathTokens_cons hi hp,List.length_append,List.length_append,
      Nat.add_mul,ih fun j hj => hres j (List.mem_cons_of_mem _ hj),hself]

theorem KVPrefixCache.KVInv.pathPages_length (hinv : KVInv kv refs owned) (hd : d ∈ refs t) :
    (pathPages t kv.tree d).length*kv.pageSize = (pathTokens kv.tree d).length := by
  obtain ⟨⟨n,hn⟩,hres⟩ := (hinv.inv.tier t).pinned hd
  exact FluxServe.pathPages_length hinv.inv.tree (hinv.inv.tier t) hn hres

end FluxServe
