import FluxServe.Scheduler.OnCache

namespace FluxServe

open KVPrefixCache

variable {s s₁ s' : Scheduler} {r x y : Request} {st' : RequestState} {fresh : List NodeId}
  {kv kv₁ kv' : KVPrefixCache}

/-- The paths a request refers to stay, with their tokens and pages. -/
def KeepsPaths (r : Request) (kv kv' : KVPrefixCache) : Prop :=
  ∀ t, ∀ i ∈ r.state.nodeRefs t, pathPages t kv'.tree i = pathPages t kv.tree i ∧
    pathTokens kv'.tree i = pathTokens kv.tree i

theorem keepsPaths_of_tree (r : Request) (h : kv'.tree = kv.tree) : KeepsPaths r kv kv' :=
  fun _ _ _ => ⟨by rw [h],by rw [h]⟩

theorem KeepsPaths.trans (h : KeepsPaths r kv kv₁) (h' : KeepsPaths r kv₁ kv') :
    KeepsPaths r kv kv' :=
  fun t i hi => ⟨(h' t i hi).1.trans (h t i hi).1,(h' t i hi).2.trans (h t i hi).2⟩

/-- A change of the cache that spares the references of a request keeps its paths. -/
theorem Change.keepsPaths {refs : ResourceType → Multiset NodeId}
    (h : Change refs fresh s.kv s'.kv) (hs : Sound s) (hs' : Sound s') (hr : r ∈ s.requests)
    (hr' : r ∈ s'.requests) (hrefs : ∀ t, ∀ i ∈ r.state.nodeRefs t, i ∈ refs t) :
    KeepsPaths r s.kv s'.kv := by
  intro t i hi
  obtain ⟨n,hn⟩ := hs.kv.live (mem_refsOf.mpr ⟨r,hr,hi⟩)
  obtain ⟨n',hn'⟩ := hs'.kv.live (mem_refsOf.mpr ⟨r,hr',hi⟩)
  exact ⟨h.evolves.pages t i (hrefs t i hi),h.evolves.tokens hn hn'⟩

/-- Nothing happens to any request. -/
structure Rests (s s' : Scheduler) : Prop where
  sound : Sound s'
  config : s'.config = s.config
  requests : s'.requests = s.requests
  paths : ∀ x ∈ s.requests, KeepsPaths x s.kv s'.kv

theorem Rests.refl (h : Sound s) : Rests s s :=
  ⟨h,rfl,rfl,fun x _ => keepsPaths_of_tree x rfl⟩

theorem Rests.trans (h : Rests s s₁) (h' : Rests s₁ s') : Rests s s' := by
  refine ⟨h'.sound,h'.config.trans h.config,h'.requests.trans h.requests,fun x hx => ?_⟩
  exact (h.paths x hx).trans (h'.paths x (h.requests ▸ hx))

theorem CacheMove.rests (h : CacheMove s s') (hs : Sound s) : Rests s s' := by
  refine ⟨h.sound,h.config,h.requests,fun x hx => ?_⟩
  exact h.change.keepsPaths hs h.sound hx (h.requests ▸ hx) fun t i hi =>
    mem_refsOf.mpr ⟨x,hx,hi⟩

/-- One request becomes another; the others and their paths stay. -/
structure Becomes (r x : Request) (s s' : Scheduler) : Prop where
  found : r ∈ s.requests
  id : x.id = r.id
  sound : Sound s'
  config : s'.config = s.config
  requests : s'.requests = s.requests.map fun y => if y.id = r.id then x else y
  paths : ∀ y ∈ s.requests, y.id ≠ r.id → KeepsPaths y s.kv s'.kv

/-- Only the tree and the requests count. -/
theorem Becomes.congr {s'' : Scheduler} (h : Becomes r x s s') (hs : Sound s'')
    (hconfig : s''.config = s'.config) (hreq : s''.requests = s'.requests)
    (htree : s''.kv.tree = s'.kv.tree) : Becomes r x s s'' :=
  ⟨h.found,h.id,hs,hconfig.trans h.config,hreq.trans h.requests,fun y hy hne =>
    (h.paths y hy hne).trans (keepsPaths_of_tree y htree)⟩

theorem Move.becomes (h : Move r st' fresh s s') (hs : Sound s) :
    Becomes r { r with state := st' } s s' := by
  have hreq : s'.requests = s.requests.map fun y => if y.id = r.id then { r with state := st' } else y := by
    rw [h.requests]
    refine List.map_congr_left fun y hy => ?_
    by_cases hid : y.id = r.id
    · obtain rfl : y = r := List.inj_on_of_nodup_map hs.ids hy h.found hid
      rfl
    · rw [if_neg hid,if_neg hid]
  refine ⟨h.found,rfl,h.sound,h.config,hreq,fun y hy hne => ?_⟩
  refine h.change.keepsPaths hs h.sound hy ?_ fun t i hi =>
    mem_refsOf.mpr ⟨y,mem_others.mpr ⟨hy,hne⟩,hi⟩
  rw [hreq]
  exact List.mem_map.mpr ⟨y,hy,if_neg hne⟩

theorem Becomes.mem (h : Becomes r x s s') : x ∈ s'.requests := by
  rw [h.requests]
  exact List.mem_map.mpr ⟨r,h.found,if_pos rfl⟩

theorem Becomes.mem_other (h : Becomes r x s s') (hy : y ∈ s.requests) (hne : y.id ≠ r.id) :
    y ∈ s'.requests := by
  rw [h.requests]
  exact List.mem_map.mpr ⟨y,hy,if_neg hne⟩

/-- What a request of the later state is: the one that changed, or one that stayed. -/
theorem Becomes.cases (h : Becomes r x s s') (hy : y ∈ s'.requests) :
    y = x ∨ y ∈ s.requests ∧ y.id ≠ r.id ∧ KeepsPaths y s.kv s'.kv := by
  rw [h.requests] at hy
  obtain ⟨z,hz,hzy⟩ := List.mem_map.mp hy
  by_cases hid : z.id = r.id
  · rw [if_pos hid] at hzy
    exact Or.inl hzy.symm
  · rw [if_neg hid] at hzy
    subst hzy
    exact Or.inr ⟨hz,hid,h.paths z hz hid⟩

theorem Becomes.trans {z : Request} (h : Becomes r x s s₁) (h' : Becomes x z s₁ s') :
    Becomes r z s s' := by
  refine ⟨h.found,h'.id.trans h.id,h'.sound,h'.config.trans h.config,?_,fun y hy hne => ?_⟩
  · rw [h'.requests,h.requests,List.map_map]
    refine List.map_congr_left fun y _ => ?_
    by_cases hid : y.id = r.id
    · simp [hid,h.id]
    · simp [hid,h.id]
  · exact (h.paths y hy hne).trans (h'.paths y (h.mem_other hy hne) (h.id ▸ hne))

theorem Rests.becomes (h : Rests s s₁) (h' : Becomes r x s₁ s') : Becomes r x s s' :=
  ⟨h.requests ▸ h'.found,h'.id,h'.sound,h'.config.trans h.config,h.requests ▸ h'.requests,
    fun y hy hne => (h.paths y hy).trans (h'.paths y (h.requests ▸ hy) hne)⟩

theorem Becomes.rests (h : Becomes r x s s₁) (h' : Rests s₁ s') : Becomes r x s s' :=
  ⟨h.found,h.id,h'.sound,h'.config.trans h.config,h'.requests.trans h.requests,
    fun y hy hne => (h.paths y hy hne).trans (h'.paths y (h.mem_other hy hne))⟩

end FluxServe
