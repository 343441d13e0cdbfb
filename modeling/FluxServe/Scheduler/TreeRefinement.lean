import FluxServe.Resource.MapRefinement
import FluxServe.Scheduler.Conservation

namespace FluxServe

open KVPrefixCache

variable {kv kv' : KVPrefixCache} {T : List Token} {t : ResourceType} {d : NodeId}
  {alloc : List PageId} {refs : ResourceType → Multiset NodeId}
  {owned : ResourceType → Multiset PageId}

theorem pageMap_congr {ps ps' : Nat} {tree tree' : Heap TreeNode}
    (h : ∀ t, pageFor t ps' tree' = pageFor t ps tree) : pageMap ps' tree' = pageMap ps tree := by
  funext P
  unfold pageMap
  rw [h .device,h .host]

/-- `Match` is a lookup of the longest mapped prefix; its splits leave the map alone. -/
theorem matchTokens_lookup (hinv : KVInv kv refs owned) (hdvd : kv.pageSize ∣ T.length)
    (intent : MatchIntent) :
    Returns (matchTokens T intent) kv (fun m kv' =>
      pageMap kv'.pageSize kv'.tree = pageMap kv.pageSize kv.tree ∧
      (kv.disablePrefixCache = false ∨ intent = .stateRecovery → ∀ t,
        pathTokens kv'.tree (m.last t) <+: T ∧ nodeDepth kv'.tree (m.last t) =
          (pageFor t kv.pageSize kv.tree).longest kv.pageSize T*kv.pageSize)) := by
  refine (matchTokens_returns hinv hdvd intent).runs fun m kv' ⟨hinv',⟨o,hg⟩,hm⟩ => ?_
  refine ⟨pageMap_congr (hg.pageFor_eq hinv hinv'),fun hon t => ?_⟩
  rcases hm with ⟨⟨hoff,hreuse⟩,-⟩ | ⟨-,kv₁,w,-,hw,rfl⟩
  · rcases hon with hon | hon
    · rw [hoff] at hon
      cases hon
    · rw [hreuse] at hon
      cases hon
  · exact ⟨hw.matched.last_tokens hinv'.inv.tree t,
      hw.matched.depth_eq (fun t P hP hd hc => hw.covers_le hP hd hc) hg hinv hinv' t⟩

/-- `Insert` fills the map along its tokens and gives back what it did not use. -/
theorem insert_fills (hinv : KVInv kv refs (own t alloc owned)) (hdvd : kv.pageSize ∣ T.length)
    (hd : d ∈ refs t) (hdT : pathTokens kv.tree d <+: T)
    (hlen : ((pathPages t kv.tree d).length+alloc.length)*kv.pageSize = T.length) :
    Returns (insert t T (pathPages t kv.tree d) alloc) kv (fun _ kv' => KVInv kv' refs owned ∧
      kv'.pageSize = kv.pageSize ∧ kv'.disablePrefixCache = kv.disablePrefixCache ∧
      pageFor t kv'.pageSize kv'.tree = (pageFor t kv.pageSize kv.tree).fill kv.pageSize T
        (pathPages t kv.tree d ++ alloc) ∧
      (∀ u ≠ t, pageFor u kv'.pageSize kv'.tree = pageFor u kv.pageSize kv.tree) ∧
      ∀ k x, alloc[k]? = some x → (pageFor t kv.pageSize kv.tree
        (T.take (((pathPages t kv.tree d).length+k+1)*kv.pageSize))).isSome = true →
        x ∈ (kv'.manager t).allocator.freePages) := by
  refine (insert_pages hinv hd hdT (hinv.pathPages_length hd) hdvd hlen).runs ?_
  rintro r kv' ⟨hinv',hev,kv₂,h⟩
  exact ⟨hinv',hev.pageSize,hev.disablePrefixCache,h.pageFor_fill hev hinv hinv' rfl,
    fun u hu => h.pageFor_of_ne hev hinv hu,fun k x hk htaken =>
      h.surplus_free hev hinv hinv' hlen hk htaken⟩

/-- The tree refines a map from whole pages of tokens to pages: `Match` and `SplitAt` leave the map
alone, `Match` finds its longest mapped prefix on each tier, and `Insert` fills it along its tokens
with the pages of the caller and gives back the rest; a match after it goes all the way. -/
theorem tree_refines_map (hinv : KVInv kv refs owned) (hdvd : kv.pageSize ∣ T.length) :
    (∀ intent, Returns (matchTokens T intent) kv (fun m kv' =>
      pageMap kv'.pageSize kv'.tree = pageMap kv.pageSize kv.tree ∧
      (kv.disablePrefixCache = false ∨ intent = .stateRecovery → ∀ t,
        pathTokens kv'.tree (m.last t) <+: T ∧ nodeDepth kv'.tree (m.last t) =
          (pageFor t kv.pageSize kv.tree).longest kv.pageSize T*kv.pageSize))) ∧
    (∀ i n depth, kv.tree.read i = some n → Returns (splitAt (some i) depth) kv (fun _ kv' =>
      pageMap kv'.pageSize kv'.tree = pageMap kv.pageSize kv.tree)) ∧
    ∀ t d alloc owned', owned = own t alloc owned' → d ∈ refs t → pathTokens kv.tree d <+: T →
      ((pathPages t kv.tree d).length+alloc.length)*kv.pageSize = T.length →
      Returns (insert t T (pathPages t kv.tree d) alloc) kv (fun _ kv' =>
        pageFor t kv'.pageSize kv'.tree = (pageFor t kv.pageSize kv.tree).fill kv.pageSize T
          (pathPages t kv.tree d ++ alloc) ∧
        (∀ u ≠ t, pageFor u kv'.pageSize kv'.tree = pageFor u kv.pageSize kv.tree) ∧
        (∀ k x, alloc[k]? = some x → (pageFor t kv.pageSize kv.tree
          (T.take (((pathPages t kv.tree d).length+k+1)*kv.pageSize))).isSome = true →
          x ∈ (kv'.manager t).allocator.freePages) ∧
        ∀ intent, kv.disablePrefixCache = false ∨ intent = .stateRecovery →
          Returns (matchTokens T intent) kv' (fun m kv'' =>
            nodeDepth kv''.tree (m.last t) = T.length)) := by
  refine ⟨matchTokens_lookup hinv hdvd,fun i n depth hi => ?_,?_⟩
  · have hlive : ∀ j, some i = some j → ∃ n, kv.tree.read j = some n := by
      rintro j ⟨⟩
      exact ⟨n,hi⟩
    exact (splitAt_returns hinv hlive depth).runs fun _ kv' ⟨hinv',o,hg⟩ =>
      pageMap_congr (hg.pageFor_eq hinv hinv')
  · rintro t d alloc owned' rfl hd hdT hlen
    refine (insert_fills hinv hdvd hd hdT hlen).runs ?_
    rintro _ kv' ⟨hinv',hps,hdis,hfill,hother,hsurplus⟩
    refine ⟨hfill,hother,hsurplus,fun intent hon => ?_⟩
    rw [← hps] at hdvd
    refine (matchTokens_lookup hinv' hdvd intent).runs fun m kv'' ⟨_,hdepth⟩ => ?_
    rw [(hdepth (by rw [hdis]; exact hon) t).2,hfill,hps,PrefixMap.longest_fill]
    · rw [hps] at hdvd
      exact Nat.div_mul_cancel hdvd
    · exact hinv.inv.tree.pageSize_pos
    · rw [← hlen,Nat.mul_div_cancel _ hinv.inv.tree.pageSize_pos,List.length_append]

/-- Two requests share a prefix; the second holds the shared node and two pages of its own. -/
def sharedCalls : List Call :=
  [.submit [{ requestId := [1], tokens := [7,8] }],.plan [[1]],.advance [.extendResult [1] [9]],
    .plan [[1]],.advance [.finish [1]],.submit [{ requestId := [2], tokens := [7,8,5] }],
    .plan [[1],[2]]]

theorem tree_refines_map_shared :
    ∃ history s, Reaches (smallConfig 9 9) id history s ∧
      Returns (insert .device [7,8,5,6] (pathPages .device s.kv.tree 1) [5,6]) s.kv (fun _ kv' =>
        pageFor .device kv'.pageSize kv'.tree [7,8,5] = some 5 ∧
        Returns (matchTokens [7,8,5,6] .prefixReuse) kv' (fun m kv'' =>
          nodeDepth kv''.tree m.device = 4)) := by
  obtain ⟨x,hx,hps,hdis,href,hown,hhost,htok,hpages,hnone⟩ : ∃ x,
      replay (smallConfig 9 9) id sharedCalls = some x ∧ x.2.kv.pageSize = 1 ∧
      x.2.kv.disablePrefixCache = false ∧ 1 ∈ refsOf x.2.requests .device ∧
      ownedOf x.2.requests .device = ↑[5,6] ∧ ownedOf x.2.requests .host = 0 ∧
      pathTokens x.2.kv.tree 1 = [7,8] ∧ pathPages .device x.2.kv.tree 1 = [8,7] ∧
      pageFor .device 1 x.2.kv.tree [7,8,5] = none := by
    decide +kernel
  have hr := reaches_of_replay hx
  have hinv := hr.sound.kv
  have howned : ownedOf x.2.requests = own .device [5,6] (fun _ => 0) := by
    funext u
    cases u with
    | device => simpa using hown
    | host => exact hhost
  refine ⟨x.1,x.2,hr,?_⟩
  have hdvd : x.2.kv.pageSize ∣ ([7,8,5,6] : List Token).length := by rw [hps]; exact Nat.one_dvd _
  refine ((tree_refines_map hinv hdvd).2.2 .device 1 [5,6] _ howned href
    (by rw [htok]; decide) (by rw [hpages,hps]; rfl)).runs ?_
  rintro _ kv' ⟨hfill,-,-,hmatch⟩
  refine ⟨?_,hmatch .prefixReuse (Or.inl hdis)⟩
  rw [hfill,hps,hpages,PrefixMap.fill,hnone]
  decide

end FluxServe
