import FluxServe.Scheduler.Runs

namespace FluxServe

open KVPrefixCache

variable {config : SchedulerConfig} {clock : Nat → Timestamp} {history : List (Call × Reply)}
  {s : Scheduler}

/-- Every device page is free, in the tree or held by one request, every host page is free or in
the tree, and each is so once. -/
theorem pages_conserved (h : Reaches config clock history s) :
    (s.kv.device.allocator.freePages ++ collectAllPages .device s.kv ++
      s.requests.flatMap fun r => r.state.localAllocatorPages).Perm
        (PageAllocator.allPages config.deviceTotalPages) ∧
    (s.kv.host.allocator.freePages ++ collectAllPages .host s.kv).Perm
      (PageAllocator.allPages config.hostTotalPages) := by
  have hs := h.sound
  have htotal : ∀ t, (s.kv.manager t).allocator.totalPages = config.totalPages t := by
    intro t
    rw [hs.totalPages t,h.config_eq]
  refine ⟨?_,?_⟩
  · have hp := hs.kv.inv.pages .device
    unfold PagesOK at hp
    rw [htotal .device] at hp
    exact Multiset.coe_eq_coe.mp hp
  · have hp := hs.kv.inv.pages .host
    unfold PagesOK at hp
    rw [htotal .host] at hp
    simpa [ownedOf,SchedulerConfig.totalPages,manager] using hp

/-- A small scheduler for the runs on fixed inputs below: pages of one token, readings of the clock
one after the other. -/
def smallConfig (devicePages hostPages : Nat) : SchedulerConfig :=
  { pageSize := 1, pageSize_pos := Nat.one_pos, deviceTotalPages := devicePages,
    hostTotalPages := hostPages, maxScheduledTokens := 8, maxBatchSize := 2 }

/-- A request is prefilled, decoded and finished; its path is written back. -/
def servedCalls : List Call :=
  [.submit [{ requestId := [1], tokens := [7,8] }],.plan [[1]],.advance [.extendResult [1] [9]],
    .plan [[1]],.advance [.finish [1]],.plan [[1]]]

theorem served_replay : ∃ x, replay (smallConfig 9 9) id servedCalls = some x ∧
    x.2.requests.map (fun r => r.state.name) = [.writingBack] ∧
    hasResource .host x.2.kv.tree 1 = true ∧ (x.2.kv.manager .device).lruLeaves ≠ [] := by
  decide +kernel

theorem pages_conserved_served :
    ∃ history s, Reaches (smallConfig 9 9) id history s ∧
      s.requests.map (fun r => r.state.name) = [.writingBack] ∧
      (s.kv.host.allocator.freePages ++ collectAllPages .host s.kv).Perm
        (PageAllocator.allPages 9) := by
  obtain ⟨x,hx,hstates,_⟩ := served_replay
  exact ⟨x.1,x.2,reaches_of_replay hx,hstates,(pages_conserved (reaches_of_replay hx)).2⟩

/-- The ref counts of a tier are those of the given references, and every reference has its whole
path. -/
structure Locked (t : ResourceType) (tree : Heap TreeNode) (refs : Multiset NodeId) : Prop where
  count : ∀ i, hasResource t tree i = true → refCountOf t tree i = refsBelow tree refs i
  live : ∀ j ∈ refs, ∃ n, tree.read j = some n
  resident : ∀ j ∈ refs, ∀ i ∈ leafToRoot tree j, hasResource t tree i = true

/-- The operation keeps the invariant, whoever holds the references. -/
def KeepsLocks {α : Type} (x : KV α) (kv : KVPrefixCache) (refs : ResourceType → Multiset NodeId)
    (owned owned' : ResourceType → Multiset PageId) : Prop :=
  KVInv kv refs owned →
    Returns x kv fun _ kv' => KVInv kv' refs owned' ∧ ∀ t, Locked t kv'.tree (refs t)

section Locks

variable {kv : KVPrefixCache} {refs : ResourceType → Multiset NodeId}
  {owned : ResourceType → Multiset PageId} {t : ResourceType}

theorem KVPrefixCache.KVInv.locked (h : KVInv kv refs owned) (t : ResourceType) :
    Locked t kv.tree (refs t) :=
  ⟨fun _ hi => (h.inv.tier t).count hi,fun _ hj => ((h.inv.tier t).pinned hj).1,
    fun _ hj => ((h.inv.tier t).pinned hj).2⟩

theorem keepsLocks_of_returns {α : Type} {x : KV α} {Q : α → KVPrefixCache → Prop}
    {owned' : ResourceType → Multiset PageId}
    (h : KVInv kv refs owned → Returns x kv Q) (hQ : ∀ a kv', Q a kv' → KVInv kv' refs owned') :
    KeepsLocks x kv refs owned owned' := fun hinv =>
  (h hinv).runs fun a kv' ha => ⟨hQ a kv' ha,fun t => (hQ a kv' ha).locked t⟩

end Locks

/-- Lock accounting. In every reachable state the counts are those of the references the requests
hold; no call unlocks a node without the resource; and matches with their splits, insertions,
evictions with their prunes and demotions keep the accounts of any references, also of those that
are held on the stack while they run. -/
theorem locks_accounted (h : Reaches config clock history s) :
    (∀ t, Locked t s.kv.tree (refsOf s.requests t)) ∧
    (∀ c s', c.Ordered s → runCall c s ≠ .error (.undefined .unlockNullResource) s') ∧
    ∀ kv refs owned,
      (∀ t i n, kv.tree.read i = some n →
        (∀ j ∈ leafToRoot kv.tree i, hasResource t kv.tree j = true) → KVInv kv refs owned →
        Returns (lock t i) kv fun _ kv' => KVInv kv' (pin t i refs) owned) ∧
      (∀ t i, KVInv kv (pin t i refs) owned →
        Returns (unlock t i) kv fun _ kv' => KVInv kv' refs owned) ∧
      (∀ T intent, kv.pageSize ∣ T.length → KeepsLocks (matchTokens T intent) kv refs owned owned) ∧
      (∀ t num, KeepsLocks (ensureCapacityByEvict t num) kv refs owned owned) ∧
      (∀ d n, kv.tree.read d = some n →
        KeepsLocks (releaseDeviceResourcesPresentOnHost d) kv refs owned owned) ∧
      (∀ t T d prefixPages alloc, d ∈ refs t → pathTokens kv.tree d <+: T →
        prefixPages.length*kv.pageSize = (pathTokens kv.tree d).length → kv.pageSize ∣ T.length →
        (prefixPages.length+alloc.length)*kv.pageSize = T.length →
        KeepsLocks (insert t T prefixPages alloc) kv refs (own t alloc owned) owned) ∧
      (∀ t T m terminal nodes, Matched T kv.tree m terminal → Between t kv.tree m nodes →
        KeepsLocks (allocateResourceOfType t nodes) kv refs owned owned) := by
  refine ⟨fun t => h.sound.kv.locked t,fun c s' ho => unlock_defined h.sound ho,
    fun kv refs owned => ⟨?_,?_,?_,?_,?_,?_,?_⟩⟩
  · intro t i n hi hres hinv
    exact (lock_returns hinv hi hres).runs fun _ _ hq => hq.1
  · intro t i hinv
    exact (unlock_returns hinv).runs fun _ _ hq => hq.1
  · intro T intent hdvd
    exact keepsLocks_of_returns (fun hinv => matchTokens_returns hinv hdvd intent)
      fun _ _ hq => hq.1
  · intro t num
    exact keepsLocks_of_returns (ensureCapacityByEvict_returns num) fun _ _ hq => hq.1
  · intro d n hd
    exact keepsLocks_of_returns
      (fun hinv => releaseDeviceResourcesPresentOnHost_returns hinv hd) fun _ _ hq => hq.kvInv
  · intro t T d prefixPages alloc hd hdT hpre hdvd hlen
    exact keepsLocks_of_returns (fun hinv => insert_returns hinv hd hdT hpre hdvd hlen)
      fun _ _ hq => hq.1
  · intro t T m terminal nodes hm hb
    refine keepsLocks_of_returns (fun hinv => allocateResourceOfType_returns hinv hm hb) ?_
    rintro _ _ (⟨_,_,hc⟩ | ⟨_,_,hk,_⟩)
    · exact hc.kvInv
    · exact hk

theorem locks_accounted_served :
    ∃ history s, Reaches (smallConfig 9 9) id history s ∧
      s.requests.map (fun r => r.state.name) = [.writingBack] ∧
      ∀ t, Locked t s.kv.tree (refsOf s.requests t) := by
  obtain ⟨x,hx,hstates,_⟩ := served_replay
  exact ⟨x.1,x.2,reaches_of_replay hx,hstates,(locks_accounted (reaches_of_replay hx)).1⟩

end FluxServe
