import FluxServe.Resource.BareLeaves
import FluxServe.Resource.LruOrder
import FluxServe.Scheduler.CallRule
import FluxServe.Scheduler.Conservation

namespace FluxServe

open KVPrefixCache

variable {kv kv' : KVPrefixCache} {t u : ResourceType} {i j p : NodeId} {n : TreeNode}
  {refs : ResourceType → Multiset NodeId} {owned : ResourceType → Multiset PageId} {num : Int}

/-- An eviction succeeds exactly when the free and the unlocked pages suffice. What it detaches are
the unlocked leaves that its turns take, none of which has the tier's pages below it; nothing where
there are pages enough. -/
theorem eviction_complete (num : Int) (hinv : KVInv kv refs owned) :
    Returns (ensureCapacityByEvict t num) kv (fun ensured kv' =>
      (ensured = true ↔ num ≤
        (kv.availablePages t+(kv.tree.collect (TreeNode.unlockedPages t)).length : Nat)) ∧
      (∀ x ∈ detaching t (ensureTurns t num kv),
        hasResource t x.1.tree x.2 = true ∧ refCountOf t x.1.tree x.2 = 0 ∧
        ∀ j n, x.1.tree.read j = some n → n.parent = some x.2 →
          hasResource t x.1.tree j = false) ∧
      (∀ u j, hasResource u kv'.tree j = true ↔ hasResource u kv.tree j = true ∧
        (u = t → ∀ x ∈ detaching t (ensureTurns t num kv), j ≠ x.2)) ∧
      (num ≤ kv.availablePages t → ensured = true ∧ kv' = kv)) := by
  apply ((ensureCapacityByEvict_returns (t := t) num hinv).and_eq).runs
  rintro ensured kv' ⟨⟨_,_,hs,_,hens,_⟩,hok⟩
  obtain ⟨hturns,hlost⟩ := Runs.of_ok (ensureCapacityByEvict_turns num hinv) hok
  apply And.intro hens
  constructor
  · intro x hx
    have hmem := List.mem_filter.mp hx
    have hturn := hturns x hmem.1
    exact ⟨(isLeaf_iff.mp hturn.isLeaf).1,beq_iff_eq.mp hmem.2,fun j n => hturn.childless⟩
  constructor
  · intro u j
    by_cases hu : u = t
    · subst hu
      rw [hlost]
      simp
    · rw [hs.resident_other hu]
      simp [hu]
  · intro havailable
    rw [ensureCapacityByEvict_enough havailable] at hok
    cases hok
    exact ⟨rfl,rfl⟩

/-- The prompt of the second request extends that of the first; both are finished. -/
def chainedCalls : List Call :=
  [.submit [{ requestId := [1], tokens := [7,8] }],.plan [[1]],.advance [.extendResult [1] [9]],
    .advance [.finish [1]],.plan [[1]],.submit [{ requestId := [2], tokens := [7,8,5,6] }],
    .plan [[2]],.advance [.extendResult [2] [9]],.advance [.finish [2]],.plan [[2]]]

instance (tree : Heap TreeNode) : Decidable (NoBareLeaves tree) :=
  decidable_of_iff (∀ i ∈ List.range tree.length, ∀ n ∈ tree.read i, ∀ p ∈ n.parent,
    children tree i = [] → ∃ u ∈ [ResourceType.device,.host], hasResource u tree i = true) (by
    constructor
    · intro h i n p hi hp hc
      obtain ⟨u,_,hu⟩ := h i (List.mem_range.mpr (Heap.lt_of_read hi)) n hi p hp hc
      exact ⟨u,hu⟩
    · intro h i _ n hi p hp hc
      obtain ⟨u,hu⟩ := h i n p hi hp hc
      exact ⟨u,by cases u <;> simp,hu⟩)

theorem chained_replay : ∃ x, replay (smallConfig 9 0) id chainedCalls = some x ∧
    NoBareLeaves x.2.kv.tree ∧
    x.2.kv.availablePages .device+
      (x.2.kv.tree.collect (TreeNode.unlockedPages .device)).length = 8 ∧
    (detaching .device (ensureTurns .device 8 x.2.kv)).map Prod.snd = [2,1] ∧
    emptied .device 5 x.2.kv = [2] ∧ emptied .device 8 x.2.kv = [2,1] ∧
    (x.2.kv.tree.read 2).bind TreeNode.parent = some 1 ∧ children x.2.kv.tree 2 = [] ∧
    hasResource .host x.2.kv.tree 2 = false := by
  decide +kernel

theorem eviction_complete_chained :
    ∃ history s, Reaches (smallConfig 9 0) id history s ∧
      Returns (ensureCapacityByEvict .device 8) s.kv (fun ensured kv' =>
        ensured = true ∧ hasResource .device kv'.tree 1 = false ∧
          hasResource .device kv'.tree 2 = false) := by
  obtain ⟨x,hx,_,hcapacity,hturns,_⟩ := chained_replay
  have hr := reaches_of_replay hx
  refine ⟨x.1,x.2,hr,?_⟩
  apply (eviction_complete (t := .device) 8 hr.sound.kv).runs
  rintro ensured kv' ⟨hens,_,hlost,_⟩
  have hgone (j : NodeId) (hj : j ∈ [2,1]) : hasResource .device kv'.tree j = false := by
    rw [← hturns] at hj
    obtain ⟨y,hy,hyj⟩ := List.mem_map.mp hj
    rw [← Bool.not_eq_true]
    intro hres
    exact ((hlost .device j).mp hres).2 rfl y hy hyj.symm
  rw [hcapacity] at hens
  exact ⟨hens.mpr (by decide),hgone 1 (by decide),hgone 2 (by decide)⟩

/-- Without bare leaves before an eviction there are none after it, and no more nodes than resident
pages, exactly when it empties no node together with a childless one below that holds nothing on the
other tier. -/
theorem eviction_prunes (num : Int) (hinv : KVInv kv refs owned) (hbefore : NoBareLeaves kv.tree) :
    Returns (ensureCapacityByEvict t num) kv (fun _ kv' =>
      (NoBareLeaves kv'.tree ∧ kv'.tree.countP Option.isSome ≤
        1+(collectAllPages .device kv').length+(collectAllPages .host kv').length) ↔
      Unchained t (emptied t num kv) kv.tree) := by
  apply (ensureCapacityByEvict_leaves num hinv hbefore).runs
  rintro _ kv' ⟨hinv',hleaves⟩
  rw [← hleaves]
  constructor
  · exact And.left
  · intro h
    exact ⟨h,countP_le_pages hinv' h⟩

/-- Evicting the longer prompt alone leaves no bare node. -/
theorem eviction_prunes_chained :
    ∃ history s, Reaches (smallConfig 9 0) id history s ∧ NoBareLeaves s.kv.tree ∧
      Returns (ensureCapacityByEvict .device 5) s.kv (fun _ kv' => NoBareLeaves kv'.tree) := by
  obtain ⟨x,hx,hbefore,_,_,hemptied,_⟩ := chained_replay
  have hr := reaches_of_replay hx
  refine ⟨x.1,x.2,hr,hbefore,?_⟩
  apply (eviction_prunes (t := .device) 5 hr.sound.kv hbefore).runs
  intro _ kv' h
  apply (h.mpr ?_).1
  intro i n p hi hp hie hpe
  rw [hemptied,List.mem_singleton] at hie hpe
  subst hie hpe
  exact absurd (hr.sound.kv.inv.tree.depth_lt hi hp hi) (lt_irrefl _)

/-- Evicting both prompts leaves the node of the longer one, which has neither children nor pages. -/
theorem eviction_keeps_bareLeaf :
    ¬∀ history s, Reaches (smallConfig 9 0) id history s → NoBareLeaves s.kv.tree →
      Returns (ensureCapacityByEvict .device 8) s.kv (fun _ kv' => NoBareLeaves kv'.tree) := by
  intro hall
  obtain ⟨x,hx,hbefore,_,_,_,hemptied,hparent,hchildren,hother⟩ := chained_replay
  have hr := reaches_of_replay hx
  obtain ⟨n,hn,hp⟩ := Option.bind_eq_some_iff.mp hparent
  obtain ⟨_,kv',hok,_,hiff⟩ :=
    (ensureCapacityByEvict_leaves (t := .device) 8 hr.sound.kv hbefore).exists
  have hafter := Runs.of_ok (hall x.1 x.2 hr hbefore) hok
  have hun := hiff.mp hafter 2 n 1 hn hp (by simp [hemptied]) (by simp [hemptied])
  obtain hne | hres := hun
  · exact hne hchildren
  · rw [show ResourceType.device.other = .host from rfl,hother] at hres
    cases hres

theorem leafOrdered_callRule (t : ResourceType) :
    CallRule fun kv kv' => LeafOrdered (kv.manager t) → LeafOrdered (kv'.manager t) where
  toCacheRule := leafOrdered_rule t
  record kv l h := by cases t <;> exact h

/-- The leaves of every tier are in order after every call, also after one that threw. -/
theorem Reaches.leafOrdered {config : SchedulerConfig} {clock : Nat → Timestamp}
    {history : List (Call × Reply)} {s : Scheduler} (h : Reaches config clock history s)
    (t : ResourceType) : LeafOrdered (s.kv.manager t) := by
  induction h with
  | new => cases t <;> exact List.Pairwise.nil
  | call _ calls ih => exact ((leafOrdered_callRule t).callOperationRule.calls calls).1 ih

/-- Every leaf that `Evict` detaches is the least recently used node at that moment, if its keys
order the unlocked nodes of different branches as their latest visits do. -/
theorem eviction_lru (num : Int) (hinv : KVInv kv refs owned) (hord : LeafOrdered (kv.manager t))
    (hkeys : KeysAgree t kv) :
    ∀ x ∈ detaching t (ensureTurns t num kv), LeastRecentlyUsed t x.1.tree x.2 :=
  ensureTurns_leastRecentlyUsed hinv hord hkeys num

def lruConfig : SchedulerConfig := { smallConfig 12 0 with maxBatchSize := 3 }

/-- Two prompts, finished one after the other. -/
def agedCalls : List Call :=
  [.submit [{ requestId := [1], tokens := [7,8] },{ requestId := [2], tokens := [5,6] }],
    .plan [[1],[2]],.advance [.extendResult [1] [9],.extendResult [2] [9]],
    .advance [.finish [1],.finish [2]]]

/-- The first two requests have one prompt, and the second finishes last. -/
def staleCalls : List Call :=
  [.submit [{ requestId := [1], tokens := [7,8] },{ requestId := [2], tokens := [7,8] },
      { requestId := [3], tokens := [5,6] }],.plan [[1],[2],[3]],
    .advance [.extendResult [1] [9],.extendResult [2] [9],.extendResult [3] [9]],
    .advance [.finish [1],.finish [3],.finish [2]]]

theorem lru_replays :
    (∃ x, replay lruConfig id agedCalls = some x ∧
      (detaching .device (ensureTurns .device 11 x.2.kv)).map Prod.snd = [1,2] ∧
      KeysAgree .device x.2.kv) ∧
    ∃ x, replay lruConfig id staleCalls = some x ∧
      ∃ y ∈ detaching .device (ensureTurns .device 11 x.2.kv),
        Unlocked .device y.1.tree 2 ∧ children y.1.tree 2 = [] ∧
          ¬NotAfter (accessTime y.1.tree y.2,y.2) (accessTime y.1.tree 2,2) := by
  constructor
  · decide +kernel
  · decide +kernel

theorem eviction_lru_aged :
    ∃ history s, Reaches lruConfig id history s ∧
      (detaching .device (ensureTurns .device 11 s.kv)).map Prod.snd = [1,2] ∧
      ∀ x ∈ detaching .device (ensureTurns .device 11 s.kv),
        LeastRecentlyUsed .device x.1.tree x.2 := by
  obtain ⟨x,hx,hturns,hkeys⟩ := lru_replays.1
  have hr := reaches_of_replay hx
  exact ⟨x.1,x.2,hr,hturns,eviction_lru 11 hr.sound.kv (hr.leafOrdered .device) hkeys⟩

/-- The last visit of the node of the first prompt leaves its key alone, and it goes first. -/
theorem eviction_takes_recent :
    ¬∀ history s, Reaches lruConfig id history s → ∀ num,
      ∀ x ∈ detaching .device (ensureTurns .device num s.kv),
        LeastRecentlyUsed .device x.1.tree x.2 := by
  intro hall
  obtain ⟨x,hx,y,hy,hunlocked,hchildren,hlater⟩ := lru_replays.2
  apply hlater
  apply (hall x.1 x.2 (reaches_of_replay hx) 11 y hy).2
  apply And.intro hunlocked
  intro j n hj hp
  have hmem := mem_children.mpr ⟨n,hj,hp⟩
  rw [hchildren] at hmem
  cases hmem

end FluxServe
