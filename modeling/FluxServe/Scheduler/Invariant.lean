import FluxServe.Scheduler.Advance
import FluxServe.Fsm.FinishProof

namespace FluxServe

open KVPrefixCache

variable {s s' : Scheduler} {r x : Request} {rs rs' : List Request} {st st' : RequestState}
  {kv kv' : KVPrefixCache} {fresh : List NodeId} {id : RequestId} {t : ResourceType}

/-- The node references all requests hold. -/
def refsOf (rs : List Request) : ResourceType → Multiset NodeId :=
  fun t => ↑(rs.flatMap fun r => r.state.nodeRefs t)

/-- The device pages all requests hold; no request holds host pages of its own. -/
def ownedOf (rs : List Request) : ResourceType → Multiset PageId
  | .device => ↑(rs.flatMap fun r => r.state.localAllocatorPages)
  | .host => 0

def others (id : RequestId) (rs : List Request) : List Request := rs.filter fun r => r.id ≠ id

theorem mem_others : x ∈ others id rs ↔ x ∈ rs ∧ x.id ≠ id := by
  simp [others]

/-- With distinct ids an update touches one request. -/
theorem map_update_perm (hnd : (rs.map Request.id).Nodup) (hr : r ∈ rs) (g : Request → Request) :
    (rs.map fun x => if x.id = r.id then g x else x).Perm (g r :: others r.id rs) := by
  induction rs with
  | nil => cases hr
  | cons y rs ih =>
    rw [List.map_cons,List.nodup_cons] at hnd
    rw [List.map_cons]
    rcases List.mem_cons.mp hr with rfl | hr
    · have hne : ∀ x ∈ rs, x.id ≠ r.id :=
        fun x hx he => hnd.1 (List.mem_map.mpr ⟨x,hx,he⟩)
      have hrest : rs.map (fun x => if x.id = r.id then g x else x) = rs :=
        (List.map_congr_left fun x hx => if_neg (hne x hx)).trans (List.map_id' _)
      have hoth : others r.id (r :: rs) = rs := by
        unfold others
        rw [List.filter_cons_of_neg (by simp)]
        exact List.filter_eq_self.mpr fun x hx => by simpa using hne x hx
      rw [if_pos rfl,hrest,hoth]
    · have hne : y.id ≠ r.id := fun he => hnd.1 (List.mem_map.mpr ⟨r,hr,he.symm⟩)
      have hoth : others r.id (y :: rs) = y :: others r.id rs := by
        simp [others,hne]
      rw [if_neg hne,hoth]
      exact ((ih hnd.2 hr).cons y).trans (List.Perm.swap _ _ _)

theorem perm_others (hnd : (rs.map Request.id).Nodup) (hr : r ∈ rs) :
    rs.Perm (r :: others r.id rs) := by
  simpa using map_update_perm hnd hr id

theorem refsOf_perm (h : rs.Perm rs') : refsOf rs = refsOf rs' :=
  funext fun _ => Multiset.coe_eq_coe.mpr (h.flatMap_right _)

theorem ownedOf_perm (h : rs.Perm rs') : ownedOf rs = ownedOf rs' := by
  funext t
  cases t with
  | device => exact Multiset.coe_eq_coe.mpr (h.flatMap_right _)
  | host => rfl

theorem refsOf_cons : refsOf (r :: rs) = hold (fun t => r.state.nodeRefs t) (refsOf rs) := by
  funext t
  simp [refsOf,hold]

theorem ownedOf_cons :
    ownedOf (r :: rs) = own .device r.state.localAllocatorPages (ownedOf rs) := by
  funext t
  cases t <;> simp [ownedOf,own]

theorem mem_refsOf {i : NodeId} : i ∈ refsOf rs t ↔ ∃ r ∈ rs, i ∈ r.state.nodeRefs t := by
  simp [refsOf]

/-- The local allocator of a state that holds one. -/
def RequestState.local? : RequestState → Option LocalKVAllocator
  | prefilling f _ => f.localKVAllocator
  | prefillDone f _ _ => f.localKVAllocator
  | decoding f _ => f.localKVAllocator
  | retracting _ _ l _ => some l
  | retracted _ l => some l
  | _ => none

/-- A forward state's path begins the request's whole pages, and no tail is negative. -/
structure RequestOK (kv : KVPrefixCache) (r : Request) : Prop where
  path : ∀ f, r.state.forward? = some f →
    pathTokens kv.tree f.deviceNodeRef <+: r.fullPagedTokens kv.pageSize true
  tail : ∀ l, r.state.local? = some l → 0 ≤ l.tailPageAvailableTokens

def SchedulerConfig.totalPages (c : SchedulerConfig) : ResourceType → Nat
  | .device => c.deviceTotalPages
  | .host => c.hostTotalPages

/-- The invariant of the scheduler: the cache's invariant for exactly the references and pages
the requests hold. -/
structure Sound (s : Scheduler) : Prop where
  pageSize : s.kv.pageSize = s.config.pageSize
  disablePrefixCache : s.kv.disablePrefixCache = s.config.disablePrefixCache
  totalPages : ∀ t, (s.kv.manager t).allocator.totalPages = s.config.totalPages t
  ids : (s.requests.map Request.id).Nodup
  kv : KVInv s.kv (refsOf s.requests) (ownedOf s.requests)
  requests : ∀ r ∈ s.requests, RequestOK s.kv r

/-- The cache's invariant with one request's part set apart. -/
theorem Sound.split (h : Sound s) (hr : r ∈ s.requests) :
    KVInv s.kv (hold (fun t => r.state.nodeRefs t) (refsOf (others r.id s.requests)))
      (own .device r.state.localAllocatorPages (ownedOf (others r.id s.requests))) := by
  have hp := perm_others h.ids hr
  rw [← refsOf_cons,← ownedOf_cons,← refsOf_perm hp,← ownedOf_perm hp]
  exact h.kv

/-- A change of the cache that keeps a request's reference alive keeps what it stands for. -/
theorem RequestOK.change {refs : ResourceType → Multiset NodeId} (h : RequestOK kv r)
    (he : Evolves refs kv kv')
    (hlive : ∀ f, r.state.forward? = some f → (∃ n, kv.tree.read f.deviceNodeRef = some n) ∧
      ∃ n, kv'.tree.read f.deviceNodeRef = some n) : RequestOK kv' r := by
  refine ⟨fun f hf => ?_,h.tail⟩
  obtain ⟨⟨n,hn⟩,⟨n',hn'⟩⟩ := hlive f hf
  rw [he.tokens hn hn',he.pageSize]
  exact h.path f hf

theorem deviceNodeRef_mem {f : ForwardState} (hf : st.forward? = some f) :
    f.deviceNodeRef ∈ st.nodeRefs .device := by
  cases st <;> simp [RequestState.forward?] at hf <;> subst hf <;> simp [RequestState.nodeRefs]

theorem KVPrefixCache.KVInv.live_of_hold {a : ResourceType → List NodeId} {i : NodeId}
    {refs : ResourceType → Multiset NodeId} {owned : ResourceType → Multiset PageId}
    (h : KVInv kv (hold a refs) owned) (hi : i ∈ a t) : ∃ n, kv.tree.read i = some n :=
  h.live (mem_hold hi)

/-- Replace a request's state. -/
def Scheduler.withState (s : Scheduler) (id : RequestId) (st : RequestState) : Scheduler :=
  s.updateRequest id fun r => { r with state := st }

theorem ids_update (g : Request → Request) (hg : ∀ r, (g r).id = r.id) :
    ((s.updateRequest id g).requests.map Request.id) = s.requests.map Request.id := by
  simp only [Scheduler.updateRequest,List.map_map]
  refine List.map_congr_left fun r _ => ?_
  simp only [Function.comp_apply]
  split
  · exact hg r
  · rfl

theorem ids_withState : (s.withState id st).requests.map Request.id = s.requests.map Request.id :=
  ids_update (fun r => { r with state := st }) fun _ => rfl

theorem withState_perm (hnd : (s.requests.map Request.id).Nodup) (hr : r ∈ s.requests)
    (st' : RequestState) :
    (s.withState r.id st').requests.Perm ({ r with state := st' } :: others r.id s.requests) :=
  map_update_perm hnd hr fun r => { r with state := st' }

/-- The invariant after a transition of one request. -/
theorem Sound.transition {refs : ResourceType → Multiset NodeId} (h : Sound s) (hr : r ∈ s.requests)
    (hconfig : s'.config = s.config) (hrequests : s'.requests = (s.withState r.id st').requests)
    (hkv : KVInv s'.kv (hold (fun t => st'.nodeRefs t) (refsOf (others r.id s.requests)))
      (own .device st'.localAllocatorPages (ownedOf (others r.id s.requests))))
    (he : Evolves refs s.kv s'.kv) (hok : RequestOK s'.kv { r with state := st' }) : Sound s' := by
  have hp : s'.requests.Perm ({ r with state := st' } :: others r.id s.requests) := by
    rw [hrequests]
    exact withState_perm h.ids hr st'
  refine ⟨?_,?_,fun t => ?_,?_,?_,fun x hx => ?_⟩
  · rw [he.pageSize,hconfig,h.pageSize]
  · rw [he.disablePrefixCache,hconfig,h.disablePrefixCache]
  · rw [he.totalPages,hconfig,h.totalPages]
  · rw [hrequests]
    rw [ids_withState]
    exact h.ids
  · rw [refsOf_perm hp,ownedOf_perm hp,refsOf_cons,ownedOf_cons]
    exact hkv
  · rcases List.mem_cons.mp (hp.mem_iff.mp hx) with rfl | hx
    · exact hok
    · have hx' := (mem_others.mp hx).1
      refine (h.requests x hx').change he fun f hf => ⟨?_,?_⟩
      · exact h.kv.live (mem_refsOf.mpr ⟨x,hx',deviceNodeRef_mem hf⟩)
      · exact hkv.live (Multiset.mem_add.mpr (Or.inr (mem_refsOf.mpr ⟨x,hx,deviceNodeRef_mem hf⟩)))

/-- The invariant after a change of the cache alone. -/
theorem Sound.cache {refs : ResourceType → Multiset NodeId} (h : Sound s)
    (hconfig : s'.config = s.config) (hrequests : s'.requests = s.requests)
    (hkv : KVInv s'.kv (refsOf s.requests) (ownedOf s.requests)) (he : Evolves refs s.kv s'.kv) :
    Sound s' := by
  refine ⟨?_,?_,fun t => ?_,?_,?_,fun x hx => ?_⟩
  · rw [he.pageSize,hconfig,h.pageSize]
  · rw [he.disablePrefixCache,hconfig,h.disablePrefixCache]
  · rw [he.totalPages,hconfig,h.totalPages]
  · rw [hrequests]
    exact h.ids
  · rw [hrequests]
    exact hkv
  · rw [hrequests] at hx
    refine (h.requests x hx).change he fun f hf => ⟨?_,?_⟩
    · exact h.kv.live (mem_refsOf.mpr ⟨x,hx,deviceNodeRef_mem hf⟩)
    · exact hkv.live (mem_refsOf.mpr ⟨x,hx,deviceNodeRef_mem hf⟩)

section New

variable {ps : Nat} {i : NodeId} {n : TreeNode}

/-- The tree of a new cache. -/
def rootTree : Heap TreeNode := [some { parent := none }]

theorem read_rootTree (h : rootTree.read i = some n) : i = 0 ∧ n = { parent := none } := by
  cases i with
  | zero => exact ⟨rfl,by simpa [rootTree,Heap.read] using h.symm⟩
  | succ i => simp [rootTree,Heap.read] at h

theorem treeOK_rootTree (h : 0 < ps) : TreeOK ps rootTree := by
  refine ⟨h,⟨{ parent := none },rfl,rfl,rfl,rfl⟩,?_,?_⟩
  · intro i n hi h0
    exact absurd (read_rootTree hi).1 h0
  · intro i j _ _ _ hi hj _ _ _
    rw [(read_rootTree hi).1,(read_rootTree hj).1]

theorem hasResource_rootTree : hasResource t rootTree i = false := by
  unfold hasResource
  cases h : rootTree.read i with
  | none => rfl
  | some n => rw [(read_rootTree h).2]; cases t <;> rfl

end New

/-- The initial state: an empty tree and full pools. -/
theorem sound_new (config : SchedulerConfig) (clock : Nat → Timestamp) :
    Sound (Scheduler.new config clock) := by
  have hT : TreeOK config.pageSize rootTree := treeOK_rootTree config.pageSize_pos
  refine ⟨rfl,rfl,fun t => by cases t <;> rfl,by simp [Scheduler.new],⟨⟨hT,?_,fun t => ?_,fun t => ?_⟩,
    fun t => ?_,fun t => ?_⟩,by simp [Scheduler.new]⟩
  · intro i n hi
    rw [(read_rootTree hi).2]
  · refine ⟨fun {i} hi => ?_,fun {i} hi => ?_,fun {j} hj => ?_⟩
    · exact absurd (hasResource_rootTree.symm.trans hi) (by decide)
    · exact absurd (hasResource_rootTree.symm.trans hi) (by decide)
    · simp [refsOf,Scheduler.new] at hj
  · unfold PagesOK
    cases t <;>
      simp [Scheduler.new,newManager,manager,PageAllocator.new,collectAllPages,Heap.collect,
        TreeNode.pages,TreeNode.resource,ownedOf]
  · refine ⟨?_,?_,?_,fun i _ => ?_⟩
    · cases t <;> simp [Scheduler.new,newManager,manager]
    · cases t <;> simp [Scheduler.new,newManager,manager]
    · cases t <;> simp [Scheduler.new,newManager,manager]
    · have hleaf : isLeaf t rootTree i = false := by simp [isLeaf,hasResource_rootTree]
      refine ⟨fun h => ?_,fun h => absurd (hleaf.symm.trans h) (by decide)⟩
      cases t <;> simp [Scheduler.new,newManager,manager] at h
  · intro i n p hi hp
    rw [(read_rootTree hi).2] at hp
    cases hp

end FluxServe
