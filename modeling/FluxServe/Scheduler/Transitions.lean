import FluxServe.Scheduler.Invariant

namespace FluxServe

open KVPrefixCache

/-- What a transition of the scheduler shows to the outside. -/
inductive Label
  | internal (loads : List TransferPair)
  | submit (id : RequestId)
  | finish (id : RequestId)
  | abort (id : RequestId)
  | giveUp (id : RequestId)
  | issue (op : WriteBackOperation)
  | complete (opId : CacheOpId)
  deriving DecidableEq, Repr

/-- A change of the cache under unchanged requests. -/
structure CacheMove (s s' : Scheduler) : Prop where
  sound : Sound s'
  config : s'.config = s.config
  requests : s'.requests = s.requests
  tracker : s'.cacheOpTracker = s.cacheOpTracker
  retractions : s'.retractions = s.retractions
  change : Change (refsOf s.requests) [] s.kv s'.kv

/-- One request goes to another state; what the others refer to is left alone. -/
structure Move (r : Request) (st' : RequestState) (fresh : List NodeId) (s s' : Scheduler) :
    Prop where
  found : r ∈ s.requests
  sound : Sound s'
  config : s'.config = s.config
  requests : s'.requests = (s.withState r.id st').requests
  tracker : s'.cacheOpTracker = s.cacheOpTracker
  retractions : s'.retractions = s.retractions
  change : Change (refsOf (others r.id s.requests)) fresh s.kv s'.kv

/-- The source pages of a load-back belong to nodes that have no device pages yet. -/
def LoadsFrom (kv : KVPrefixCache) (pairs : List TransferPair) : Prop :=
  ∀ p ∈ pairs, ∃ i, p.src ∈ nodePages .host kv.tree i ∧ hasResource .device kv.tree i = false

/-- What a retracted request keeps: the pages it occupied from the depth of its host node on. -/
structure Retained (kv : KVPrefixCache) (retractions : List (RequestId × List PageId))
    (r : Request) (h : NodeId) (l : LocalKVAllocator) : Prop where
  path : pathTokens kv.tree h <+: r.fullPagedTokens kv.pageSize true
  occupied : ∃ occ, retractions.lookup r.id = some occ ∧
    (pathTokens kv.tree h).length/kv.pageSize ≤ occ.length ∧
    occ.drop ((pathTokens kv.tree h).length/kv.pageSize) = l.pages

/-- The copies a write-back makes: device and host page of every node that got host pages. -/
structure CopiesTo (kv : KVPrefixCache) (d : NodeId) (fresh : List NodeId)
    (pairs : List TransferPair) : Prop where
  pairs : pairs = pairsOf .device kv.tree fresh
  path : fresh ⊆ leafToRoot kv.tree d

/-- The host pool cannot take a copy of the request's path: with what it has of it locked, the free
and the evictable host pages are fewer than the pages the host lacks. -/
def HostFull (s : Scheduler) (r : Request) : Prop :=
  ∃ m kvl, (∃ x, Matched (r.fullPagedTokens s.config.pageSize true) s.kv.tree m x) ∧
    Calm s.kv kvl ∧
    KVInv kvl (pin .host m.host (refsOf s.requests)) (ownedOf s.requests) ∧
    (kvl.capacity .host : Int) < ((nodeDepth s.kv.tree m.device/s.config.pageSize : Nat) : Int)-
      (nodeDepth s.kv.tree m.host/s.config.pageSize : Nat)

/-- The tracker learns of a new operation. -/
def Scheduler.issued (s : Scheduler) (op : WriteBackOperation) (id : RequestId) : Scheduler :=
  { s with
    kv := { s.kv with nextOpId := s.kv.nextOpId+1 }
    cacheOpTracker := (op.opId,id) :: dropKey op.opId s.cacheOpTracker }

def Scheduler.untracked (s : Scheduler) (opId : CacheOpId) : Scheduler :=
  { s with cacheOpTracker := dropKey opId s.cacheOpTracker }

/-- The life of requests and write-backs, as a transition system over the scheduler's states. -/
inductive Step : Scheduler → Label → Scheduler → Prop
  | cache {s s' : Scheduler} {pairs : List TransferPair} (move : CacheMove s s')
      (loads : LoadsFrom s.kv pairs) : Step s (.internal pairs) s'
  | forward {s s' : Scheduler} {pairs : List TransferPair} {r : Request} {f : ForwardState}
      {st' : RequestState} (before : r.state = .submitted ∨ ∃ f, r.state.forward? = some f)
      (after : st'.forward? = some f) (move : Move r st' [] s s') (loads : LoadsFrom s.kv pairs) :
      Step s (.internal pairs) s'
  | recover {s s' : Scheduler} {pairs : List TransferPair} {r : Request} {f : ForwardState}
      {st' : RequestState} {h : NodeId} {l : LocalKVAllocator} (before : r.state = .retracted h l)
      (after : st'.forward? = some f) (move : Move r st' [] s s') (loads : LoadsFrom s.kv pairs) :
      Step s (.internal pairs) s'
  | record {s : Scheduler} {r : Request} {f : ForwardState} (occ : List PageId)
      (found : r ∈ s.requests) (before : r.state.forward? = some f) :
      Step s (.internal []) { s with retractions := (r.id,occ) :: s.retractions }
  | extend {s : Scheduler} {r : Request} {tokens : List Token} (found : r ∈ s.requests)
      (before : r.state ≠ .submitted) :
      Step s (.internal []) (s.updateRequest r.id fun r => { r with tokens := r.tokens ++ tokens })
  | opId {s : Scheduler} :
      Step s (.internal []) { s with kv := { s.kv with nextOpId := s.kv.nextOpId+1 } }
  | untrack {s : Scheduler} (opId : CacheOpId) : Step s (.internal []) (s.untracked opId)
  | erase {s : Scheduler} : Step s (.internal [])
      { s with requests := s.requests.filter fun r => r.state ≠ .finished }
  | submit {s : Scheduler} {r : Request} (state : r.state = .submitted)
      (fresh : r.id ∉ s.requests.map Request.id) :
      Step s (.submit r.id) { s with requests := s.requests ++ [r] }
  | finished {s s' : Scheduler} {r : Request}
      (before : (∃ f, r.state.forward? = some f) ∨ ∃ h l, r.state = .retracted h l)
      (move : Move r .finished [] s s') : Step s (.finish r.id) s'
  | drain {s s' : Scheduler} {r : Request} {f : ForwardState} {fresh : List NodeId} {d : NodeId}
      {pairs : List TransferPair} (before : r.state.forward? = some f)
      (move : Move r (.draining pairs d d) fresh s s') (copies : CopiesTo s'.kv d fresh pairs)
      (some : pairs ≠ []) : Step s (.finish r.id) s'
  | keepWriting {s s' : Scheduler} {r : Request} {d : Option NodeId} {h : NodeId}
      {l : LocalKVAllocator} {pairs : List TransferPair} (before : r.state = .retracting d h l pairs)
      (move : Move r (.writingBack d h) [] s s')
      (own : Change (refsOf s.requests) [] s.kv s'.kv) : Step s (.finish r.id) s'
  | aborted {s s' : Scheduler} {r : Request} (before : ∀ d h, r.state ≠ .writingBack d h)
      (move : Move r .finished [] s s') : Step s (.abort r.id) s'
  | discarded {s s' : Scheduler} {r : Request} {d h : NodeId} (before : r.state = .draining [] d h)
      (move : Move r .finished [] s s') : Step s (.internal []) s'
  | gaveUp {s s' : Scheduler} {r : Request} {f : ForwardState} (before : r.state.forward? = some f)
      (full : HostFull s r) (move : Move r .finished [] s s') : Step s (.giveUp r.id) s'
  | issueDrained {s s' : Scheduler} {r : Request} {d h : NodeId} {op : WriteBackOperation}
      (before : r.state = .draining op.transfers d h)
      (opId : op.opId = s.kv.nextOpId % 2^32)
      (move : Move r (.writingBack (some d) h) [] s s') (kv : s'.kv = s.kv) :
      Step s (.issue op) (s'.issued op r.id)
  | retractDone {s s' : Scheduler} {r : Request} {f : ForwardState} {h : NodeId}
      {l : LocalKVAllocator} (before : r.state.forward? = some f)
      (move : Move r (.retracted h l) [] s s')
      (retained : Retained s'.kv s'.retractions r h l) : Step s (.internal []) s'
  | retractIssue {s s' : Scheduler} {r : Request} {f : ForwardState} {h : NodeId}
      {l : LocalKVAllocator} {fresh : List NodeId} {op : WriteBackOperation}
      (before : r.state.forward? = some f) (opId : op.opId = s'.kv.nextOpId % 2^32)
      (move : Move r (.retracting (some h) h l op.transfers) fresh s s')
      (copies : CopiesTo s'.kv h fresh op.transfers)
      (retained : Retained s'.kv s'.retractions r h l) : Step s (.issue op) (s'.issued op r.id)
  | written {s s' : Scheduler} {r : Request} {d : Option NodeId} {h : NodeId} {opId : CacheOpId}
      (tracked : s.cacheOpTracker.lookup opId = some r.id) (before : r.state = .writingBack d h)
      (move : Move r .finished [] (s.untracked opId) s') : Step s (.complete opId) s'
  | retracted {s s' : Scheduler} {r : Request} {d : Option NodeId} {h : NodeId} {opId : CacheOpId}
      {l : LocalKVAllocator} {pairs : List TransferPair}
      (tracked : s.cacheOpTracker.lookup opId = some r.id)
      (before : r.state = .retracting d h l pairs)
      (move : Move r (.retracted h l) [] (s.untracked opId) s') : Step s (.complete opId) s'
  | ignored {s : Scheduler} {id : RequestId} {opId : CacheOpId}
      (tracked : s.cacheOpTracker.lookup opId = some id)
      (before : id = [] ∨ ∀ r ∈ s.requests, r.id = id → (∀ d h, r.state ≠ .writingBack d h) ∧
        ∀ d h l pairs, r.state ≠ .retracting d h l pairs) :
      Step s (.complete opId) (s.untracked opId)

/-- A sequence of transitions with the labels it shows. -/
inductive Steps : Scheduler → List Label → Scheduler → Prop
  | nil {s : Scheduler} : Steps s [] s
  | cons {s s' s'' : Scheduler} {ℓ : Label} {ls : List Label} (step : Step s ℓ s')
      (steps : Steps s' ls s'') : Steps s (ℓ :: ls) s''

namespace Steps

variable {s s' s'' : Scheduler} {ℓ : Label} {ls ls' : List Label}

theorem single (h : Step s ℓ s') : Steps s [ℓ] s' := cons h nil

theorem append (h : Steps s ls s') (h' : Steps s' ls' s'') : Steps s (ls ++ ls') s'' := by
  induction h with
  | nil => exact h'
  | cons step _ ih => exact cons step (ih h')

/-- What every transition keeps holds at the end of every run. -/
theorem invariant {I : Scheduler → Prop} (hstep : ∀ {s ℓ s'}, I s → Step s ℓ s' → I s')
    (h : Steps s ls s') (hs : I s) : I s' := by
  induction h with
  | nil => exact hs
  | cons step _ ih => exact ih (hstep hs step)

end Steps

section Sound

variable {s s' : Scheduler} {ℓ : Label} {ls : List Label} {id : RequestId}

theorem Sound.of_eq (h : Sound s) (hkv : s'.kv = s.kv) (hconfig : s'.config = s.config)
    (hreq : s'.requests = s.requests) : Sound s' := by
  obtain ⟨h1,h2,h3,h4,h5,h6⟩ := h
  refine ⟨?_,?_,?_,?_,?_,?_⟩ <;> simpa only [hkv,hconfig,hreq]

/-- The counter of operation ids is invisible to the invariant. -/
theorem Sound.bump (h : Sound s) :
    Sound { s with kv := { s.kv with nextOpId := s.kv.nextOpId+1 } } := by
  obtain ⟨h1,h2,h3,h4,⟨⟨hT,hplain,htier,hpages⟩,hleaves,hclosed⟩,h6⟩ := h
  exact ⟨h1,h2,h3,h4,⟨⟨hT,hplain,htier,hpages⟩,
    fun t => ⟨(hleaves t).nodup,(hleaves t).entries,(hleaves t).root,(hleaves t).leaf⟩,hclosed⟩,
    fun r hr => ⟨(h6 r hr).path,(h6 r hr).tail⟩⟩

theorem Sound.issued (h : Sound s) (op : WriteBackOperation) (id : RequestId) :
    Sound (s.issued op id) := h.bump.of_eq rfl rfl rfl

/-- Appending tokens only adds whole pages. -/
theorem fullPagedTokens_append (r : Request) (tokens : List Token) (ps : Nat) (b : Bool) :
    r.fullPagedTokens ps b <+:
      ({ r with tokens := r.tokens ++ tokens } : Request).fullPagedTokens ps b := by
  have hle : ∀ a c, a ≤ c → a/ps*ps ≤ c/ps*ps :=
    fun a c h => Nat.mul_le_mul_right ps (Nat.div_le_div_right h)
  have hself : ∀ a, a/ps*ps ≤ a := fun a => Nat.div_mul_le_self a ps
  unfold Request.fullPagedTokens
  dsimp only
  have key : ∀ a c, a ≤ r.tokens.length → a ≤ c →
      r.tokens.take (a/ps*ps) <+: (r.tokens ++ tokens).take (c/ps*ps) := by
    intro a c ha hac
    have hlen : a/ps*ps ≤ r.tokens.length := (hself a).trans ha
    have happend : (r.tokens ++ tokens).take (a/ps*ps) = r.tokens.take (a/ps*ps) :=
      List.take_append_of_le_length hlen
    rw [← happend]
    exact List.take_prefix_take_left (hle a c hac)
  cases b
  · exact key _ _ le_rfl (by simp)
  · exact key _ _ (by simp) (by simp; omega)

theorem Sound.extend (h : Sound s) (id : RequestId) (tokens : List Token) :
    Sound (s.updateRequest id fun r => { r with tokens := r.tokens ++ tokens }) := by
  have hstate : ∀ (β : Type) (g : RequestState → List β),
      ((s.updateRequest id fun r => { r with tokens := r.tokens ++ tokens }).requests.flatMap
        fun r => g r.state) = s.requests.flatMap fun r => g r.state := by
    intro β g
    simp only [Scheduler.updateRequest,List.flatMap_map]
    congr 1
    funext r
    split <;> rfl
  have hrefs : refsOf (s.updateRequest id fun r => { r with tokens := r.tokens ++ tokens }).requests =
      refsOf s.requests := funext fun t => congrArg _ (hstate _ (RequestState.nodeRefs t))
  have howned : ownedOf (s.updateRequest id fun r => { r with tokens := r.tokens ++ tokens }).requests =
      ownedOf s.requests := by
    funext t
    cases t
    · exact congrArg _ (hstate _ RequestState.localAllocatorPages)
    · rfl
  refine ⟨h.pageSize,h.disablePrefixCache,h.totalPages,?_,?_,?_⟩
  · rw [ids_update (fun r => { r with tokens := r.tokens ++ tokens }) fun _ => rfl]
    exact h.ids
  · rw [hrefs,howned]
    exact h.kv
  · intro r hr
    obtain ⟨x,hx,rfl⟩ := List.mem_map.mp hr
    have hok := h.requests x hx
    split
    · exact ⟨fun f hf => (hok.path f hf).trans (fullPagedTokens_append x tokens _ _),hok.tail⟩
    · exact hok

theorem Sound.erase (h : Sound s) :
    Sound { s with requests := s.requests.filter fun r => r.state ≠ .finished } := by
  have hflat : ∀ (β : Type) (g : RequestState → List β), g .finished = [] →
      ((s.requests.filter fun r => r.state ≠ .finished).flatMap fun r => g r.state) =
        s.requests.flatMap fun r => g r.state := by
    intro β g hg
    induction s.requests with
    | nil => rfl
    | cons r rs ih =>
      by_cases hr : r.state = .finished
      · rw [List.filter_cons_of_neg (by simpa using hr),ih,List.flatMap_cons,hr,hg,List.nil_append]
      · rw [List.filter_cons_of_pos (by simpa using hr),List.flatMap_cons,List.flatMap_cons,ih]
  have hrefs : refsOf (s.requests.filter fun r => r.state ≠ .finished) = refsOf s.requests :=
    funext fun t => congrArg _ (hflat _ (RequestState.nodeRefs t) rfl)
  have howned : ownedOf (s.requests.filter fun r => r.state ≠ .finished) = ownedOf s.requests := by
    funext t
    cases t
    · exact congrArg _ (hflat _ RequestState.localAllocatorPages rfl)
    · rfl
  refine ⟨h.pageSize,h.disablePrefixCache,h.totalPages,?_,?_,?_⟩
  · exact h.ids.sublist (List.filter_sublist.map _)
  · rw [hrefs,howned]
    exact h.kv
  · exact fun r hr => h.requests r (List.mem_filter.mp hr).1

theorem Sound.submit {r : Request} (h : Sound s) (hst : r.state = .submitted)
    (hid : r.id ∉ s.requests.map Request.id) : Sound { s with requests := s.requests ++ [r] } := by
  have hrefs : refsOf (s.requests ++ [r]) = refsOf s.requests := by
    funext t
    simp [refsOf,hst,RequestState.nodeRefs]
  have howned : ownedOf (s.requests ++ [r]) = ownedOf s.requests := by
    funext t
    cases t <;> simp [ownedOf,hst,RequestState.localAllocatorPages]
  refine ⟨h.pageSize,h.disablePrefixCache,h.totalPages,?_,?_,fun x hx => ?_⟩
  · rw [List.map_append,List.nodup_append]
    refine ⟨h.ids,by simp,fun a ha b hb hab => hid ?_⟩
    rw [List.map_cons,List.map_nil,List.mem_singleton] at hb
    rw [← hb,← hab]
    exact ha
  · rw [hrefs,howned]
    exact h.kv
  · rcases List.mem_append.mp hx with hx | hx
    · exact h.requests x hx
    · rw [List.mem_singleton.mp hx]
      exact ⟨by simp [hst,RequestState.forward?],by simp [hst,RequestState.local?]⟩

theorem Step.sound (h : Step s ℓ s') (hs : Sound s) : Sound s' := by
  cases h with
  | cache move | forward _ _ move | recover _ _ move | finished _ move | drain _ move
  | keepWriting _ move | aborted _ move | discarded _ move | gaveUp _ _ move
  | retractDone _ move | written _ _ move | retracted _ _ move => exact move.sound
  | record | untrack | ignored => exact hs.of_eq rfl rfl rfl
  | extend => exact hs.extend _ _
  | opId => exact hs.bump
  | erase => exact hs.erase
  | submit hst hid => exact hs.submit hst hid
  | issueDrained _ _ move | retractIssue _ _ move => exact move.sound.issued _ _

theorem Steps.sound (h : Steps s ls s') (hs : Sound s) : Sound s' :=
  h.invariant (fun hI hstep => hstep.sound hI) hs

theorem Step.config_eq (h : Step s ℓ s') : s'.config = s.config := by
  cases h with
  | cache move | forward _ _ move | recover _ _ move | finished _ move | drain _ move
  | keepWriting _ move | aborted _ move | discarded _ move | gaveUp _ _ move
  | retractDone _ move | written _ _ move | retracted _ _ move | issueDrained _ _ move
  | retractIssue _ _ move => exact move.config
  | record | untrack | ignored | extend | opId | erase | submit => rfl

theorem Steps.config_eq (h : Steps s ls s') : s'.config = s.config := by
  induction h with
  | nil => rfl
  | cons step _ ih => exact ih.trans step.config_eq

end Sound

end FluxServe
