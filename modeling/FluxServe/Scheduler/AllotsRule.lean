import FluxServe.Resource.CacheRule
import FluxServe.Scheduler.FirstChunkProof

namespace FluxServe

open KVPrefixCache

variable {α β : Type} {s s' : Scheduler} {r : Request} {st : RequestState} {id : RequestId}
  {f : ForwardState} {w : Window} {t : ResourceType}

/-- A state that has its local allocator while there is something to prefill. -/
def RequestState.Allocated (st : RequestState) : Prop :=
  ∀ f w, st = .prefilling f w → f.localKVAllocator ≠ none

/-- Only finishing takes the local allocator of a request away, and no request that prefills is
finished. -/
def Allocated (s : Scheduler) : Prop := ∀ r ∈ s.requests, r.state.Allocated

theorem Allocated.of_requests (h : Allocated s) (hr : s'.requests = s.requests) : Allocated s' := by
  unfold Allocated
  rw [hr]
  exact h

theorem Allocated.update {g : Request → Request} (h : Allocated s)
    (hg : ∀ r ∈ s.requests, r.state.Allocated → (g r).state.Allocated) :
    Allocated (s.updateRequest id g) := by
  intro x hx
  obtain ⟨y,hy,rfl⟩ := List.mem_map.mp hx
  split
  · exact hg y hy (h y hy)
  · exact h y hy

/-- The cache changes along `R`, and the requests that prefill keep their allocators. -/
def Along (R : KVPrefixCache → KVPrefixCache → Prop) (s s' : Scheduler) : Prop :=
  R s.kv s'.kv ∧ (Allocated s → Allocated s')

def Allots (R : KVPrefixCache → KVPrefixCache → Prop) (x : Sched α) : Prop := Follows (Along R) x

namespace OperationRule

variable {R : KVPrefixCache → KVPrefixCache → Prop} (hR : OperationRule R)
include hR

section Cache

theorem follows_takeLocal (f : ForwardState) : Follows R (takeLocal f) := by
  unfold takeLocal
  split
  · exact hR.pure _
  · exact hR.follows_throwUndefined _

theorem follows_acquire (l : LocalKVAllocator) (num : Int) : Follows R (acquire l num) := by
  refine follows_ite (hR.pure _) (hR.bind hR.get fun kv => ?_)
  refine hR.bind (hR.follows_allocatePages _) fun pages => ?_
  exact follows_ite (hR.bind (hR.follows_throwException _) fun _ => hR.pure _) (hR.pure _)

theorem follows_unlockRefs (refs : Option NodeId × NodeId) : Follows R (unlockRefs refs) :=
  hR.bind (hR.follows_unlock _) fun _ => hR.follows_unlock? _

theorem follows_newLocalKVAllocator (refs : Option NodeId × NodeId) (tokens decode : Int) :
    Follows R (newLocalKVAllocator refs tokens decode) := by
  refine hR.bind (hR.unwinding (hR.follows_acquire _ _) (hR.follows_unlockRefs refs)) fun l => ?_
  exact hR.unwinding (hR.follows_acquire _ _)
    (hR.bind (hR.follows_deallocatePages _) fun _ => hR.follows_unlockRefs refs)

theorem follows_insertFinished (tokens : List Token) (prefixPages : List PageId)
    (l : Option LocalKVAllocator) : Follows R (insertFinished tokens prefixPages l) := by
  refine hR.bind hR.get fun kv => ?_
  cases l with
  | none => exact follows_ite (hR.follows_throwUndefined _) (hR.pure _)
  | some l =>
    refine follows_ite (hR.bind (hR.unwinding (hR.follows_takeFirst _ _)
      (hR.follows_deallocatePages _)) fun p => ?_) (hR.pure _)
    exact hR.bind (hR.unwinding (hR.follows_insert _ _ _ _) (hR.follows_deallocatePages _))
      fun _ => hR.pure _

theorem follows_prepareWriteBack (m : MatchResult) : Follows R (prepareWriteBack m) := by
  refine hR.bind (hR.follows_nodesWithout m) fun diff => ?_
  refine hR.bind (hR.follows_countPages diff) fun num => hR.bind (hR.follows_lock _) fun _ => ?_
  refine hR.bind (hR.follows_ensureCapacityByEvict _) fun ensured => ?_
  have hshort : Follows R (do
      unlock .host m.host
      return (none : Option (List TransferPair))) :=
    hR.bind (hR.follows_unlock _) fun _ => hR.pure _
  apply follows_ite _ hshort
  refine hR.bind (hR.follows_allocateHost diff) fun _ => hR.bind (hR.follows_lock _) fun _ => ?_
  refine hR.bind (hR.follows_lock _) fun _ => hR.bind (hR.follows_transferPairs _ diff) fun _ => ?_
  exact hR.bind (hR.follows_unlock _) fun _ => hR.pure _

theorem follows_demote (d : Option NodeId) : Follows R (demoteWrittenBackDevice d) := by
  cases d with
  | none => exact hR.pure _
  | some d => exact hR.bind (hR.follows_unlock d) fun _ => hR.follows_releaseDevice d

theorem follows_prepareRetract (m : MatchResult) : Follows R (prepareRetract m) := by
  refine hR.bind (hR.follows_depthInPage _) fun deviceDepth => ?_
  refine hR.bind (hR.follows_depthInPage _) fun hostDepth => ?_
  apply follows_ite _ (hR.bind (hR.follows_lock _) fun _ => hR.pure _)
  refine hR.bind (hR.follows_nodesWithout m) fun diff => hR.bind (hR.follows_lock _) fun _ => ?_
  refine hR.bind (hR.follows_allocateHost diff) fun allocated => ?_
  have hpin : Follows R (do
      let pairs ← transferPairs .device diff
      lock .host m.device
      return (some m.device,pairs)) :=
    hR.bind (hR.follows_transferPairs _ diff) fun _ => hR.bind (hR.follows_lock _) fun _ =>
      hR.pure _
  dsimp only
  refine follows_ite (hR.bind (hR.follows_unlock _) fun _ => ?_) hpin
  exact hR.bind (hR.follows_throwException _) fun _ => hpin

theorem follows_occupiedPages (f : ForwardState) : Follows R (occupiedPages f) := by
  refine hR.bind (hR.follows_devicePagesFromRoot _) fun pages => ?_
  split
  · exact hR.pure _
  · exact hR.follows_throwUndefined _

end Cache

section Basics

theorem allots_pure (a : α) : Allots R (Pure.pure a : Sched α) :=
  follows_pure (fun s => ⟨hR.refl s.kv,fun h => h⟩) a

theorem allots_throw (e : Fault) : Allots R (MonadExcept.throw e : Sched α) :=
  follows_throw (fun s => ⟨hR.refl s.kv,fun h => h⟩) e

theorem allots_get : Allots R (MonadState.get : Sched Scheduler) :=
  fun s => ⟨hR.refl s.kv,fun h => h⟩

theorem allots_trans {s s' s'' : Scheduler} (h : Along R s s') (h' : Along R s' s'') :
    Along R s s'' :=
  ⟨hR.trans h.1 h'.1,fun hs => h'.2 (h.2 hs)⟩

theorem allots_bind {x : Sched α} {g : α → Sched β} (hx : Allots R x) (hg : ∀ a, Allots R (g a)) :
    Allots R (x >>= g) :=
  follows_bind (R := Along R) hR.allots_trans hx hg

theorem allots_unwinding {x : Sched α} {c : Sched Unit} (hx : Allots R x) (hc : Allots R c) :
    Allots R (FluxServe.unwinding x c) :=
  follows_unwinding (R := Along R) hR.allots_trans hx hc

theorem allots_forM {g : α → Sched PUnit} (hg : ∀ a, Allots R (g a)) (as : List α) :
    Allots R (as.forM g) :=
  follows_forM (R := Along R) (fun s => ⟨hR.refl s.kv,fun h => h⟩) hR.allots_trans hg as

omit hR in
theorem allots_ite {c : Prop} [Decidable c] {x y : Sched α} (hx : Allots R x) (hy : Allots R y) :
    Allots R (if c then x else y) := follows_ite hx hy

theorem allots_modify {g : Scheduler → Scheduler} (hg : ∀ s, (g s).requests = s.requests)
    (hkv : ∀ s, (g s).kv = s.kv) : Allots R (modify g) := by
  intro s
  rw [runs_modify]
  refine ⟨?_,fun h => h.of_requests (hg s)⟩
  rw [hkv]
  exact hR.refl s.kv

omit hR in
/-- The cache does not know of the requests. -/
theorem allots_onKV {x : KV α} (hx : Follows R x) : Allots R (onKV x) := by
  intro s
  unfold onKV
  rw [runs_zoom]
  apply (hx s.kv).imp
  · exact fun _ kv hkv => ⟨hkv,fun h => h.of_requests rfl⟩
  · exact fun _ kv hkv => ⟨hkv,fun h => h.of_requests rfl⟩

theorem allots_setState (hst : st.Allocated) : Allots R (setState id st) := by
  intro s
  unfold setState
  rw [runs_modify]
  exact ⟨hR.refl s.kv,fun h => h.update fun _ _ _ => hst⟩

theorem allots_extendTokens (tokens : List Token) : Allots R (extendTokens id tokens) := by
  intro s
  unfold extendTokens
  rw [runs_modify]
  exact ⟨hR.refl s.kv,fun h => h.update fun _ _ hy => hy⟩

theorem allots_throwSched (e : Exception) : Allots R (throwSched e : Sched α) := hR.allots_throw _

theorem allots_getRequest : Allots R (getRequest id) := by
  apply hR.allots_bind hR.allots_get
  intro s
  split
  · exact hR.allots_pure _
  · exact hR.allots_throw _

theorem allots_allocateSlot : Allots R allocateSlot := by
  intro s
  unfold allocateSlot
  rw [runs_bind,runs_get]
  split
  · exact ⟨hR.refl s.kv,fun h => h⟩
  · exact ⟨hR.refl s.kv,fun h => h.of_requests rfl⟩

theorem allots_deallocateSlot (slot : Nat) : Allots R (deallocateSlot slot) :=
  hR.allots_modify (fun _ => rfl) fun _ => rfl

end Basics

section Events

theorem allots_dropForwardState (f : ForwardState) : Allots R (dropForwardState f) := by
  apply hR.allots_bind (allots_onKV (hR.follows_unlock? _))
  intro _
  apply hR.allots_bind (hR.allots_deallocateSlot _)
  intro _
  dsimp only
  split
  · exact hR.allots_bind (allots_onKV (hR.follows_deallocatePages _)) fun _ => allots_onKV (hR.follows_unlock _)
  · exact allots_onKV (hR.follows_unlock _)

theorem allots_dropState (st : RequestState) : Allots R (dropState st) := by
  cases st with
  | prefilling | prefillDone | decoding => exact hR.allots_dropForwardState _
  | draining =>
    exact allots_onKV (hR.bind (hR.follows_unlock _) fun _ => hR.follows_unlock _)
  | writingBack =>
    exact allots_onKV (hR.bind (hR.follows_unlock _) fun _ => hR.follows_unlock? _)
  | retracting =>
    exact allots_onKV (hR.bind (hR.follows_deallocatePages _) fun _ =>
      hR.bind (hR.follows_unlock _) fun _ => hR.follows_unlock? _)
  | retracted =>
    exact allots_onKV (hR.bind (hR.follows_deallocatePages _) fun _ => hR.follows_unlock _)
  | submitted | finished => exact hR.allots_pure _

theorem allots_applyPrefill (num : Int) : Allots R (applyPrefill r f w num) := by
  apply hR.allots_bind (allots_onKV (hR.follows_takeLocal _))
  intro l
  apply hR.allots_bind (allots_onKV (hR.follows_acquire _ _))
  intro l'
  dsimp only
  apply allots_ite
  · apply hR.allots_bind hR.allots_get
    intro s
    exact hR.allots_setState (by rintro _ _ ⟨⟩)
  · apply hR.allots_setState
    rintro _ _ ⟨⟩
    simp

theorem allots_applyDecode (reserve : Int) : Allots R (applyDecode r f reserve) := by
  apply hR.allots_bind (allots_onKV (hR.follows_takeLocal _))
  intro l
  apply hR.allots_bind (allots_onKV (hR.follows_acquire _ _))
  intro l'
  apply hR.allots_bind hR.allots_get
  intro s
  exact hR.allots_setState (by rintro _ _ ⟨⟩)

omit hR in
theorem finishedState_allocated (m : MatchResult) (pairs : Option (List TransferPair)) :
    (finishedState m pairs).Allocated := by
  cases pairs <;> rintro _ _ ⟨⟩

theorem allots_applyFinish (hst : st.Allocated) : Allots R (applyFinish r f st) := by
  apply hR.allots_bind hR.allots_get
  intro s
  apply hR.allots_bind (allots_onKV (hR.follows_devicePagesFromRoot _))
  intro prefixPages
  apply hR.allots_bind (hR.allots_setState hst)
  intro _
  apply hR.allots_bind (allots_onKV (hR.follows_insertFinished _ _ _))
  intro kept
  apply hR.allots_bind (allots_onKV (hR.unwinding (hR.follows_matchTokens _ _) (hR.follows_deallocatePages _)))
  intro m
  apply hR.allots_bind (allots_onKV (hR.follows_depthInPage _))
  intro deviceDepth
  apply hR.allots_bind (allots_onKV (hR.follows_depthInPage _))
  intro hostDepth
  have hend (pairs : Option (List TransferPair)) : Allots R (do
      onKV (deallocatePages .device kept)
      dropForwardState { f with localKVAllocator := none }
      setState r.id (finishedState m pairs)) := by
    apply hR.allots_bind (allots_onKV (hR.follows_deallocatePages _))
    intro _
    apply hR.allots_bind (hR.allots_dropForwardState _)
    intro _
    exact hR.allots_setState (finishedState_allocated m pairs)
  dsimp only
  apply allots_ite
  · exact hR.allots_bind (allots_onKV (hR.follows_prepareWriteBack _)) hend
  · exact hR.allots_bind (hR.allots_pure _) hend

theorem allots_invalidTransition (event : EventName) (st : RequestState) :
    Allots R (invalidTransition event st) := hR.allots_throwSched _

theorem allots_finishEvent (r : Request) : Allots R (finishEvent r) := by
  unfold finishEvent
  split
  · exact hR.allots_applyFinish (by rintro _ _ ⟨⟩)
  · exact hR.allots_applyFinish (by rintro _ _ ⟨⟩)
  · exact hR.allots_bind (allots_onKV (hR.follows_deallocatePages _)) fun _ => hR.allots_setState (by rintro _ _ ⟨⟩)
  · exact hR.allots_bind (hR.allots_dropState _) fun _ => hR.allots_setState (by rintro _ _ ⟨⟩)
  · exact hR.allots_pure _
  · exact hR.allots_invalidTransition _ _

theorem allots_abortEvent (r : Request) : Allots R (abortEvent r) := by
  unfold abortEvent
  split
  · exact hR.allots_pure _
  · exact hR.allots_invalidTransition _ _
  · exact hR.allots_bind (hR.allots_dropState _) fun _ => hR.allots_setState (by rintro _ _ ⟨⟩)

theorem allots_commitDrainingEvent (r : Request) : Allots R (commitDrainingEvent r) := by
  unfold commitDrainingEvent
  split
  · exact hR.allots_setState (by rintro _ _ ⟨⟩)
  · exact hR.allots_invalidTransition _ _

theorem allots_writeBackDoneEvent (r : Request) : Allots R (writeBackDoneEvent r) := by
  unfold writeBackDoneEvent
  split
  · exact hR.allots_bind (allots_onKV (hR.bind (hR.follows_demote _) fun _ => hR.follows_unlock _)) fun _ => hR.allots_setState (by rintro _ _ ⟨⟩)
  · exact hR.allots_bind (allots_onKV (hR.follows_demote _)) fun _ => hR.allots_setState (by rintro _ _ ⟨⟩)
  · exact hR.allots_invalidTransition _ _

theorem allots_updateReserveNumTokensEvent (r : Request) (n : Int) :
    Allots R (updateReserveNumTokensEvent r n) := by
  unfold updateReserveNumTokensEvent
  split
  · exact hR.allots_setState (by rintro _ _ ⟨⟩)
  · exact hR.allots_pure _
  · exact hR.allots_pure _
  · exact hR.allots_pure _
  · exact hR.allots_invalidTransition _ _

theorem allots_extendResultEvent (r : Request) (tokens : List Token) :
    Allots R (extendResultEvent r tokens) := by
  unfold extendResultEvent
  split
  · exact hR.allots_extendTokens tokens
  · apply hR.allots_bind (hR.allots_extendTokens tokens)
    intro _
    exact allots_ite (hR.allots_throwSched _) (hR.allots_pure _)
  · exact hR.allots_extendTokens tokens
  · exact hR.allots_extendTokens tokens
  · exact hR.allots_pure _
  · exact hR.allots_invalidTransition _ _

theorem allots_applyRetract (m : MatchResult) : Allots R (applyRetract r f m) := by
  apply hR.allots_bind (allots_onKV (hR.follows_takeLocal _))
  intro l
  apply hR.allots_bind (allots_onKV (hR.follows_prepareRetract _))
  intro p
  apply hR.allots_bind (hR.allots_dropForwardState _)
  intro _
  exact hR.allots_setState (by rintro _ _ ⟨⟩)

end Events

section Plan

theorem allots_getForward (function expected : String) :
    Allots R (getForward function expected r) := by
  unfold getForward
  split
  · exact hR.allots_pure _
  · exact hR.allots_throwSched _

theorem allots_check (w : Window) : Allots R (prefillInfo.check w) :=
  allots_ite (hR.allots_throwSched _) (hR.allots_pure _)

theorem allots_prefillInfo : Allots R (prefillInfo r) := by
  unfold prefillInfo
  split
  · exact hR.allots_check _
  · exact hR.allots_check _
  · exact hR.allots_throwSched _

theorem allots_prefillOperation (start : Nat) : Allots R (prefillOperation id start) := by
  apply hR.allots_bind hR.allots_getRequest
  intro r
  apply hR.allots_bind (hR.allots_getForward _ _)
  intro f
  apply hR.allots_bind (allots_onKV (hR.follows_occupiedPages _))
  intro pages
  exact hR.allots_bind hR.allots_prefillInfo fun _ => hR.allots_pure _

theorem allots_decodeOperation (start : Nat) : Allots R (decodeOperation id start) := by
  apply hR.allots_bind hR.allots_getRequest
  intro r
  apply hR.allots_bind (hR.allots_getForward _ _)
  intro f
  apply hR.allots_bind (allots_onKV (hR.follows_occupiedPages _))
  intro pages
  exact hR.allots_bind hR.allots_get fun _ => hR.allots_pure _

theorem allots_recoverOperation : Allots R (recoverOperation id) := by
  apply hR.allots_bind hR.allots_getRequest
  intro r
  apply hR.allots_bind (hR.allots_getForward _ _)
  intro f
  apply hR.allots_bind (allots_onKV (hR.follows_occupiedPages _))
  intro pages
  have hend (x : Token) : Allots R (do
      return ForwardOperation.decode
        { requestId := id, requestPoolIndex := f.reqPoolIndex,
          inputLength := (← MonadState.get).config.decodeInputTokens, occupiedPages := pages, start := 0,
          size := pages.length, prefillLength := 0 } x (r.tokens.length-1)) :=
    hR.allots_bind hR.allots_get fun _ => hR.allots_pure _
  dsimp only
  split
  · exact hR.allots_bind (hR.allots_pure _) hend
  · exact hR.allots_bind (hR.allots_throw _) hend

theorem allots_schedulePrefillFirstChunk (remaining : Int) :
    Allots R (schedulePrefillFirstChunk r remaining) := by
  apply hR.allots_bind hR.allots_get
  intro s
  apply allots_ite (hR.allots_pure _)
  apply allots_onKV
  refine hR.bind (hR.follows_matchTokens _ _) fun m => ?_
  refine hR.bind (hR.follows_depthInPage _) fun deviceMatched => ?_
  refine hR.bind (hR.follows_depthInPage _) fun hostMatched => ?_
  have hroom (diff : List NodeId) (tokens needed : Int) : Follows R (do
      lock .device m.device
      let ensured ← ensureCapacityByEvict .device needed
      unlock .device m.device
      if ensured then return some (⟨tokens,m,diff⟩ : FirstChunkEvent)
      return none) := by
    refine hR.bind (hR.follows_lock _) fun _ => ?_
    refine hR.bind (hR.follows_ensureCapacityByEvict _) fun ensured => ?_
    exact hR.bind (hR.follows_unlock _) fun _ => follows_ite (hR.pure _) (hR.pure _)
  dsimp only
  exact follows_ite (hR.bind (hR.pure _) fun diff => hroom diff _ _)
    (hR.bind (hR.follows_nodesWithout m) fun diff => hroom diff _ _)

theorem allots_schedulePrefill (remaining : Int) : Allots R (schedulePrefill r w remaining) := by
  apply hR.allots_bind hR.allots_get
  intro s
  apply hR.allots_bind (allots_onKV (hR.follows_ensureCapacityByEvict _))
  intro ensured
  exact allots_ite (hR.allots_pure _) (hR.allots_pure _)

theorem allots_scheduleDecode (reserve : Int) (asserted : Bool) :
    Allots R (scheduleDecode f reserve asserted) := by
  apply hR.allots_bind (allots_onKV (hR.follows_takeLocal _))
  intro l
  have hend : Allots R (do
      onKV (ensureCapacityByEvict .device
        (pagesFor (max 0 (reserve-l.tailPageAvailableTokens)) (← MonadState.get).config.pageSize))) :=
    hR.allots_bind hR.allots_get fun _ => allots_onKV (hR.follows_ensureCapacityByEvict _)
  dsimp only
  exact allots_ite (hR.allots_bind (hR.allots_throwSched _) fun _ => hend) hend

theorem allots_scheduleDecodeFromRetracted : Allots R (scheduleDecodeFromRetracted r) := by
  apply hR.allots_bind hR.allots_get
  intro s
  apply allots_ite (hR.allots_pure _)
  apply allots_onKV
  refine hR.bind (hR.follows_matchTokens _ _) fun m => ?_
  refine hR.bind (hR.follows_nodesWithout m) fun diff => ?_
  refine hR.bind (hR.follows_depthInPage _) fun deviceMatched => ?_
  refine hR.bind (hR.follows_depthInPage _) fun hostMatched => ?_
  refine hR.bind (hR.follows_lock _) fun _ => ?_
  refine hR.bind (hR.follows_ensureCapacityByEvict _) fun ensured => ?_
  exact hR.bind (hR.follows_unlock _) fun _ => follows_ite (hR.pure _) (hR.pure _)

theorem allots_pushLoadBack (a : Forwarding) (diff : List NodeId) : Allots R (pushLoadBack a diff) := by
  apply allots_ite (hR.allots_pure _)
  apply hR.allots_bind (allots_onKV hR.follows_allocateCacheOpId)
  intro opId
  exact hR.allots_bind (allots_onKV (hR.follows_transferPairs _ _)) fun _ => hR.allots_pure _

theorem allots_decode (a : Forwarding) (reserve : Int) (asserted : Bool) :
    Allots R (forwardDecode.decode a id r f reserve asserted) := by
  apply hR.allots_bind (hR.allots_scheduleDecode reserve asserted)
  intro ensured
  apply allots_ite
  · apply hR.allots_bind (allots_onKV (hR.follows_occupiedPages _))
    intro pages
    apply hR.allots_bind (hR.allots_applyDecode reserve)
    intro _
    exact hR.allots_bind (hR.allots_decodeOperation _) fun _ => hR.allots_pure _
  · exact hR.allots_pure _

theorem allots_forwardDecode (a : Forwarding) : Allots R (forwardDecode a id) := by
  apply hR.allots_bind hR.allots_getRequest
  intro r
  split
  · exact hR.allots_decode a _ _
  · exact hR.allots_decode a _ _
  · exact hR.allots_pure _

theorem allots_forwardPrefill (a : Forwarding) : Allots R (forwardPrefill a r f w) := by
  apply hR.allots_bind (hR.allots_schedulePrefill _)
  intro o
  split
  · exact hR.allots_pure _
  · apply hR.allots_bind (allots_onKV (hR.follows_occupiedPages _))
    intro pages
    apply hR.allots_bind (hR.allots_applyPrefill _)
    intro _
    exact hR.allots_bind (hR.allots_prefillOperation _) fun _ => hR.allots_pure _

theorem allots_scheduleRetract {retained : LocalKVAllocator → RequestState}
    (hst : ∀ l, (retained l).Allocated) : Allots R (scheduleRetract r f retained) := by
  apply hR.allots_bind hR.allots_get
  intro s
  apply hR.allots_bind (allots_onKV (hR.follows_devicePagesFromRoot _))
  intro prefixPages
  apply hR.allots_bind (allots_onKV (hR.follows_occupiedPages _))
  intro occupied
  apply hR.allots_bind (allots_onKV (hR.follows_takeLocal _))
  intro l
  apply hR.allots_bind (allots_onKV (hR.follows_takeFirst _ _))
  intro p
  apply hR.allots_bind (hR.allots_setState (hst _))
  intro _
  apply hR.allots_bind
  · apply allots_onKV
    refine hR.bind (hR.follows_insert _ _ _ _) fun _ => ?_
    refine hR.bind (hR.follows_matchTokens _ _) fun m => hR.bind (hR.follows_lock _) fun _ => ?_
    refine hR.bind (hR.follows_depthInPage _) fun deviceMatched => ?_
    refine hR.bind (hR.follows_depthInPage _) fun hostMatched => ?_
    refine hR.bind (hR.follows_ensureCapacityByEvict _) fun ensured => ?_
    exact hR.bind (hR.follows_unlock _) fun _ => hR.pure _
  intro matched
  dsimp only
  apply allots_ite
  · exact hR.allots_bind (hR.allots_modify (fun _ => rfl) fun _ => rfl) fun _ => hR.allots_pure _
  · exact hR.allots_pure _

theorem allots_trackOp (opId : CacheOpId) : Allots R (trackOp opId id) :=
  hR.allots_modify (fun _ => rfl) fun _ => rfl

theorem allots_applyRetractAndGenerateOp (m : MatchResult) :
    Allots R (applyRetractAndGenerateOp r m) := by
  apply hR.allots_bind (hR.allots_getForward _ _)
  intro f
  apply hR.allots_bind (hR.allots_applyRetract m)
  intro _
  apply hR.allots_bind hR.allots_getRequest
  intro r'
  split
  · exact hR.allots_bind (hR.allots_writeBackDoneEvent r') fun _ => hR.allots_pure _
  · apply hR.allots_bind (allots_onKV hR.follows_allocateCacheOpId)
    intro opId
    exact hR.allots_bind (hR.allots_trackOp opId) fun _ => hR.allots_pure _
  · exact hR.allots_throwSched _

theorem allots_newRetractOperation : Allots R (newRetractOperation id) := by
  apply hR.allots_bind hR.allots_getRequest
  intro r
  have hend (scheduled : Option MatchResult) : Allots R (finishRetract id scheduled) := by
    apply hR.allots_bind hR.allots_getRequest
    intro r'
    cases scheduled with
    | some m => exact hR.allots_applyRetractAndGenerateOp m
    | none => exact hR.allots_bind (hR.allots_abortEvent r') fun _ => hR.allots_pure _
  dsimp only
  split
  · exact hR.allots_bind (hR.allots_scheduleRetract fun _ => by rintro _ _ ⟨⟩) hend
  · exact hR.allots_bind (hR.allots_scheduleRetract fun _ => by rintro _ _ ⟨⟩) hend
  · exact hR.allots_bind (hR.allots_throwSched _) hend

theorem allots_commitDraining : Allots R (commitDraining id) := by
  apply hR.allots_bind hR.allots_getRequest
  intro r
  split
  · exact hR.allots_bind (hR.allots_abortEvent r) fun _ => hR.allots_pure _
  · apply hR.allots_bind (allots_onKV hR.follows_allocateCacheOpId)
    intro opId
    apply hR.allots_bind (hR.allots_trackOp opId)
    intro _
    exact hR.allots_bind (hR.allots_commitDrainingEvent r) fun _ => hR.allots_pure _
  · exact hR.allots_pure _

theorem allots_writeBackLoop (ids : List RequestId) : Allots R (writeBackLoop ids) := by
  induction ids with
  | nil => exact hR.allots_pure _
  | cons id ids ih =>
    apply hR.allots_bind hR.allots_commitDraining
    intro ops
    exact hR.allots_bind ih fun _ => hR.allots_pure _

theorem allots_newWriteBackOperation (order : List RequestId) :
    Allots R (newWriteBackOperation order) := by
  apply hR.allots_bind hR.allots_get
  intro s
  exact allots_ite (hR.allots_pure _) (hR.allots_writeBackLoop order)

theorem allots_eraseFinished : Allots R eraseFinished := by
  intro s
  unfold eraseFinished
  rw [runs_modify]
  exact ⟨hR.refl s.kv,fun h r hr => h r (List.mem_filter.mp hr).1⟩

end Plan

end OperationRule

/-- What leaves the record of load-backs alone. -/
abbrev KeepsLoads (x : Sched α) : Prop := Keeps (fun s : Scheduler => s.kv.loadedBack) x

theorem keepsLoads_of_allots {x : Sched α}
    (hx : Allots (fun kv kv' => kv'.loadedBack = kv.loadedBack) x) : KeepsLoads x :=
  fun s => (hx s).imp (fun _ _ h => h.1) (fun _ _ h => h.1)

end FluxServe
