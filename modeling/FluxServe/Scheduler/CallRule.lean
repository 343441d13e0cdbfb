import FluxServe.Scheduler.AllotsRule
import FluxServe.Scheduler.Runs

namespace FluxServe

open KVPrefixCache

variable {α β : Type} {config : SchedulerConfig} {clock : Nat → Timestamp}
  {history : List (Call × Reply)} {s s' : Scheduler} {r : Request} {st : RequestState}
  {id : RequestId} {f : ForwardState} {w : Window} {t : ResourceType}

/-- What a relation between caches has to allow so that every call respects it. -/
structure CallRule (R : KVPrefixCache → KVPrefixCache → Prop) : Prop extends CacheRule R where
  record (kv : KVPrefixCache) (l : List TransferPair) : R kv { kv with loadedBack := l }

/-- A relation that every operation of the cache respects, also the one that loads pages back. -/
structure CallOperationRule (R : KVPrefixCache → KVPrefixCache → Prop) : Prop
    extends OperationRule R where
  follows_allocate {t : ResourceType} (nodes : List NodeId) :
    Follows R (allocateResourceOfType t nodes)

theorem CallRule.callOperationRule {R : KVPrefixCache → KVPrefixCache → Prop} (hR : CallRule R) :
    CallOperationRule R where
  toOperationRule := hR.operationRule
  follows_allocate := hR.follows_allocateResourceOfType fun _ => hR.record

namespace CallOperationRule

variable {R : KVPrefixCache → KVPrefixCache → Prop} (hR : CallOperationRule R)
include hR

section Cache

theorem follows_lockLoadedBack (m : MatchResult) (checked : Bool) :
    Follows R (lockLoadedBack m checked) := by
  refine hR.bind (hR.follows_lock _) fun _ => hR.bind (hR.follows_nodesWithout m) fun diff => ?_
  refine hR.bind (hR.follows_allocate diff) fun allocated => ?_
  have hlock : Follows R (do
      lock .device m.host
      return (some m.host,m.host)) := hR.bind (hR.follows_lock _) fun _ => hR.pure _
  dsimp only
  refine follows_ite (hR.bind (hR.follows_unlock _) fun _ => ?_) hlock
  exact hR.bind (hR.follows_throwException _) fun _ => hlock

theorem follows_lockMatch (m : MatchResult) (loads checked : Bool) :
    Follows R (lockMatch m loads checked) :=
  follows_ite (hR.follows_lockLoadedBack m checked)
    (hR.bind (hR.follows_lock _) fun _ => hR.pure _)

end Cache

section Events

omit hR in
theorem firstChunkState_allocated (c : SchedulerConfig) (r : Request) (w : Window)
    (hf : f.localKVAllocator ≠ none) : (firstChunkState c r f w).Allocated := by
  intro g v hg
  unfold firstChunkState at hg
  split at hg
  · cases hg
  · cases hg
    exact hf

theorem allots_firstChunk (c : SchedulerConfig) (hf : f.localKVAllocator ≠ none) :
    Allots R (if w.start+w.size = r.prefillSize then
        setState r.id (.prefillDone f w c.decodeInputTokens)
      else setState r.id (.prefilling f w)) := by
  split
  · exact hR.allots_setState (by rintro _ _ ⟨⟩)
  · apply hR.allots_setState
    rintro _ _ ⟨⟩
    exact hf

theorem allots_applyFirstChunk (ev : FirstChunkEvent) : Allots R (applyFirstChunk r ev) := by
  apply hR.allots_bind hR.allots_get
  intro s
  apply hR.allots_bind (OperationRule.allots_onKV (hR.follows_depthInPage _))
  intro deviceDepth
  apply hR.allots_bind (OperationRule.allots_onKV (hR.follows_depthInPage _))
  intro hostDepth
  apply hR.allots_bind (OperationRule.allots_onKV (hR.follows_lockMatch _ _ _))
  intro refs
  apply hR.allots_bind (OperationRule.allots_onKV (hR.follows_newLocalKVAllocator _ _ _))
  intro l
  apply hR.allots_bind
  · apply hR.allots_unwinding hR.allots_allocateSlot
    exact OperationRule.allots_onKV
      (hR.bind (hR.follows_deallocatePages _) fun _ => hR.follows_unlockRefs _)
  intro slot
  exact hR.allots_firstChunk s.config (by simp)

theorem allots_applyRecover (host : NodeId) (l : LocalKVAllocator) (ev : RecoverEvent) :
    Allots R (applyRecover r host l ev) := by
  apply hR.allots_bind hR.allots_get
  intro s
  apply hR.allots_bind (OperationRule.allots_onKV (hR.follows_depthInPage _))
  intro deviceDepth
  apply hR.allots_bind (OperationRule.allots_onKV (hR.follows_depthInPage _))
  intro hostDepth
  apply hR.allots_bind (OperationRule.allots_onKV (hR.follows_lockMatch _ _ _))
  intro refs
  have hlost : Allots R (do
      onKV do
        deallocatePages .device l.pages
        unlockRefs refs
      setState r.id (.retracted host {})) :=
    hR.allots_bind (OperationRule.allots_onKV
      (hR.bind (hR.follows_deallocatePages _) fun _ => hR.follows_unlockRefs _))
      fun _ => hR.allots_setState (by rintro _ _ ⟨⟩)
  apply hR.allots_bind (hR.allots_unwinding hR.allots_allocateSlot hlost)
  intro slot
  apply hR.allots_bind (hR.allots_unwinding (OperationRule.allots_onKV (hR.follows_acquire _ _))
    (hR.allots_bind (hR.allots_deallocateSlot slot) fun _ => hlost))
  intro l'
  apply hR.allots_bind (OperationRule.allots_onKV (hR.follows_unlock _))
  intro _
  exact hR.allots_setState (by rintro _ _ ⟨⟩)

end Events

section Plan

theorem allots_forwardFirstChunk (a : Forwarding) : Allots R (forwardFirstChunk a r) := by
  apply hR.allots_bind (hR.allots_schedulePrefillFirstChunk _)
  intro o
  split
  · exact hR.allots_pure _
  · apply hR.allots_bind (hR.allots_applyFirstChunk _)
    intro _
    apply hR.allots_bind (hR.allots_prefillOperation 0)
    intro op
    dsimp only
    apply OperationRule.allots_ite
    · exact hR.allots_bind (hR.allots_pure _) fun _ => hR.allots_pushLoadBack _ _
    · exact hR.allots_bind (hR.allots_forwardDecode a) fun _ => hR.allots_pushLoadBack _ _

theorem allots_forwardRetracted (a : Forwarding) (host : NodeId) (l : LocalKVAllocator) :
    Allots R (forwardRetracted a r host l) := by
  apply hR.allots_bind hR.allots_scheduleDecodeFromRetracted
  intro o
  split
  · exact hR.allots_pure _
  · apply hR.allots_bind (hR.allots_applyRecover host l _)
    intro _
    apply hR.allots_bind hR.allots_recoverOperation
    intro op
    exact hR.allots_pushLoadBack _ _

theorem allots_forwardCandidate (a : Forwarding) : Allots R (forwardCandidate a id) := by
  apply hR.allots_bind hR.allots_get
  intro s
  apply hR.allots_bind hR.allots_getRequest
  intro r
  dsimp only
  split
  · exact hR.allots_bind (hR.allots_forwardPrefill a) fun _ => hR.allots_pure _
  · exact hR.allots_bind (hR.allots_forwardFirstChunk a) fun _ => hR.allots_pure _
  · exact OperationRule.allots_ite (hR.allots_pure _)
      (hR.allots_bind (hR.allots_forwardDecode a) fun _ => hR.allots_pure _)
  · exact OperationRule.allots_ite (hR.allots_pure _)
      (hR.allots_bind (hR.allots_forwardDecode a) fun _ => hR.allots_pure _)
  · exact OperationRule.allots_ite (hR.allots_pure _)
      (hR.allots_bind (hR.allots_forwardRetracted a _ _) fun _ => hR.allots_pure _)
  · exact hR.allots_pure _

theorem allots_forwardLoop (ids : List RequestId) (a : Forwarding) :
    Allots R (forwardLoop ids a) := by
  induction ids generalizing a with
  | nil => exact hR.allots_pure a
  | cons id ids ih =>
    apply hR.allots_bind hR.allots_get
    intro s
    apply OperationRule.allots_ite (hR.allots_pure _)
    apply hR.allots_bind (hR.allots_forwardCandidate a)
    intro o
    split
    · exact hR.allots_pure _
    · exact ih _

theorem allots_newForwardOperation (candidates : List Request) :
    Allots R (newForwardOperation candidates) := by
  apply hR.allots_bind hR.allots_get
  intro s
  apply hR.allots_bind (hR.allots_forwardLoop _ _)
  intro a
  dsimp only
  apply OperationRule.allots_ite
  · apply hR.allots_bind hR.allots_get
    intro s'
    split
    · exact hR.allots_pure _
    · exact hR.allots_bind hR.allots_newRetractOperation fun _ => hR.allots_pure _
  · exact hR.allots_pure _

theorem allots_nextExecutionPlan (order : List RequestId) : Allots R (nextExecutionPlan order) := by
  apply hR.allots_bind (hR.allots_newWriteBackOperation order)
  intro writeBackOps
  apply hR.allots_bind hR.allots_eraseFinished
  intro _
  apply hR.allots_bind hR.allots_get
  intro s
  apply hR.allots_bind (hR.allots_newForwardOperation _)
  intro p
  dsimp only
  split <;> exact hR.allots_pure _

end Plan

section Calls

theorem allots_submitRequest (spec : RequestSpec) : Allots R (submitRequest spec) := by
  intro s
  unfold submitRequest
  dsimp only
  split
  · exact ⟨hR.refl s.kv,fun h => h⟩
  · rw [runs_bind,runs_get]
    split
    · exact ⟨hR.refl s.kv,fun h => h⟩
    · refine ⟨hR.refl s.kv,fun h r hr => ?_⟩
      rw [List.mem_append,List.mem_singleton] at hr
      obtain hr | rfl := hr
      · exact h r hr
      · rintro _ _ ⟨⟩

theorem allots_onRequest {g : Request → Sched Unit} (hg : ∀ r, Allots R (g r)) :
    Allots R (onRequest id g) := by
  apply hR.allots_bind hR.allots_get
  intro s
  split
  · exact hg _
  · exact hR.allots_pure _

theorem allots_eraseOp (opId : CacheOpId) : Allots R (eraseOp opId) :=
  hR.allots_modify (fun _ => rfl) fun _ => rfl

theorem allots_handleEvent (ev : Event) : Allots R (handleEvent ev) := by
  cases ev with
  | extendResult id tokens =>
    exact hR.allots_onRequest fun r => hR.allots_extendResultEvent r tokens
  | finish id => exact hR.allots_onRequest hR.allots_finishEvent
  | abort id => exact hR.allots_onRequest hR.allots_abortEvent
  | updateReserveNumTokens id n =>
    exact hR.allots_onRequest fun r => hR.allots_updateReserveNumTokensEvent r n
  | prefetchDone opId => exact hR.allots_eraseOp opId
  | writeBackDone opId success =>
    apply hR.allots_bind hR.allots_get
    intro s
    split
    · exact hR.allots_pure _
    · apply hR.allots_bind (hR.allots_eraseOp opId)
      intro _
      exact OperationRule.allots_ite (hR.allots_onRequest hR.allots_writeBackDoneEvent)
        (hR.allots_pure _)

theorem allots_runCall (c : Call) : Allots R (runCall c) := by
  cases c with
  | submit specs =>
    exact hR.allots_bind (hR.allots_forM hR.allots_submitRequest specs) fun _ => hR.allots_pure _
  | plan order => exact hR.allots_bind (hR.allots_nextExecutionPlan order) fun _ => hR.allots_pure _
  | advance events =>
    exact hR.allots_bind (hR.allots_forM hR.allots_handleEvent events) fun _ => hR.allots_pure _

theorem calls {c : Call} {reply : Reply} (h : Calls s c reply s') :
    Along R s s' := by
  cases h with
  | returns _ run => exact (hR.allots_runCall _ _).of_ok run
  | throws _ run => exact (hR.allots_runCall _ _).of_error run

end Calls

end CallOperationRule

theorem any_rule : CallRule fun _ _ => True where
  refl _ := trivial
  trans _ _ := trivial
  tree _ _ := trivial
  readings _ _ := trivial
  nextOpId _ _ := trivial
  manager _ _ _ _ := trivial
  record _ _ := trivial

/-- Every request that prefills has its local allocator, also after calls that threw. -/
theorem Reaches.allocated (h : Reaches config clock history s) : Allocated s := by
  induction h with
  | new => simp [Allocated,Scheduler.new]
  | call _ calls ih => exact (any_rule.callOperationRule.calls calls).2 ih

end FluxServe
