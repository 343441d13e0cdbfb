import FluxServe.Scheduler.Plan

namespace FluxServe

/-- One specification of `SubmitRequests`. The constructor of the request checks the prefill
length; `emplace` keeps a request that already has the id. -/
def submitRequest (spec : RequestSpec) : Sched Unit := do
  if spec.prefillLength < -1 ∨ (spec.tokens.length : Int) < spec.prefillLength then
    throwSched .prefillLength
  let s ← get
  if (s.findRequest spec.requestId).isSome then return
  let r : Request :=
    { id := spec.requestId, tokens := spec.tokens,
      prefillSize := if spec.prefillLength < 0 then spec.tokens.length else spec.prefillLength,
      state := .submitted }
  set { s with requests := s.requests ++ [r] }

def submitRequests (specs : List RequestSpec) : Sched Unit := specs.forM submitRequest

/-- What `Advance` is given: the forward and the cache events. -/
inductive Event
  | extendResult (id : RequestId) (tokens : List Token)
  | finish (id : RequestId)
  | abort (id : RequestId)
  | updateReserveNumTokens (id : RequestId) (reserveNumTokens : Int)
  | writeBackDone (opId : CacheOpId) (success : Bool)
  | prefetchDone (opId : CacheOpId) (id : RequestId) (success : Bool) (completedPages : Int)
  deriving DecidableEq, Repr

/-- Apply an event to the request with the id; an unknown id is ignored. -/
def onRequest (id : RequestId) (f : Request → Sched Unit) : Sched Unit := do
  match (← get).findRequest id with
  | some r => f r
  | none => pure ()

def eraseOp (opId : CacheOpId) : Sched Unit :=
  modify fun s => { s with cacheOpTracker := dropKey opId s.cacheOpTracker }

/-- `handleEvent(WriteBackDone)`: the request is the one the tracker has for the operation. -/
def handleWriteBackDone (opId : CacheOpId) : Sched Unit := do
  match (← get).cacheOpTracker.lookup opId with
  | none => pure ()
  | some id => do
    eraseOp opId
    if ¬id.isEmpty then onRequest id writeBackDoneEvent

/-- `handleEvent`. No request is ever prefetching, so that `PrefetchDone` only clears the tracker. -/
def handleEvent : Event → Sched Unit
  | .extendResult id tokens => onRequest id fun r => extendResultEvent r tokens
  | .finish id => onRequest id finishEvent
  | .abort id => onRequest id abortEvent
  | .updateReserveNumTokens id n => onRequest id fun r => updateReserveNumTokensEvent r n
  | .writeBackDone opId _ => handleWriteBackDone opId
  | .prefetchDone opId _ _ _ => eraseOp opId

def advance (events : List Event) : Sched Unit := events.forM handleEvent

end FluxServe
