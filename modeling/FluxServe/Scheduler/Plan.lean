import FluxServe.Scheduler.Operations

namespace FluxServe

/-- Decode first in a mixed batch, prefill first otherwise. -/
def priority (c : SchedulerConfig) (st : RequestState) : Nat :=
  match st with
  | .prefilling _ _ => 1
  | .submitted => 2
  | .prefillDone _ _ _ => if c.enableMixedPrefillDecode then 0 else 3
  | .decoding _ _ => if c.enableMixedPrefillDecode then 0 else 3
  | .retracted _ _ => 4
  | _ => 9

/-- The order candidates are visited in: by priority, ties by id. -/
def visitedBefore (c : SchedulerConfig) (a b : Request) : Bool :=
  let pa := priority c a.state
  let pb := priority c b.state
  if pa ≠ pb then pa < pb else a.id < b.id

def sortCandidates (c : SchedulerConfig) (rs : List Request) : List Request :=
  rs.insertionSort fun a b => ¬visitedBefore c b a

/-- What the loop of `newForwardOperation` has collected. -/
structure Forwarding where
  ops : List ForwardOperation := []
  tokenBudget : Int
  pushedPrefill : Bool := false
  loadbackOps : List LoadBackOperation := []
  deriving DecidableEq, Repr

def Forwarding.push (a : Forwarding) (op : ForwardOperation) : Forwarding :=
  { a with
    ops := a.ops ++ [op]
    tokenBudget := a.tokenBudget-op.base.inputLength
    pushedPrefill := a.pushedPrefill || op.isPrefill }

/-- The load-back of a scheduled request, if it has nodes to load. -/
def pushLoadBack (a : Forwarding) (diff : List NodeId) : Sched Forwarding := do
  if diff.isEmpty then return a
  let opId ← onKV allocateCacheOpId
  let transfers ← onKV (transferPairs .host diff)
  return { a with loadbackOps := a.loadbackOps ++ [⟨opId,transfers⟩] }

/-- Try the decode step of a prefilled or decoding request. -/
def forwardDecode (a : Forwarding) (id : RequestId) : Sched Forwarding := do
  let r ← getRequest id
  match r.state with
  | .prefillDone f _ reserve => decode r f reserve false
  | .decoding f reserve => decode r f reserve true
  | _ => return a
where
  decode (r : Request) (f : ForwardState) (reserve : Int) (asserted : Bool) :
      Sched Forwarding := do
    if ← scheduleDecode f reserve asserted then
      let start := (← onKV (occupiedPages f)).length
      applyDecode r f reserve
      return a.push (← decodeOperation id start)
    return a

def forwardPrefill (a : Forwarding) (r : Request) (f : ForwardState) (w : Window) :
    Sched Forwarding := do
  match ← schedulePrefill r w a.tokenBudget with
  | none => return a
  | some tokensThisRound =>
    let start := (← onKV (occupiedPages f)).length
    applyPrefill r f w tokensThisRound
    return a.push (← prefillOperation r.id start)

/-- A fully cached prompt has no row to prefill and goes straight to its first decode. -/
def forwardFirstChunk (a : Forwarding) (r : Request) : Sched Forwarding := do
  match ← schedulePrefillFirstChunk r a.tokenBudget with
  | none => return a
  | some ev =>
    applyFirstChunk r ev
    let op ← prefillOperation r.id 0
    let a ← if 0 < op.base.inputLength then pure (a.push op) else forwardDecode a r.id
    pushLoadBack a ev.loadbackDiff

def forwardRetracted (a : Forwarding) (r : Request) (h : NodeId) (l : LocalKVAllocator) :
    Sched Forwarding := do
  match ← scheduleDecodeFromRetracted r with
  | none => return a
  | some ev =>
    applyRecover r h l ev
    let a := a.push (← recoverOperation r.id)
    pushLoadBack a ev.loadbackDiff

/-- One candidate; `none` stands for `break`. -/
def forwardCandidate (a : Forwarding) (id : RequestId) : Sched (Option Forwarding) := do
  let c := (← get).config
  let r ← getRequest id
  let stops := ¬c.enableMixedPrefillDecode ∧ a.pushedPrefill
  match r.state with
  | .prefilling f w => return some (← forwardPrefill a r f w)
  | .submitted => return some (← forwardFirstChunk a r)
  | .prefillDone _ _ _ => if stops then return none else return some (← forwardDecode a id)
  | .decoding _ _ => if stops then return none else return some (← forwardDecode a id)
  | .retracted h l => if stops then return none else return some (← forwardRetracted a r h l)
  | _ => return some a

def forwardLoop : List RequestId → Forwarding → Sched Forwarding
  | [],a => pure a
  | id::ids,a => do
    if a.tokenBudget ≤ 0 ∨ (← get).config.maxBatchSize = a.ops.length then return a
    match ← forwardCandidate a id with
    | none => return a
    | some a' => forwardLoop ids a'

/-- The first longest request, as `std::max_element` picks it. -/
def longest : List Request → Option Request
  | [] => none
  | r::rs =>
    match longest rs with
    | none => some r
    | some b => if r.tokenSize < b.tokenSize then some b else some r

/-- The cache operations a plan gets from `newForwardOperation`: one list or the other. -/
inductive CacheOperations
  | loadBack (ops : List LoadBackOperation)
  | writeBack (ops : List WriteBackOperation)
  deriving DecidableEq, Repr

/-- If nothing could be scheduled, device memory is exhausted: retract the longest decode. -/
def newForwardOperation (candidates : List Request) :
    Sched (List ForwardOperation × CacheOperations) := do
  let c := (← get).config
  let sorted := (sortCandidates c candidates).map Request.id
  let a ← forwardLoop sorted { tokenBudget := c.maxScheduledTokens }
  if a.ops.isEmpty then
    let s ← get
    let retractCandidates := (sorted.filterMap s.findRequest).filter fun r => r.state.isDecodable
    match longest retractCandidates with
    | none => return (a.ops,.loadBack a.loadbackOps)
    | some victim =>
      let op ← newRetractOperation victim.id
      return ([],.writeBack op.toList)
  return (a.ops,.loadBack a.loadbackOps)

/-- The write-back of one draining request. -/
def commitDraining (id : RequestId) : Sched (List WriteBackOperation) := do
  let r ← getRequest id
  match r.state with
  | .draining [] _ _ => do
    abortEvent r
    return []
  | .draining pairs _ _ => do
    let opId ← onKV allocateCacheOpId
    trackOp opId id
    commitDrainingEvent r
    return [{ opId, transfers := pairs }]
  | _ => return []

def writeBackLoop : List RequestId → Sched (List WriteBackOperation)
  | [] => pure []
  | id::ids => do
    let ops ← commitDraining id
    return ops ++ (← writeBackLoop ids)

/-- `newWriteBackOperation`; `order` is the order the hash map is iterated in. -/
def newWriteBackOperation (order : List RequestId) : Sched (List WriteBackOperation) := do
  if (← get).config.disableL2Cache then return []
  writeBackLoop order

def RequestState.isCandidate : RequestState → Bool
  | .draining _ _ _ => false
  | .retracting _ _ _ _ => false
  | .writingBack _ _ => false
  | _ => true

def eraseFinished : Sched Unit :=
  modify fun s => { s with requests := s.requests.filter fun r => r.state ≠ .finished }

/-- `NextExecutionPlan`; erasing from the hash map keeps the order of what stays. The flat forward
operation lists the prefill rows first. -/
def nextExecutionPlan (order : List RequestId) : Sched ExecutionPlan := do
  let writeBackOps ← newWriteBackOperation order
  eraseFinished
  let s ← get
  let candidates := (order.filterMap s.findRequest).filter fun r => r.state.isCandidate
  let (ops,cacheOps) ← newForwardOperation candidates
  let forward := ops.filter ForwardOperation.isPrefill ++ ops.filter fun op => !op.isPrefill
  match cacheOps with
  | .loadBack loadBack => return { forward, writeBack := writeBackOps, loadBack }
  | .writeBack writeBack => return { forward, writeBack := writeBackOps ++ writeBack }

end FluxServe
