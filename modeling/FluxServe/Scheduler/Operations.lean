import FluxServe.Fsm.Events
import Mathlib.Data.List.Sort

namespace FluxServe

/-- `schedulePrefillFirstChunk`: the event, if a slot and the device pages are to be had. -/
def schedulePrefillFirstChunk (r : Request) (remaining : Int) : Sched (Option FirstChunkEvent) := do
  let s ← get
  let c := s.config
  if s.freeSlots.isEmpty then return none
  onKV do
    let m ← matchTokens (r.fullPagedTokens c.pageSize true) .prefixReuse
    let deviceMatched ← depthInPage m.device
    let hostMatched ← depthInPage m.host
    let loadbackDiff ← if c.disableL2Cache then pure [] else nodesWithout .device m
    let matched := if c.disableL2Cache then deviceMatched else max deviceMatched hostMatched
    let loadbackTokens : Int :=
      if ¬c.disableL2Cache ∧ deviceMatched < hostMatched then
        c.pageSize*(hostMatched-deviceMatched)
      else 0
    let unscheduled : Int := r.prefillSize-matched*c.pageSize
    let tokensThisRound := min remaining unscheduled
    let needed := pagesFor (loadbackTokens+tokensThisRound+c.decodeInputTokens) c.pageSize
    lock .device m.device
    let ensured ← ensureCapacityByEvict .device needed
    unlock .device m.device
    if ensured then return some ⟨tokensThisRound,m,loadbackDiff⟩
    return none

/-- `schedulePrefill`: how many tokens the next chunk takes. -/
def schedulePrefill (r : Request) (w : Window) (remaining : Int) : Sched (Option Int) := do
  let tokensThisRound := min remaining (r.unscheduledPrefillSize w)
  if ← onKV (ensureCapacityByEvict .device
      (pagesFor tokensThisRound (← get).config.pageSize)) then
    return some tokensThisRound
  return none

/-- `scheduleDecode`. `asserted` tells whether the state's getter asserts its reserve. -/
def scheduleDecode (f : ForwardState) (reserve : Int) (asserted : Bool) : Sched Bool := do
  let l ← onKV (takeLocal f)
  if asserted ∧ reserve < 0 then throwSched .negativeReserve
  let extraTokens := max 0 (reserve-l.tailPageAvailableTokens)
  onKV (ensureCapacityByEvict .device (pagesFor extraTokens (← get).config.pageSize))

def scheduleDecodeFromRetracted (r : Request) : Sched (Option RecoverEvent) := do
  let s ← get
  let c := s.config
  if s.freeSlots.isEmpty then return none
  onKV do
    let m ← matchTokens (r.fullPagedTokens c.pageSize true) .stateRecovery
    let loadbackDiff ← nodesWithout .device m
    let deviceMatched ← depthInPage m.device
    let hostMatched ← depthInPage m.host
    let numTokens : Int :=
      if deviceMatched < hostMatched then
        c.pageSize*(hostMatched-deviceMatched)+c.decodeInputTokens
      else c.decodeInputTokens
    lock .device m.device
    let ensured ← ensureCapacityByEvict .device (pagesFor numTokens c.pageSize)
    unlock .device m.device
    if ensured then return some ⟨m,loadbackDiff⟩
    return none

/-- `scheduleRetract`: move the whole pages into the tree and make room for their host copy. The
pages are clamped to those the request holds. -/
def scheduleRetract (r : Request) (f : ForwardState) (retained : LocalKVAllocator → RequestState) :
    Sched (Option MatchResult) := do
  let c := (← get).config
  let prefixPages ← onKV (devicePagesFromRoot f.deviceNodeRef)
  let occupied ← onKV (occupiedPages f)
  let tokens := (r.fullPagedTokens c.pageSize true).take (occupied.length*c.pageSize)
  let allocCount : Int := (tokens.length/c.pageSize : Nat)-prefixPages.length
  let l ← onKV (takeLocal f)
  let (taken,kept) ← onKV (takeFirst l.pages allocCount)
  setState r.id (retained { l with pages := kept })
  let matched ← onKV do
    let _ ← insert .device tokens prefixPages taken
    let m ← matchTokens tokens .stateRecovery
    lock .host m.host
    let deviceMatched ← depthInPage m.device
    let hostMatched ← depthInPage m.host
    let ensured ← ensureCapacityByEvict .host (max 0 ((deviceMatched : Int)-hostMatched))
    unlock .host m.host
    return if ensured then some m else none
  if matched.isSome then
    modify fun s => { s with retractions := (r.id,occupied) :: s.retractions }
  return matched

/-- The request of a `Request*` the code holds; requests are only erased between plans. -/
def getRequest (id : RequestId) : Sched Request := do
  match (← get).findRequest id with
  | some r => pure r
  | none => throw (.undefined .destroyedRequest)

def getForward (function expected : String) (r : Request) : Sched ForwardState :=
  match r.state.forward? with
  | some f => pure f
  | none => throwSched (.unexpectedState function expected r.state.name)

/-- `GetPrefillInfo` reserves a vector of the window's size, which throws on a negative one. -/
def prefillInfo (r : Request) : Sched Window :=
  match r.state with
  | .prefilling _ w => check w
  | .prefillDone _ w _ => check w
  | st => throwSched (.unexpectedState "Request::GetPrefillInfo"
      "state=Prefilling or PrefillDone" st.name)
where
  check (w : Window) : Sched Window := if w.size < 0 then throwSched .negativeWindow else pure w

/-- What `applyPrefillEvent` builds once the event was applied; `start` pages were held before. -/
def prefillOperation (id : RequestId) (start : Nat) : Sched ForwardOperation := do
  let r ← getRequest id
  let f ← getForward "Request::GetOccupiedPages"
    "state=Submitted, PrefetchDone, Aborting, or forward" r
  let pages ← onKV (occupiedPages f)
  let w ← prefillInfo r
  return .prefill
    { requestId := id, requestPoolIndex := f.reqPoolIndex, inputLength := w.size,
      occupiedPages := pages, start, size := pages.length-start, prefillLength := r.prefillSize }
    (r.tokenSlice w) (r.shiftedInputIds w) w.start

/-- What `applyDecodeEvent` builds. -/
def decodeOperation (id : RequestId) (start : Nat) : Sched ForwardOperation := do
  let r ← getRequest id
  let f ← getForward "Request::GetOccupiedPages"
    "state=Submitted, PrefetchDone, Aborting, or forward" r
  let pages ← onKV (occupiedPages f)
  return .decode
    { requestId := id, requestPoolIndex := f.reqPoolIndex,
      inputLength := (← get).config.decodeInputTokens, occupiedPages := pages, start,
      size := pages.length-start, prefillLength := r.prefillSize } (-1) (-1)

/-- The decode operation of a recovered request, which carries its history and no prefill length. -/
def recoverOperation (id : RequestId) : Sched ForwardOperation := do
  let r ← getRequest id
  let f ← getForward "Request::GetOccupiedPages"
    "state=Submitted, PrefetchDone, Aborting, or forward" r
  let pages ← onKV (occupiedPages f)
  let lastToken ← match r.tokens.getLast? with
    | some x => pure x
    | none => throw (.undefined .emptyTokens)
  return .decode
    { requestId := id, requestPoolIndex := f.reqPoolIndex,
      inputLength := (← get).config.decodeInputTokens, occupiedPages := pages, start := 0,
      size := pages.length, prefillLength := 0 } lastToken (r.tokens.length-1)

def trackOp (opId : CacheOpId) (id : RequestId) : Sched Unit :=
  modify fun s => { s with cacheOpTracker := (opId,id) :: dropKey opId s.cacheOpTracker }

/-- Apply the retract and issue its write-back; without a page to copy it is complete at once. -/
def applyRetractAndGenerateOp (r : Request) (m : MatchResult) :
    Sched (Option WriteBackOperation) := do
  let f ← getForward "Request::GetDeviceNode" "a base request state" r
  applyRetract r f m
  let r ← getRequest r.id
  match r.state with
  | .retracting _ _ _ [] => do
    writeBackDoneEvent r
    return none
  | .retracting _ _ _ pairs => do
    let opId ← onKV allocateCacheOpId
    trackOp opId r.id
    return some { opId, transfers := pairs, isRetract := true }
  | st => throwSched (.unexpectedState "Request::GetPagesToTransfer"
      "state=flux::fsm::Retracting" st.name)

/-- `newRetractOperation`: a victim whose pages the host cannot take is aborted. -/
def newRetractOperation (id : RequestId) : Sched (Option WriteBackOperation) := do
  let r ← getRequest id
  let scheduled ← match r.state with
    | .prefillDone f w n =>
      scheduleRetract r f fun l => .prefillDone { f with localKVAllocator := some l } w n
    | .decoding f n =>
      scheduleRetract r f fun l => .decoding { f with localKVAllocator := some l } n
    | st => throwSched (.unexpectedState "Request::TakeFirstPages"
        "state=Decoding or PrefillDone" st.name)
  let r ← getRequest id
  match scheduled with
  | some m => applyRetractAndGenerateOp r m
  | none => do
    abortEvent r
    return none

/-- The end of `newRetractOperation`. -/
def finishRetract (id : RequestId) (scheduled : Option MatchResult) :
    Sched (Option WriteBackOperation) := do
  let r ← getRequest id
  match scheduled with
  | some m => applyRetractAndGenerateOp r m
  | none => do
    abortEvent r
    return none

end FluxServe
