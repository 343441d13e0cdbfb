import FluxServe.Scheduler.State

namespace FluxServe

/-- `SchedulePrefillFirstChunkEvent`, with what its constructor stores. -/
structure FirstChunkEvent where
  tokensThisRound : Int
  matchResult : MatchResult
  loadbackDiff : List NodeId
  deriving DecidableEq, Repr

/-- `ScheduleDecodeFromRetractedEvent`. -/
structure RecoverEvent where
  matchResult : MatchResult
  loadbackDiff : List NodeId
  deriving DecidableEq, Repr

/-- Lock the path of a host match after loading its missing device pages back. The event for a
first chunk ignores whether the pages could be allocated; the one for a recovery throws. -/
def lockLoadedBack (m : MatchResult) (checked : Bool) : KV (Option NodeId × NodeId) := do
  lock .host m.host
  let diff ← nodesWithout .device m
  let allocated ← allocateResourceOfType .device diff
  if checked ∧ ¬allocated then
    unlock .host m.host
    throwException .recoverAllocation
  lock .device m.host
  return (some m.host,m.host)

def lockDevice (m : MatchResult) : KV (Option NodeId × NodeId) := do
  lock .device m.device
  return (none,m.device)

/-- Lock the matched path; `loads` tells whether the host is ahead of the device. -/
def lockMatch (m : MatchResult) (loads checked : Bool) : KV (Option NodeId × NodeId) :=
  if loads then lockLoadedBack m checked else lockDevice m

/-- The destructors of the node references an event has created so far. -/
def unlockRefs (refs : Option NodeId × NodeId) : KV Unit := do
  unlock .device refs.2
  unlock? .host refs.1

/-- The local allocator of a first chunk: the chunk's tokens, then one decode block ahead. -/
def newLocalKVAllocator (refs : Option NodeId × NodeId) (tokens decodeInputTokens : Int) :
    KV LocalKVAllocator := do
  let l ← unwinding (acquire {} tokens) (unlockRefs refs)
  unwinding (acquire l decodeInputTokens) do
    deallocatePages .device l.pages
    unlockRefs refs

/-- `SchedulePrefillFirstChunkEvent::operator()` on a submitted request. -/
def applyFirstChunk (r : Request) (ev : FirstChunkEvent) : Sched Unit := do
  let c := (← get).config
  let deviceDepth ← onKV (depthInPage ev.matchResult.device)
  let hostDepth ← onKV (depthInPage ev.matchResult.host)
  let refs ← onKV (lockMatch ev.matchResult (¬c.disableL2Cache ∧ deviceDepth < hostDepth) false)
  let l ← onKV (newLocalKVAllocator refs ev.tokensThisRound c.decodeInputTokens)
  let slot ← unwinding allocateSlot (onKV do
    deallocatePages .device l.pages
    unlockRefs refs)
  let matched := if c.disableL2Cache then deviceDepth else max deviceDepth hostDepth
  let window : Window := ⟨matched*c.pageSize,ev.tokensThisRound⟩
  let f : ForwardState :=
    { hostNodeRef := refs.1, deviceNodeRef := refs.2, localKVAllocator := some l,
      reqPoolIndex := slot }
  if window.start+window.size = r.prefillSize then
    setState r.id (.prefillDone f window c.decodeInputTokens)
  else
    setState r.id (.prefilling f window)

/-- The local allocator an event takes over; dereferencing the moved-from one is undefined. -/
def takeLocal (f : ForwardState) : KV LocalKVAllocator :=
  match f.localKVAllocator with
  | some l => pure l
  | none => throwUndefined .nullLocalAllocator

/-- `SchedulePrefillEvent::operator()` on a prefilling request. The scheduler has ensured the
pages `Acquire` takes, so that it does not throw here nor in the decode events below. -/
def applyPrefill (r : Request) (f : ForwardState) (w : Window) (tokensThisRound : Int) :
    Sched Unit := do
  let l ← onKV (takeLocal f)
  let l ← onKV (acquire l tokensThisRound)
  let window : Window := ⟨w.start+w.size,tokensThisRound⟩
  let f := { f with localKVAllocator := some l }
  if window.start+window.size = r.prefillSize then
    setState r.id (.prefillDone f window (← get).config.decodeInputTokens)
  else
    setState r.id (.prefilling f window)

/-- `ScheduleDecodeEvent::operator()` on a prefilled or a decoding request. -/
def applyDecode (r : Request) (f : ForwardState) (reserve : Int) : Sched Unit := do
  let l ← onKV (takeLocal f)
  let l ← onKV (acquire l reserve)
  setState r.id (.decoding { f with localKVAllocator := some l } (← get).config.decodeInputTokens)

/-- `ScheduleDecodeFromRetractedEvent::operator()`. The old state's host reference goes last;
an allocator lost to a throw is left behind empty. -/
def applyRecover (r : Request) (h : NodeId) (l : LocalKVAllocator) (ev : RecoverEvent) :
    Sched Unit := do
  let c := (← get).config
  let deviceDepth ← onKV (depthInPage ev.matchResult.device)
  let hostDepth ← onKV (depthInPage ev.matchResult.host)
  let refs ← onKV (lockMatch ev.matchResult (deviceDepth < hostDepth) true)
  let lost : Sched Unit := do
    onKV do
      deallocatePages .device l.pages
      unlockRefs refs
    setState r.id (.retracted h {})
  let slot ← unwinding allocateSlot lost
  let l ← unwinding (onKV (acquire l c.decodeInputTokens)) do
    deallocateSlot slot
    lost
  onKV (unlock .host h)
  setState r.id (.decoding
    { hostNodeRef := refs.1, deviceNodeRef := refs.2, localKVAllocator := some l,
      reqPoolIndex := slot } c.decodeInputTokens)

/-- Insert the finished request's whole pages; `FinishEvent::apply` up to its `Match`. The
pages that stay local are returned. -/
def insertFinished (tokens : List Token) (prefixPages : List PageId) (l : Option LocalKVAllocator) :
    KV (List PageId) := do
  let allocCount : Int := (tokens.length/(← get).pageSize : Nat)-prefixPages.length
  match l with
  | none => if 0 < allocCount then throwUndefined .nullLocalAllocator else return []
  | some l =>
    if 0 < allocCount then
      let (taken,kept) ← unwinding (takeFirst l.pages allocCount) (deallocatePages .device l.pages)
      let _ ← unwinding (insert .device tokens prefixPages taken) (deallocatePages .device kept)
      return kept
    return l.pages

/-- Allocate the host copy of a finished path and pin both of its sides. -/
def prepareWriteBack (m : MatchResult) : KV (Option (List TransferPair)) := do
  let diff ← nodesWithout .host m
  let hostPagesNum ← countPages .device diff
  lock .host m.host
  if ← ensureCapacityByEvict .host hostPagesNum then
    let _ ← allocateResourceOfType .host diff
    lock .device m.device
    lock .host m.device
    let pairs ← transferPairs .device diff
    unlock .host m.host
    return some pairs
  unlock .host m.host
  return none

/-- The state a finish leads to: with pages to copy the path is drained first. -/
def finishedState (m : MatchResult) : Option (List TransferPair) → RequestState
  | some pairs => .draining pairs m.device m.device
  | none => .finished

/-- `FinishEvent::apply`. -/
def applyFinish (r : Request) (f : ForwardState) (moved : RequestState) : Sched Unit := do
  let c := (← get).config
  let tokens := r.fullPagedTokens c.pageSize true
  let prefixPages ← onKV (devicePagesFromRoot f.deviceNodeRef)
  setState r.id moved
  let kept ← onKV (insertFinished tokens prefixPages f.localKVAllocator)
  let m ← onKV (unwinding (matchTokens tokens .prefixReuse) (deallocatePages .device kept))
  let deviceDepth ← onKV (depthInPage m.device)
  let hostDepth ← onKV (depthInPage m.host)
  let pairs ←
    if ¬c.disableL2Cache ∧ hostDepth < deviceDepth then onKV (prepareWriteBack m) else pure none
  onKV (deallocatePages .device kept)
  dropForwardState { f with localKVAllocator := none }
  setState r.id (finishedState m pairs)

def invalidTransition (event : EventName) (st : RequestState) : Sched Unit :=
  throwSched (.invalidTransition event st.name)

/-- `FinishEvent` on every state. -/
def finishEvent (r : Request) : Sched Unit :=
  match r.state with
  | .prefillDone f w n => applyFinish r f (.prefillDone { f with localKVAllocator := none } w n)
  | .decoding f n => applyFinish r f (.decoding { f with localKVAllocator := none } n)
  | .retracting d h l _ => do
    onKV (deallocatePages .device l.pages)
    setState r.id (.writingBack d h)
  | .retracted h l => do
    dropState (.retracted h l)
    setState r.id .finished
  | .finished => pure ()
  | st => invalidTransition .finish st

/-- `AbortEvent` on every state. -/
def abortEvent (r : Request) : Sched Unit :=
  match r.state with
  | .finished => pure ()
  | .writingBack d h => invalidTransition .abort (.writingBack d h)
  | st => do
    dropState st
    setState r.id .finished

def commitDrainingEvent (r : Request) : Sched Unit :=
  match r.state with
  | .draining _ d h => setState r.id (.writingBack (some d) h)
  | st => invalidTransition .commitDraining st

/-- Drop the device reference, then give up the device pages the host has copies of. -/
def demoteWrittenBackDevice : Option NodeId → KV Unit
  | none => pure ()
  | some d => do
    unlock .device d
    releaseDeviceResourcesPresentOnHost d

/-- `WriteBackDoneEvent` on every state. -/
def writeBackDoneEvent (r : Request) : Sched Unit :=
  match r.state with
  | .writingBack d h => do
    onKV do
      demoteWrittenBackDevice d
      unlock .host h
    setState r.id .finished
  | .retracting d h l _ => do
    onKV (demoteWrittenBackDevice d)
    setState r.id (.retracted h l)
  | st => invalidTransition .writeBackDone st

def updateReserveNumTokensEvent (r : Request) (newValue : Int) : Sched Unit :=
  match r.state with
  | .decoding f _ => setState r.id (.decoding f newValue)
  | .retracting _ _ _ _ => pure ()
  | .retracted _ _ => pure ()
  | .finished => pure ()
  | st => invalidTransition .updateReserveNumTokens st

/-- `ExtendResultEvent`: a decoding request asserts its reserve after the tokens were appended. -/
def extendResultEvent (r : Request) (tokens : List Token) : Sched Unit :=
  match r.state with
  | .prefillDone _ _ _ => extendTokens r.id tokens
  | .decoding _ reserve => do
    extendTokens r.id tokens
    if reserve < 0 then throwSched .negativeReserve
  | .retracting _ _ _ _ => extendTokens r.id tokens
  | .retracted _ _ => extendTokens r.id tokens
  | .finished => pure ()
  | st => invalidTransition .extendResult st

/-- Pin what a retracted request leaves behind: its path on the host and, while pages are copied
there, on the device. -/
def prepareRetract (m : MatchResult) : KV (Option NodeId × List TransferPair) := do
  let deviceDepth ← depthInPage m.device
  let hostDepth ← depthInPage m.host
  if hostDepth < deviceDepth then
    let diff ← nodesWithout .host m
    lock .device m.device
    if ¬(← allocateResourceOfType .host diff) then
      unlock .device m.device
      throwException .retractAllocation
    let pairs ← transferPairs .device diff
    lock .host m.device
    return (some m.device,pairs)
  lock .host m.device
  return (none,[])

/-- `ScheduleRetractEvent::applyRetract`. -/
def applyRetract (r : Request) (f : ForwardState) (m : MatchResult) : Sched Unit := do
  let l ← onKV (takeLocal f)
  let (d,pairs) ← onKV (prepareRetract m)
  dropForwardState { f with localKVAllocator := none }
  setState r.id (.retracting d m.device l pairs)

end FluxServe
