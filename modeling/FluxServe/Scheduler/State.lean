import FluxServe.Fsm.States

namespace FluxServe

/-- The fields of `SchedulerConfig` the scheduler reads when no paged-cache group is configured. -/
structure SchedulerConfig where
  pageSize : Nat
  pageSize_pos : 0 < pageSize
  deviceTotalPages : Nat
  hostTotalPages : Nat
  maxScheduledTokens : Int
  maxBatchSize : Int
  decodeInputTokens : Int := 1
  disableL2Cache : Bool := false
  enableMixedPrefillDecode : Bool := false
  disablePrefixCache : Bool := false

structure WriteBackOperation where
  opId : CacheOpId
  transfers : List TransferPair
  isRetract : Bool := false
  deriving DecidableEq, Repr

structure LoadBackOperation where
  opId : CacheOpId
  transfers : List TransferPair
  deriving DecidableEq, Repr

structure ForwardOperationBase where
  requestId : RequestId
  requestPoolIndex : Int
  inputLength : Int
  occupiedPages : List PageId
  start : Int
  size : Int
  prefillLength : Int
  deriving DecidableEq, Repr

inductive ForwardOperation
  | prefill (base : ForwardOperationBase) (inputIds shiftedInputIds : List Token)
      (extendPrefixLen : Int)
  | decode (base : ForwardOperationBase) (decodeInputId histTokenLen : Int)
  deriving DecidableEq, Repr

def ForwardOperation.base : ForwardOperation → ForwardOperationBase
  | prefill b _ _ _ => b
  | decode b _ _ => b

def ForwardOperation.isPrefill : ForwardOperation → Bool
  | prefill _ _ _ _ => true
  | decode _ _ _ => false

structure ExecutionPlan where
  forward : List ForwardOperation := []
  writeBack : List WriteBackOperation := []
  loadBack : List LoadBackOperation := []
  deriving DecidableEq, Repr

/-- The scheduler. `retractions` records, latest first, the pages a request occupied when it was
retracted; the code never reads it. -/
structure Scheduler where
  config : SchedulerConfig
  kv : KVPrefixCache
  freeSlots : List Nat
  requests : List Request := []
  cacheOpTracker : List (CacheOpId × RequestId) := []
  retractions : List (RequestId × List PageId) := []

abbrev Sched := EStateM Fault Scheduler

def Scheduler.setKV (kv : KVPrefixCache) (s : Scheduler) : Scheduler := { s with kv }

/-- Run an operation of the prefix cache. -/
def onKV {α : Type} (x : KV α) : Sched α := zoom Scheduler.kv Scheduler.setKV x

def throwSched {α : Type} (e : Exception) : Sched α := throw (.exception e)

def newManager (totalPages : Nat) : ResourceManager := { allocator := PageAllocator.new totalPages }

/-- The constructor of the scheduler; `clock` gives the readings of `steady_clock::now`. -/
def Scheduler.new (config : SchedulerConfig) (clock : Nat → Timestamp) : Scheduler :=
  { config
    kv :=
      { pageSize := config.pageSize
        disablePrefixCache := config.disablePrefixCache
        tree := [some { parent := none }]
        device := newManager config.deviceTotalPages
        host := newManager config.hostTotalPages
        nextOpId := 1
        clock
        readings := 0
        loadedBack := [] }
    freeSlots := List.range' 1 config.maxBatchSize.toNat }

namespace Scheduler

def findRequest (s : Scheduler) (id : RequestId) : Option Request :=
  s.requests.find? fun r => r.id = id

def updateRequest (id : RequestId) (f : Request → Request) (s : Scheduler) : Scheduler :=
  { s with requests := s.requests.map fun r => if r.id = id then f r else r }

end Scheduler

def setState (id : RequestId) (st : RequestState) : Sched Unit :=
  modify (Scheduler.updateRequest id fun r => { r with state := st })

def extendTokens (id : RequestId) (tokens : List Token) : Sched Unit :=
  modify (Scheduler.updateRequest id fun r => { r with tokens := r.tokens ++ tokens })

def allocateSlot : Sched Nat := do
  let s ← get
  match s.freeSlots with
  | [] => throwSched (.noRequestSlots s.config.maxBatchSize)
  | slot :: slots =>
    set { s with freeSlots := slots }
    pure slot

def deallocateSlot (slot : Nat) : Sched Unit :=
  modify fun s => { s with freeSlots := s.freeSlots ++ [slot] }

/-- `GetOccupiedPages` of a forward state: the tree pages of the locked path, then the local ones. -/
def occupiedPages (f : ForwardState) : KV (List PageId) := do
  let prefixPages ← devicePagesFromRoot f.deviceNodeRef
  match f.localKVAllocator with
  | some l => pure (prefixPages ++ l.pages)
  | none => throwUndefined .nullLocalAllocator

/-- The destructor of a forward state: members in the reverse order of their declaration. -/
def dropForwardState (f : ForwardState) : Sched Unit := do
  onKV (unlock? .host f.hostNodeRef)
  deallocateSlot f.reqPoolIndex
  match f.localKVAllocator with
  | some l => onKV (deallocatePages .device l.pages)
  | none => pure ()
  onKV (unlock .device f.deviceNodeRef)

/-- The destructor of whatever state a request leaves behind. -/
def dropState : RequestState → Sched Unit
  | .submitted => pure ()
  | .prefilling f _ => dropForwardState f
  | .prefillDone f _ _ => dropForwardState f
  | .decoding f _ => dropForwardState f
  | .draining _ d h => onKV do
    unlock .host h
    unlock .device d
  | .writingBack d h => onKV do
    unlock .host h
    unlock? .device d
  | .retracting d h l _ => onKV do
    deallocatePages .device l.pages
    unlock .host h
    unlock? .device d
  | .retracted h l => onKV do
    deallocatePages .device l.pages
    unlock .host h
  | .finished => pure ()

end FluxServe
