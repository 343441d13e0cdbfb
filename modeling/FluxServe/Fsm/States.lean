import FluxServe.Resource.KVPrefixCache

namespace FluxServe

/-- `(a+b-1)/b` with the truncating division of the source. -/
def pagesFor (tokens : Int) (pageSize : Nat) : Int := Int.tdiv (tokens+pageSize-1) pageSize

structure LocalKVAllocator where
  pages : List PageId := []
  tailPageAvailableTokens : Int := 0
  deriving DecidableEq, Repr

/-- `LocalKVAllocator::Acquire`: the tail page first, then whole pages from the device pool. -/
def acquire (l : LocalKVAllocator) (numTokens : Int) : KV LocalKVAllocator := do
  if numTokens ≤ l.tailPageAvailableTokens then
    return { l with tailPageAvailableTokens := l.tailPageAvailableTokens-numTokens }
  let pageSize := (← get).pageSize
  let overNeeded := numTokens-l.tailPageAvailableTokens
  let numPages := pagesFor overNeeded pageSize
  let newPages ← allocatePages .device numPages
  if (newPages.length : Int) < numPages then
    throwException (.insufficientPages numPages newPages.length)
  let usedInTail := Int.tmod overNeeded pageSize
  return { pages := l.pages ++ newPages
           tailPageAvailableTokens := if usedInTail = 0 then 0 else pageSize-usedInTail }

structure Window where
  start : Int
  size : Int
  deriving DecidableEq, Repr

/-- What Prefilling, PrefillDone and Decoding hold in common. A `FinishEvent` that throws
leaves the local allocator moved from. -/
structure ForwardState where
  hostNodeRef : Option NodeId
  deviceNodeRef : NodeId
  localKVAllocator : Option LocalKVAllocator
  reqPoolIndex : Nat
  deriving DecidableEq, Repr

inductive RequestState
  | submitted
  | prefilling (f : ForwardState) (window : Window)
  | prefillDone (f : ForwardState) (window : Window) (reserveNumTokens : Int)
  | decoding (f : ForwardState) (reserveNumTokens : Int)
  | draining (pagesToTransfer : List TransferPair) (deviceNodeRef hostNodeRef : NodeId)
  | writingBack (deviceNodeRef : Option NodeId) (hostNodeRef : NodeId)
  | retracting (deviceNodeRef : Option NodeId) (hostNodeRef : NodeId)
      (localKVAllocator : LocalKVAllocator) (pagesToTransfer : List TransferPair)
  | retracted (hostNodeRef : NodeId) (localKVAllocator : LocalKVAllocator)
  | finished
  deriving DecidableEq, Repr

namespace RequestState

def name : RequestState → StateName
  | submitted => .submitted
  | prefilling _ _ => .prefilling
  | prefillDone _ _ _ => .prefillDone
  | decoding _ _ => .decoding
  | draining _ _ _ => .draining
  | writingBack _ _ => .writingBack
  | retracting _ _ _ _ => .retracting
  | retracted _ _ => .retracted
  | finished => .finished

/-- The forward states, as `std::derived_from<T, ForwardState>` selects them. -/
def forward? : RequestState → Option ForwardState
  | prefilling f _ => some f
  | prefillDone f _ _ => some f
  | decoding f _ => some f
  | _ => none

/-- The states whose requests are asked for a decode step or retracted. -/
def isDecodable : RequestState → Bool
  | prefillDone _ _ _ => true
  | decoding _ _ => true
  | _ => false

/-- The node references of a tier a state holds. -/
def nodeRefs (t : ResourceType) : RequestState → List NodeId
  | submitted => []
  | prefilling f _ => match t with | .device => [f.deviceNodeRef] | .host => f.hostNodeRef.toList
  | prefillDone f _ _ => match t with | .device => [f.deviceNodeRef] | .host => f.hostNodeRef.toList
  | decoding f _ => match t with | .device => [f.deviceNodeRef] | .host => f.hostNodeRef.toList
  | draining _ d h => match t with | .device => [d] | .host => [h]
  | writingBack d h => match t with | .device => d.toList | .host => [h]
  | retracting d h _ _ => match t with | .device => d.toList | .host => [h]
  | retracted h _ => match t with | .device => [] | .host => [h]
  | finished => []

/-- `GetLocalAllocatorPages`. -/
def localAllocatorPages : RequestState → List PageId
  | prefilling f _ => (f.localKVAllocator.map LocalKVAllocator.pages).getD []
  | prefillDone f _ _ => (f.localKVAllocator.map LocalKVAllocator.pages).getD []
  | decoding f _ => (f.localKVAllocator.map LocalKVAllocator.pages).getD []
  | retracting _ _ l _ => l.pages
  | retracted _ l => l.pages
  | _ => []

end RequestState

/-- A `std::string`, byte by byte. -/
abbrev RequestId := List UInt8

instance : LawfulBEq RequestId := inferInstance

structure RequestSpec where
  requestId : RequestId
  tokens : List Token
  prefillLength : Int := -1
  deriving DecidableEq, Repr

/-- A request with the token container it owns. -/
structure Request where
  id : RequestId
  tokens : List Token
  prefillSize : Int
  state : RequestState
  deriving DecidableEq, Repr

namespace Request

/-- `GetFullPagedTokens`, flattened: the tokens of the whole pages. -/
def fullPagedTokens (r : Request) (pageSize : Nat) (exceptLast : Bool) : List Token :=
  let tokenSize := if exceptLast then r.tokens.length-1 else r.tokens.length
  r.tokens.take (tokenSize/pageSize*pageSize)

def tokenSize (r : Request) : Nat := r.tokens.length

/-- `UnScheduledPrefillSize` of a prefilling request. -/
def unscheduledPrefillSize (r : Request) (w : Window) : Int := r.prefillSize-(w.start+w.size)

/-- `GetTokenSlice` of a window within the tokens. -/
def tokenSlice (r : Request) (w : Window) : List Token :=
  (r.tokens.drop w.start.toNat).take w.size.toNat

/-- `ComputeShiftedInputIds` of a window that is not negative. -/
def shiftedInputIds (r : Request) (w : Window) : List Token :=
  let shiftedStart := w.start+1
  let shiftedSize := max 0 (min r.prefillSize (shiftedStart+w.size)-shiftedStart)
  let shifted := r.tokenSlice ⟨shiftedStart,shiftedSize⟩
  shifted ++ List.replicate (w.size.toNat-shifted.length) (-1)

end Request

end FluxServe
