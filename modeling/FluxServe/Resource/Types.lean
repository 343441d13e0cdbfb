import FluxServe.Framework.Outcome
import FluxServe.Framework.Heap

namespace FluxServe

abbrev Token := Int
abbrev PageId := Nat
abbrev CacheOpId := Nat
abbrev Timestamp := Nat

/-- A `TreeNode*`, named by the node's `seq_id_`. The root is node 0. -/
abbrev NodeId := Nat

/-- Most pages and blocks of the runs on fixed inputs have four tokens. -/
theorem four_pos : 0 < 4 := by decide

inductive ResourceType
  | device
  | host
  deriving DecidableEq, Repr

/-- The tier a copy is made from when pages of the given tier are allocated. -/
def ResourceType.other : ResourceType → ResourceType
  | .device => .host
  | .host => .device

inductive MatchIntent
  | prefixReuse
  | stateRecovery
  deriving DecidableEq, Repr

structure TransferPair where
  src : PageId
  dst : PageId
  deriving DecidableEq, Repr

/-- Request states of the scheduler's state machine, as `StateName` prints them. -/
inductive StateName
  | submitted
  | prefilling
  | prefillDone
  | decoding
  | draining
  | writingBack
  | retracting
  | retracted
  | finished
  deriving DecidableEq, Repr

def StateName.text : StateName → String
  | .submitted => "Submitted"
  | .prefilling => "Prefilling"
  | .prefillDone => "PrefillDone"
  | .decoding => "Decoding"
  | .draining => "Draining"
  | .writingBack => "WritingBack"
  | .retracting => "Retracting"
  | .retracted => "Retracted"
  | .finished => "Finished"

inductive EventName
  | schedulePrefillFirstChunk
  | schedulePrefill
  | scheduleDecode
  | scheduleDecodeFromRetracted
  | scheduleRetract
  | finish
  | abort
  | commitDraining
  | writeBackDone
  | updateReserveNumTokens
  | extendResult
  deriving DecidableEq, Repr

def EventName.text : EventName → String
  | .schedulePrefillFirstChunk => "SchedulePrefillFirstChunkEvent"
  | .schedulePrefill => "SchedulePrefillEvent"
  | .scheduleDecode => "ScheduleDecodeEvent"
  | .scheduleDecodeFromRetracted => "ScheduleDecodeFromRetractedEvent"
  | .scheduleRetract => "ScheduleRetractEvent"
  | .finish => "FinishEvent"
  | .abort => "AbortEvent"
  | .commitDraining => "CommitDrainingEvent"
  | .writeBackDone => "WriteBackDoneEvent"
  | .updateReserveNumTokens => "UpdateReserveNumTokensEvent"
  | .extendResult => "ExtendResultEvent"

/-- One constructor for each `throw` the modelled functions contain. -/
inductive Exception
  | takeFirst (count : Int) (size : Nat)
  | takeLast (count : Int) (size : Nat)
  | insufficientPages (requested : Int) (allocated : Nat)
  | noRequestSlots (capacity : Int)
  | matchAlignment (tokenCount pageSize : Nat)
  | insertAlignment (tokenCount pageSize : Nat)
  | snapshotSplit
  | prefillLength
  | invalidTransition (event : EventName) (state : StateName)
  | unexpectedState (function : String) (expected : String) (state : StateName)
  | recoverAllocation
  | retractAllocation
  | negativeReserve
  | negativeWindow
  deriving DecidableEq, Repr

/-- The text `what()` returns. -/
def Exception.what : Exception → String
  | .takeFirst n k => "OwnedPages::TakeFirst: count out of range; count=" ++ toString n ++
      "; size=" ++ toString k
  | .takeLast n k => "OwnedPages::TakeLast: count out of range; count=" ++ toString n ++
      "; size=" ++ toString k
  | .insufficientPages n k => "LocalKVAllocator::Acquire: insufficient KV pages; requested=" ++
      toString n ++ "; allocated=" ++ toString k
  | .noRequestSlots n =>
      "ReqPoolAllocator::Allocate: no request pool slots available; capacity=" ++ toString n
  | .matchAlignment n k => "KVPrefixCache::Match: token count must be divisible by page_size; " ++
      "token_count=" ++ toString n ++ "; page_size=" ++ toString k
  | .insertAlignment n k => "KVPrefixCache::Insert: token count must be divisible by page_size; " ++
      "token_count=" ++ toString n ++ "; page_size=" ++ toString k
  | .snapshotSplit => "TreeNode::SplitSelfInto called on a node with an attached paged-cache " ++
      "snapshot; splitting would invalidate borrowed page id references in active requests"
  | .prefillLength => "RequestSpec.prefill_length must be -1 or within the prompt token range"
  | .invalidTransition e s => "FSM transition invalid: event=flux::fsm::" ++ e.text ++
      "; state=flux::fsm::" ++ s.text
  | .unexpectedState f e s => f ++ ": expected " ++ e ++ "; got state=" ++ s.text
  | .recoverAllocation => "ScheduleDecodeFromRetractedEvent: failed to allocate device pages " ++
      "for host cache recovery"
  | .retractAllocation => "ScheduleRetractEvent: failed to allocate host pages for device cache " ++
      "writeback"
  | .negativeReserve => "Assertion failed"
  | .negativeWindow => "vector::reserve"

/-- Reads the code makes through a pointer that holds no object. -/
inductive Undefined
  | destroyedNode
  | destroyedRequest
  | nullResource
  | unlockNullResource
  | nullLocalAllocator
  | emptyTokens
  deriving DecidableEq, Repr

/-- How a call can end other than by returning. -/
inductive Fault
  | exception (e : Exception)
  | undefined (u : Undefined)
  deriving DecidableEq, Repr

structure NodeResource where
  pages : List PageId
  refCount : Nat := 0
  /-- Whether `evict_notifier_` is bound; its owner is always the node that holds the resource. -/
  evictNotifier : Bool := false
  deriving DecidableEq, Repr

structure PagedCacheGroupSnapshot where
  pages : List PageId
  baseLogicalPage : Int := 0
  rawTokenCursor : Int := 0
  sliding : Bool := false
  deriving DecidableEq, Repr

inductive PagedCacheGroupFamily
  | history
  | state
  deriving DecidableEq, Repr

structure PagedCacheSnapshot where
  prefixLenTokens : Int := 0
  groups : List (String × PagedCacheGroupSnapshot) := []
  completeFamilies : List PagedCacheGroupFamily := []
  continuationStateComplete : Bool := false
  deriving DecidableEq, Repr

/-- A radix-tree node. `children_` is not stored: a node's children are the nodes whose parent
it is, each under the key of its first page of tokens, the only key `AddChild` is called with. -/
structure TreeNode where
  parent : Option NodeId
  tokens : List Token := []
  depthInTokens : Nat := 0
  lastAccessTime : Timestamp := 0
  deviceResource : Option NodeResource := none
  hostResource : Option NodeResource := none
  pagedCacheSnapshot : Option PagedCacheSnapshot := none
  deriving DecidableEq, Repr

namespace TreeNode

def resource (n : TreeNode) : ResourceType → Option NodeResource
  | .device => n.deviceResource
  | .host => n.hostResource

def setResource (n : TreeNode) (t : ResourceType) (r : Option NodeResource) : TreeNode :=
  match t with
  | .device => { n with deviceResource := r }
  | .host => { n with hostResource := r }

def isRoot (n : TreeNode) : Bool := n.parent.isNone

def hasPagedCacheSnapshot (n : TreeNode) : Bool := n.pagedCacheSnapshot.isSome

/-- The pages a node holds on a tier; none where it is not resident. -/
def pages (t : ResourceType) (n : TreeNode) : List PageId :=
  ((n.resource t).map NodeResource.pages).getD []

@[simp] theorem resource_setResource (n : TreeNode) (t : ResourceType) (r : Option NodeResource) :
    (n.setResource t r).resource t = r := by
  cases t <;> rfl

theorem resource_setResource_ne (n : TreeNode) {t u : ResourceType} (r : Option NodeResource)
    (h : t ≠ u) : (n.setResource t r).resource u = n.resource u := by
  cases t <;> cases u <;> first | rfl | exact absurd rfl h

@[simp] theorem setResource_parent (n : TreeNode) (t : ResourceType) (r : Option NodeResource) :
    (n.setResource t r).parent = n.parent := by
  cases t <;> rfl

@[simp] theorem setResource_tokens (n : TreeNode) (t : ResourceType) (r : Option NodeResource) :
    (n.setResource t r).tokens = n.tokens := by
  cases t <;> rfl

@[simp] theorem setResource_depthInTokens (n : TreeNode) (t : ResourceType)
    (r : Option NodeResource) : (n.setResource t r).depthInTokens = n.depthInTokens := by
  cases t <;> rfl

@[simp] theorem setResource_lastAccessTime (n : TreeNode) (t : ResourceType)
    (r : Option NodeResource) : (n.setResource t r).lastAccessTime = n.lastAccessTime := by
  cases t <;> rfl

@[simp] theorem setResource_pagedCacheSnapshot (n : TreeNode) (t : ResourceType)
    (r : Option NodeResource) :
    (n.setResource t r).pagedCacheSnapshot = n.pagedCacheSnapshot := by
  cases t <;> rfl

end TreeNode

end FluxServe
