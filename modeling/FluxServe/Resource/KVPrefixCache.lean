import FluxServe.Resource.Eviction

namespace FluxServe

open KVPrefixCache

/-- `NodeRef::Lock` over the path of the node. -/
def lock (t : ResourceType) (i : NodeId) : KV Unit := do
  let path ← getLeafToRoot i
  path.forM fun j => do
    let r ← getResource t j
    setResource t j (some { r with refCount := r.refCount+1 })

/-- `NodeRef::Unlock` on one node. The last unlock refreshes the leaf's sort key. -/
def unlockNode (t : ResourceType) (j : NodeId) : KV Unit := do
  match (← getNode j).resource t with
  | none => throwUndefined .unlockNullResource
  | some r =>
    if 0 < r.refCount then
      setResource t j (some { r with refCount := r.refCount-1 })
      if r.refCount-1 = 0 ∧ r.evictNotifier then updateLeaf t j

def unlock (t : ResourceType) (i : NodeId) : KV Unit := do
  let path ← getLeafToRoot i
  path.forM (unlockNode t)

def unlock? (t : ResourceType) : Option NodeId → KV Unit
  | some i => unlock t i
  | none => pure ()

/-- Without a prefix cache only a recovery walks the tree. -/
def matchTokens (tokens : List Token) (intent : MatchIntent) : KV MatchResult := do
  let kv ← get
  if kv.disablePrefixCache ∧ intent = .prefixReuse then
    if tokens.length % kv.pageSize ≠ 0 then
      throwException (.matchAlignment tokens.length kv.pageSize)
    return ⟨0,0⟩
  let now ← readClock
  if tokens.length % kv.pageSize ≠ 0 then
    throwException (.matchAlignment tokens.length kv.pageSize)
  return (← walkDownUtilMismatch tokens now).matchResult

/-- What the loop of `Insert` carries from the leaf towards the root. -/
structure Insertion where
  remainingPages : Int
  allocatorPages : List PageId
  unconsumed : List PageId := []
  insertedNumPages : Int := 0
  deriving DecidableEq, Repr

/-- The pages of `allocator_pages` that lie in the window of the node with `numPages` pages. -/
def allocOverlap (s : Insertion) (allocStart numPages : Int) : Int :=
  max 0 (s.remainingPages-max (s.remainingPages-numPages) allocStart)

/-- One node of `Insert`'s way up; `false` stands for `break`. -/
def insertNode (t : ResourceType) (allocStart : Int) (i : NodeId) (s : Insertion) :
    KV (Bool × Insertion) := do
  let n ← getNode i
  let nodeNumPages : Int := n.tokens.length/(← get).pageSize
  if s.remainingPages < nodeNumPages then
    let overlap := max 0 (s.remainingPages-max 0 allocStart)
    if 0 < overlap then
      let (taken,kept) ← takeFirst s.allocatorPages overlap
      return (false,{ s with allocatorPages := kept, unconsumed := s.unconsumed ++ taken })
    return (false,s)
  let overlap := allocOverlap s allocStart nodeNumPages
  let s' := { s with remainingPages := s.remainingPages-nodeNumPages }
  if (n.resource t).isSome then
    if 0 < overlap then
      let (taken,kept) ← takeLast s.allocatorPages overlap
      return (true,{ s' with allocatorPages := kept, unconsumed := s.unconsumed ++ taken })
    return (true,s')
  let (taken,kept) ← takeLast s.allocatorPages nodeNumPages
  attachResource t i taken
  updateLeaves t i
  return (true,
    { s' with allocatorPages := kept, insertedNumPages := s.insertedNumPages+nodeNumPages })

/-- The destructors of `unconsumed` and `allocator_pages`. -/
def releaseInsertion (t : ResourceType) (s : Insertion) : KV Unit := do
  deallocatePages t s.unconsumed
  deallocatePages t s.allocatorPages

def insertLoop (t : ResourceType) (allocStart : Int) : List NodeId → Insertion → KV Insertion
  | [],s => pure s
  | i::is,s => do
    match ← unwinding (insertNode t allocStart i s) (releaseInsertion t s) with
    | (true,s') => insertLoop t allocStart is s'
    | (false,s') => pure s'

structure InsertResult where
  lastNode : NodeId
  insertedNumPages : Int
  deriving DecidableEq, Repr

/-- `Insert`. `prefixPages` is only counted: those positions hold pages of the tree already. -/
def insert (t : ResourceType) (tokens : List Token) (prefixPages allocatorPages : List PageId)
    (start : NodeId := 0) : KV InsertResult := do
  let pageSize := (← get).pageSize
  if tokens.length % pageSize ≠ 0 then
    deallocatePages t allocatorPages
    throwException (.insertAlignment tokens.length pageSize)
  let totalPages := tokens.length/pageSize
  if totalPages = 0 then
    deallocatePages t allocatorPages
    return ⟨0,0⟩
  let now ← readClock
  let w ← unwinding (walkDownUtilMismatch tokens now start) (deallocatePages t allocatorPages)
  let last ← if w.remainingTokens.isEmpty then pure w.terminal
    else addChild w.terminal w.remainingTokens now
  let path ← getLeafToRoot last
  let s ← insertLoop t prefixPages.length path
    { remainingPages := totalPages, allocatorPages }
  releaseInsertion t s
  return ⟨last,s.insertedNumPages⟩

/-- A node below another evicted node is left to the prune of that one. -/
def pruneEvicted (t : ResourceType) (evicted : List NodeId) : KV Unit :=
  evicted.forM fun i => do
    let n ← getNode i
    if n.parent.any fun p => evicted.contains p then return
    let survivor ← pruneEmptyByNode i
    updateLeaves t survivor

def ensureCapacityByEvict (t : ResourceType) (requiredNumPages : Int) : KV Bool := do
  let evicted ← ensureCapacity t requiredNumPages
  pruneEvicted t evicted
  return requiredNumPages ≤ (← get).availablePages t

/-- One node of `ReleaseDeviceResourcesPresentOnHost`; `false` stands for `break`. -/
def releaseOnHost (i : NodeId) : KV Bool := do
  let n ← getNode i
  match n.deviceResource with
  | none => return true
  | some r =>
    if n.hostResource.isNone ∨ r.refCount ≠ 0 then return false
    if hasChildWithPages .device (← get).tree i then return false
    removeLeaf .device i
    setResource .device i none
    match n.parent with
    | some p => updateLeaves .device p
    | none => pure ()
    deallocatePages .device r.pages
    return true

def releaseLoop : List NodeId → KV Unit
  | [] => pure ()
  | i::is => do
    if ← releaseOnHost i then releaseLoop is

def releaseDeviceResourcesPresentOnHost (last : NodeId) : KV Unit := do
  releaseLoop (← getLeafToRoot last)

/-- Keep the record of what was loaded back. -/
def recordLoadBack (t : ResourceType) (src dst : List PageId) : KV Unit :=
  if t = .device then
    modify fun kv => { kv with loadedBack := List.zipWith TransferPair.mk src dst ++ kv.loadedBack }
  else pure ()

/-- Hand each node the next pages of `pages`, as many as its copy on the other tier has. -/
def attachAll (t : ResourceType) : List NodeId → List PageId → KV (List PageId)
  | [],pages => pure pages
  | i::is,pages => do
    let r ← getResource t.other i
    let (taken,rest) ← takeFirst pages r.pages.length
    attachResource t i taken
    recordLoadBack t r.pages taken
    updateLeaves t i
    attachAll t is rest

def countPages (t : ResourceType) : List NodeId → KV Nat
  | [] => pure 0
  | i::is => do
    let r ← getResource t i
    return r.pages.length+(← countPages t is)

def allocateResourceOfType (t : ResourceType) (nodes : List NodeId) : KV Bool := do
  let totalPages ← countPages t.other nodes
  let pages ← allocatePages t totalPages
  if pages.length < totalPages then return false
  let rest ← attachAll t nodes pages
  deallocatePages t rest
  return true

/-- `BuildWriteBackPairs` from device to host, `GenerateLoadBackOp` from host to device. -/
def transferPairs (src : ResourceType) : List NodeId → KV (List TransferPair)
  | [] => pure []
  | i::is => do
    let s ← getResource src i
    let d ← getResource src.other i
    let rest ← transferPairs src is
    return List.zipWith TransferPair.mk s.pages d.pages ++ rest

end FluxServe
