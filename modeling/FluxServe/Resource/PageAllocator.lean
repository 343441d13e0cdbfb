import FluxServe.Resource.Types

namespace FluxServe

/-- The free list is kept with the back of `free_pages_` first. `returned` records every page
handed to `Deallocate`, latest first; the code never reads it. -/
structure PageAllocator where
  totalPages : Nat
  freePages : List PageId
  returned : List PageId := []
  deriving DecidableEq, Repr

namespace PageAllocator

/-- Page 0 is never handed out. -/
def allPages (totalPages : Nat) : List PageId := List.range' 1 (totalPages-1)

def new (totalPages : Nat) : PageAllocator :=
  { totalPages, freePages := (allPages totalPages).reverse }

def availablePages (a : PageAllocator) : Nat := a.freePages.length

/-- All of `numPages` or nothing. -/
def allocate (a : PageAllocator) (numPages : Int) : List PageId × PageAllocator :=
  if numPages ≤ 0 ∨ (a.freePages.length : Int) < numPages then ([],a)
  else (a.freePages.take numPages.toNat,{ a with freePages := a.freePages.drop numPages.toNat })

def deallocate (a : PageAllocator) (pages : List PageId) : PageAllocator :=
  { a with freePages := pages.reverse ++ a.freePages, returned := pages ++ a.returned }

end PageAllocator

/-- `lruLeaves` is kept in the order of `std::set`: by time, then by node. -/
structure ResourceManager where
  allocator : PageAllocator
  lruLeaves : List (Timestamp × NodeId) := []
  nodeTime : List (NodeId × Timestamp) := []
  deriving DecidableEq, Repr

namespace ResourceManager

def leafBefore (a b : Timestamp × NodeId) : Bool :=
  a.1 < b.1 || (a.1 == b.1 && a.2 < b.2)

def insertLeaf (e : Timestamp × NodeId) : List (Timestamp × NodeId) → List (Timestamp × NodeId)
  | [] => [e]
  | f :: fs => if e = f then f :: fs else if leafBefore e f then e :: f :: fs else f :: insertLeaf e fs

end ResourceManager

/-- The cache's own state with the two allocators its managers point to. -/
structure KVPrefixCache where
  pageSize : Nat
  disablePrefixCache : Bool
  tree : Heap TreeNode
  device : ResourceManager
  host : ResourceManager
  nextOpId : Nat
  /-- What the successive readings of `steady_clock::now` return, and how many were taken. -/
  clock : Nat → Timestamp
  readings : Nat
  /-- The (host page, device page) pairs attached by `AllocateResourceOfType<Device>`, latest
  first; the code never reads it. -/
  loadedBack : List TransferPair

abbrev KV := EStateM Fault KVPrefixCache

namespace KVPrefixCache

def manager (kv : KVPrefixCache) : ResourceType → ResourceManager
  | .device => kv.device
  | .host => kv.host

def setManager (kv : KVPrefixCache) (t : ResourceType) (m : ResourceManager) : KVPrefixCache :=
  match t with
  | .device => { kv with device := m }
  | .host => { kv with host := m }

@[simp] theorem manager_setManager (kv : KVPrefixCache) (t : ResourceType) (m : ResourceManager) :
    (kv.setManager t m).manager t = m := by
  cases t <;> rfl

theorem manager_setManager_ne (kv : KVPrefixCache) {t u : ResourceType} (m : ResourceManager)
    (h : t ≠ u) : (kv.setManager t m).manager u = kv.manager u := by
  cases t <;> cases u <;> first | rfl | exact absurd rfl h

@[simp] theorem setManager_tree (kv : KVPrefixCache) (t : ResourceType) (m : ResourceManager) :
    (kv.setManager t m).tree = kv.tree := by
  cases t <;> rfl

@[simp] theorem setManager_pageSize (kv : KVPrefixCache) (t : ResourceType)
    (m : ResourceManager) : (kv.setManager t m).pageSize = kv.pageSize := by
  cases t <;> rfl

@[simp] theorem setManager_disablePrefixCache (kv : KVPrefixCache) (t : ResourceType)
    (m : ResourceManager) : (kv.setManager t m).disablePrefixCache = kv.disablePrefixCache := by
  cases t <;> rfl

@[simp] theorem setManager_nextOpId (kv : KVPrefixCache) (t : ResourceType)
    (m : ResourceManager) : (kv.setManager t m).nextOpId = kv.nextOpId := by
  cases t <;> rfl

@[simp] theorem setManager_loadedBack (kv : KVPrefixCache) (t : ResourceType)
    (m : ResourceManager) : (kv.setManager t m).loadedBack = kv.loadedBack := by
  cases t <;> rfl

def availablePages (t : ResourceType) (kv : KVPrefixCache) : Nat :=
  (kv.manager t).allocator.availablePages

end KVPrefixCache

def throwException {α : Type} (e : Exception) : KV α := throw (.exception e)

def throwUndefined {α : Type} (u : Undefined) : KV α := throw (.undefined u)

def getNode (i : NodeId) : KV TreeNode := do
  match (← get).tree.read i with
  | some n => pure n
  | none => throwUndefined .destroyedNode

def setNode (i : NodeId) (n : TreeNode) : KV Unit :=
  modify fun kv => { kv with tree := kv.tree.write i n }

def getResource (t : ResourceType) (i : NodeId) : KV NodeResource := do
  match (← getNode i).resource t with
  | some r => pure r
  | none => throwUndefined .nullResource

def setResource (t : ResourceType) (i : NodeId) (r : Option NodeResource) : KV Unit := do
  let n ← getNode i
  setNode i (n.setResource t r)

def modifyManager (t : ResourceType) (f : ResourceManager → ResourceManager) : KV Unit :=
  modify fun kv => kv.setManager t (f (kv.manager t))

/-- The manager's `Allocate`, which is the page allocator's. -/
def allocatePages (t : ResourceType) (numPages : Int) : KV (List PageId) := do
  let m := (← get).manager t
  let (pages,a) := m.allocator.allocate numPages
  modify fun kv => kv.setManager t { m with allocator := a }
  pure pages

/-- What the destructor of an `OwnedPages` does. -/
def deallocatePages (t : ResourceType) (pages : List PageId) : KV Unit :=
  modifyManager t fun m => { m with allocator := m.allocator.deallocate pages }

/-- `OwnedPages::TakeFirst`: the first `n` pages and what is kept. -/
def takeFirst (pages : List PageId) (n : Int) : KV (List PageId × List PageId) :=
  if n < 0 ∨ (pages.length : Int) < n then throwException (.takeFirst n pages.length)
  else pure (pages.take n.toNat,pages.drop n.toNat)

/-- `OwnedPages::TakeLast`: the last `n` pages and what is kept. -/
def takeLast (pages : List PageId) (n : Int) : KV (List PageId × List PageId) :=
  if n < 0 ∨ (pages.length : Int) < n then throwException (.takeLast n pages.length)
  else pure (pages.drop (pages.length-n.toNat),pages.take (pages.length-n.toNat))

def readClock : KV Timestamp := do
  let kv ← get
  set { kv with readings := kv.readings+1 }
  pure (kv.clock kv.readings)

/-- `next_op_id_` is a 32-bit counter: the id handed out is the count modulo `2^32`. -/
def allocateCacheOpId : KV CacheOpId := do
  let kv ← get
  set { kv with nextOpId := kv.nextOpId+1 }
  pure (kv.nextOpId % 2^32)

end FluxServe
