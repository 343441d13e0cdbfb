import FluxServe.Framework.AssocList
import FluxServe.Resource.RadixTree

namespace FluxServe

open KVPrefixCache

namespace KVPrefixCache

def hasChildWithPages (t : ResourceType) (tree : Heap TreeNode) (i : NodeId) : Bool :=
  (children tree i).any fun j => !(nodePages t tree j).isEmpty

def isLeaf (t : ResourceType) (tree : Heap TreeNode) (i : NodeId) : Bool :=
  hasResource t tree i && ((tree.read i).bind TreeNode.parent).isSome &&
    !(nodePages t tree i).isEmpty && !hasChildWithPages t tree i

end KVPrefixCache

def setEvictNotifier (t : ResourceType) (i : NodeId) (bound : Bool) : KV Unit := do
  let n ← getNode i
  match n.resource t with
  | some r => setNode i (n.setResource t (some { r with evictNotifier := bound }))
  | none => pure ()

/-- `removeLeaf`, which finds the entry through the key stored in `node_time_`. -/
def removeLeaf (t : ResourceType) (i : NodeId) : KV Unit := do
  let n ← getNode i
  if n.isRoot then return
  match ((← get).manager t).nodeTime.lookup i with
  | none => pure ()
  | some ts =>
    modifyManager t fun m =>
      { m with
        lruLeaves := m.lruLeaves.erase (ts,i)
        nodeTime := dropKey i m.nodeTime }
    setEvictNotifier t i false

/-- Put a node into `lru_leaves_` under its current time. -/
def insertLeafEntry (t : ResourceType) (i : NodeId) : KV Unit := do
  let n ← getNode i
  modifyManager t fun m =>
    { m with
      lruLeaves := ResourceManager.insertLeaf (n.lastAccessTime,i) m.lruLeaves
      nodeTime := (i,n.lastAccessTime) :: dropKey i m.nodeTime }
  setEvictNotifier t i true

def updateLeaf (t : ResourceType) (i : NodeId) : KV Unit := do
  let n ← getNode i
  if n.isRoot then return
  removeLeaf t i
  if isLeaf t (← get).tree i then insertLeafEntry t i

def updateLeaves (t : ResourceType) (i : NodeId) : KV Unit := do
  updateLeaf t i
  match (← getNode i).parent with
  | some p => updateLeaf t p
  | none => pure ()

/-- Attaching replaces a resource the node may already hold; its pages go back. -/
def attachResource (t : ResourceType) (i : NodeId) (pages : List PageId) : KV Unit := do
  let n ← getNode i
  setNode i (n.setResource t (some { pages }))
  deallocatePages t (n.pages t)

structure Evicted where
  nodes : List NodeId := []
  deferredLocked : List NodeId := []
  numPages : Int := 0
  deriving DecidableEq, Repr

/-- One turn of the loop of `Evict` on the oldest leaf. A locked leaf is set aside. -/
def evictLeaf (t : ResourceType) (leaf : NodeId) (e : Evicted) : KV Evicted := do
  modifyManager t fun m =>
    { m with lruLeaves := m.lruLeaves.tail, nodeTime := dropKey leaf m.nodeTime }
  let r ← getResource t leaf
  if r.refCount ≠ 0 then
    return { e with deferredLocked := e.deferredLocked ++ [leaf] }
  setResource t leaf none
  match (← getNode leaf).parent with
  | some p => updateLeaf t p
  | none => pure ()
  deallocatePages t r.pages
  return { e with nodes := e.nodes ++ [leaf], numPages := e.numPages+r.pages.length }

def evictLoop (t : ResourceType) (numPages : Int) : Nat → Evicted → KV Evicted
  | 0,e => pure e
  | fuel+1,e => do
    if numPages ≤ e.numPages then return e
    match ((← get).manager t).lruLeaves with
    | [] => return e
    | (_,leaf) :: _ => evictLoop t numPages fuel (← evictLeaf t leaf e)

/-- Every turn sets aside or empties another node, so the number of nodes bounds the turns.
The leaves set aside are put back at the end. -/
def evict (t : ResourceType) (numPages : Int) : KV (List NodeId) := do
  if numPages ≤ 0 then return []
  let e ← evictLoop t numPages (← get).tree.length {}
  e.deferredLocked.forM (insertLeafEntry t)
  return e.nodes

def ensureCapacity (t : ResourceType) (requiredNumPages : Int) : KV (List NodeId) := do
  if requiredNumPages ≤ 0 then return []
  let available := (← get).availablePages t
  if requiredNumPages ≤ available then return []
  evict t (requiredNumPages-available)

end FluxServe
