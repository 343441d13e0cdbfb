import FluxServe.Resource.PageAllocator

namespace FluxServe

namespace KVPrefixCache

/-- Follow parent pointers, leaving out the root. -/
def leafToRootAux (tree : Heap TreeNode) : Nat → NodeId → List NodeId
  | 0,_ => []
  | fuel+1,i =>
    match (tree.read i).bind TreeNode.parent with
    | some p => i :: leafToRootAux tree fuel p
    | none => []

/-- `LeafToRoot`. Every node holds at least one token, so the depth bounds the path. -/
def leafToRoot (tree : Heap TreeNode) (i : NodeId) : List NodeId :=
  leafToRootAux tree (((tree.read i).map TreeNode.depthInTokens).getD 0) i

def rootToLeaf (tree : Heap TreeNode) (i : NodeId) : List NodeId := (leafToRoot tree i).reverse

def nodePages (t : ResourceType) (tree : Heap TreeNode) (i : NodeId) : List PageId :=
  ((tree.read i).map (TreeNode.pages t)).getD []

def nodeTokens (tree : Heap TreeNode) (i : NodeId) : List Token :=
  ((tree.read i).map TreeNode.tokens).getD []

def nodeDepth (tree : Heap TreeNode) (i : NodeId) : Nat :=
  ((tree.read i).map TreeNode.depthInTokens).getD 0

def hasResource (t : ResourceType) (tree : Heap TreeNode) (i : NodeId) : Bool :=
  ((tree.read i).bind (fun n => n.resource t)).isSome

def refCountOf (t : ResourceType) (tree : Heap TreeNode) (i : NodeId) : Nat :=
  (((tree.read i).bind fun n => n.resource t).map NodeResource.refCount).getD 0

/-- The pages of a tier along the path from the root: `DevicePagesFromRoot` for the device. -/
def pathPages (t : ResourceType) (tree : Heap TreeNode) (i : NodeId) : List PageId :=
  (rootToLeaf tree i).flatMap (nodePages t tree)

/-- The token sequence a node stands for. -/
def pathTokens (tree : Heap TreeNode) (i : NodeId) : List Token :=
  (rootToLeaf tree i).flatMap (nodeTokens tree)

/-- `CollectAllPages`, with multiplicity. -/
def collectAllPages (t : ResourceType) (kv : KVPrefixCache) : List PageId :=
  kv.tree.collect (TreeNode.pages t)

def children (tree : Heap TreeNode) (i : NodeId) : List NodeId :=
  (List.range tree.length).filter fun j => (tree.read j).bind TreeNode.parent = some i

def findChild (pageSize : Nat) (tree : Heap TreeNode) (i : NodeId) (key : List Token) :
    Option NodeId :=
  (children tree i).find? fun j => (nodeTokens tree j).take pageSize = key

end KVPrefixCache

open KVPrefixCache

/-- The path of a pointer the code walks up from; reading it needs the node to exist. -/
def getLeafToRoot (i : NodeId) : KV (List NodeId) := do
  let _ ← getNode i
  pure (leafToRoot (← get).tree i)

/-- `DevicePagesFromRoot` dereferences every node's device resource. -/
def devicePagesFromRoot (i : NodeId) : KV (List PageId) := do
  let path ← getLeafToRoot i
  path.forM fun j => do
    let _ ← getResource .device j
  pure (pathPages .device (← get).tree i)

def depthInPage (i : NodeId) : KV Nat := do
  let n ← getNode i
  pure (n.depthInTokens / (← get).pageSize)

/-- The nodes of the subtree rooted at `i`, `i` included. -/
def subtree (tree : Heap TreeNode) (i : NodeId) : List NodeId :=
  (List.range tree.length).filter fun j => (leafToRoot tree j).contains i

/-- Destroying a node destroys its resources and, through `children_`, its whole subtree. -/
def destroySubtree (i : NodeId) : KV Unit := do
  let tree := (← get).tree
  (subtree tree i).forM fun j => do
    deallocatePages .host (nodePages .host tree j)
    deallocatePages .device (nodePages .device tree j)
    modify fun kv => { kv with tree := kv.tree.release j }

/-- `AddChild` of a new node: assigning into `children_` destroys a child that had the key. -/
def addChild (parent : NodeId) (tokens : List Token) (accessTime : Timestamp) : KV NodeId := do
  let p ← getNode parent
  let kv ← get
  let child : TreeNode :=
    { parent := some parent, tokens, depthInTokens := p.depthInTokens+tokens.length,
      lastAccessTime := accessTime }
  let old := findChild kv.pageSize kv.tree parent (tokens.take kv.pageSize)
  modify fun kv => { kv with tree := kv.tree.alloc child }
  match old with
  | some c => destroySubtree c
  | none => pure ()
  pure kv.tree.length

def splitResource (r : Option NodeResource) (prefixPages : Nat) :
    KV (Option NodeResource × Option NodeResource) := do
  match r with
  | none => pure (none,none)
  | some r =>
    let (first,rest) ← takeFirst r.pages prefixPages
    pure (some { pages := first, refCount := r.refCount },some { r with pages := rest })

/-- `splitChild` with `SplitSelfInto`: the old node keeps its identity and becomes the suffix;
the new prefix node copies its ref counts but carries no notifier. -/
def splitChild (parent child : NodeId) (prefixPages : Nat) : KV NodeId := do
  let kv ← get
  let p ← getNode parent
  let n ← getNode child
  let splitAt := prefixPages*kv.pageSize
  let (devicePrefix,deviceSuffix) ← splitResource n.deviceResource prefixPages
  let (hostPrefix,hostSuffix) ← splitResource n.hostResource prefixPages
  if n.hasPagedCacheSnapshot then throwException .snapshotSplit
  let depthStart := n.depthInTokens-n.tokens.length
  let prefixNode : TreeNode :=
    { parent := some parent, tokens := n.tokens.take splitAt,
      depthInTokens := p.depthInTokens+(n.tokens.take splitAt).length,
      lastAccessTime := n.lastAccessTime,
      deviceResource := devicePrefix, hostResource := hostPrefix }
  let k := kv.tree.length
  let suffixNode : TreeNode :=
    { n with
      parent := some k, tokens := n.tokens.drop splitAt,
      depthInTokens := depthStart+splitAt+(n.tokens.drop splitAt).length,
      deviceResource := deviceSuffix, hostResource := hostSuffix }
  modify fun kv => { kv with tree := (kv.tree.alloc prefixNode).write child suffixNode }
  pure k

/-- The way up of `SplitAt`; `none` stands for the null pointer. -/
def splitAtLoop (depth : Int) : List NodeId → KV (Option NodeId)
  | [] => pure none
  | i::is => do
    let n ← getNode i
    let thisDepth : Int := n.depthInTokens
    let parentDepth : Int := thisDepth-n.tokens.length
    if depth = thisDepth then return some i
    if parentDepth < depth ∧ depth < thisDepth then
      if n.hasPagedCacheSnapshot then return none
      match n.parent with
      | none => return none
      | some p => return some (← splitChild p i ((depth-parentDepth)/(← get).pageSize).toNat)
    else splitAtLoop depth is

/-- The node on the way to `descendant` that ends at `depth` tokens, split off where there is none. -/
def splitAt (descendant : Option NodeId) (depth : Int) : KV (Option NodeId) := do
  match descendant with
  | none => return none
  | some i =>
    if depth ≤ 0 ∨ depth % (← get).pageSize ≠ 0 then return none
    if (← getNode i).depthInTokens < depth then return none
    splitAtLoop depth (← getLeafToRoot i)

/-- The length of the common beginning of two token lists, as `std::mismatch` finds it. -/
def matchedTokens : List Token → List Token → Nat
  | a::as,b::bs => if a=b then matchedTokens as bs+1 else 0
  | _,_ => 0

def calcMatchedPages (tokens remaining : List Token) (pageSize : Nat) : Nat :=
  matchedTokens tokens remaining / pageSize

structure MatchResult where
  device : NodeId
  host : NodeId
  deriving DecidableEq, Repr

structure WalkResult where
  terminal : NodeId
  remainingTokens : List Token
  device : NodeId
  host : NodeId
  deviceAlive : Bool := true
  hostAlive : Bool := true
  deriving DecidableEq, Repr

def WalkResult.matchResult (w : WalkResult) : MatchResult := ⟨w.device,w.host⟩

/-- One tier's `update_tier`: the last node while the walk is still on the tier. -/
def updateTier (alive : Bool) (last child : NodeId) (onTier : Bool) : Bool × NodeId :=
  if alive then if onTier then (true,child) else (false,last) else (false,last)

def touch (i : NodeId) (now : Timestamp) : KV Unit := do
  let n ← getNode i
  setNode i { n with lastAccessTime := now }

/-- The step taken once a child with the next page's key was found; `none` ends the walk. -/
def walkInto (w : WalkResult) (c : NodeId) (now : Timestamp) : KV (Option WalkResult) := do
  let pageSize := (← get).pageSize
  let child ← getNode c
  let matched := calcMatchedPages child.tokens w.remainingTokens pageSize
  if matched = 0 then return none
  let whole := matched = child.tokens.length/pageSize
  -- A snapshot-bearing node is never split; the walk stops above it instead.
  if ¬whole ∧ child.hasPagedCacheSnapshot then return none
  let next ← if whole then pure c else splitChild w.terminal c matched
  touch next now
  let tree := (← get).tree
  let d := updateTier w.deviceAlive w.device next (hasResource .device tree next)
  let h := updateTier w.hostAlive w.host next (hasResource .host tree next)
  return some
    { terminal := next, remainingTokens := w.remainingTokens.drop (matched*pageSize),
      device := d.2, host := h.2, deviceAlive := d.1, hostAlive := h.1 }

def walkLoop (now : Timestamp) : Nat → WalkResult → KV WalkResult
  | 0,w => pure w
  | fuel+1,w => do
    let kv ← get
    if w.remainingTokens.length < kv.pageSize then return w
    match findChild kv.pageSize kv.tree w.terminal (w.remainingTokens.take kv.pageSize) with
    | none => return w
    | some c =>
      match ← walkInto w c now with
      | none => return w
      | some w' => walkLoop now fuel w'

/-- Each turn of the loop consumes at least one page, so the token count bounds the turns. -/
def walkDownUtilMismatch (tokens : List Token) (now : Timestamp) (start : NodeId := 0) :
    KV WalkResult :=
  walkLoop now tokens.length
    { terminal := start, remainingTokens := tokens, device := start, host := start }

def pruneLoop : Nat → NodeId → KV NodeId
  | 0,i => pure i
  | fuel+1,i => do
    let n ← getNode i
    match n.parent with
    | none => pure i
    | some p => do
      let tree := (← get).tree
      if (children tree i).length ≠ 0 ∨ n.deviceResource.isSome ∨ n.hostResource.isSome then pure i
      else
        modify fun kv => { kv with tree := kv.tree.release i }
        pruneLoop fuel p

/-- The first node on the way up that still has a child or a resource. -/
def pruneEmptyByNode (i : NodeId) : KV NodeId := do
  let n ← getNode i
  pruneLoop (n.depthInTokens+1) i

/-- `NodesWithout`: from the other tier's last node up to the first node on tier `t`. -/
def nodesWithout (t : ResourceType) (m : MatchResult) : KV (List NodeId) := do
  let path ← getLeafToRoot (match t with | .device => m.host | .host => m.device)
  let tree := (← get).tree
  pure (path.takeWhile fun i => !hasResource t tree i)

end FluxServe
