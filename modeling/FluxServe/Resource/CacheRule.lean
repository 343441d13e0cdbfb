import FluxServe.Framework.Keeps
import FluxServe.Resource.KVPrefixCache

namespace FluxServe

open KVPrefixCache

/-- The leaves are in the order of `std::set`. -/
def LeafOrdered (m : ResourceManager) : Prop :=
  m.lruLeaves.Pairwise fun a b => ResourceManager.leafBefore a b = true

theorem leafBefore_iff {a b : Timestamp × NodeId} :
    ResourceManager.leafBefore a b = true ↔ a.1 < b.1 ∨ a.1 = b.1 ∧ a.2 < b.2 := by
  simp [ResourceManager.leafBefore]

theorem mem_insertLeaf {e f : Timestamp × NodeId} {l : List (Timestamp × NodeId)} :
    f ∈ ResourceManager.insertLeaf e l ↔ f = e ∨ f ∈ l := by
  induction l with
  | nil => simp [ResourceManager.insertLeaf]
  | cons g l ih =>
    unfold ResourceManager.insertLeaf
    split
    · next heg => simp [heg]
    · split
      · simp
      · rw [List.mem_cons,ih,List.mem_cons]
        tauto

theorem pairwise_insertLeaf {e : Timestamp × NodeId} {l : List (Timestamp × NodeId)}
    (hl : l.Pairwise fun a b => ResourceManager.leafBefore a b = true) :
    (ResourceManager.insertLeaf e l).Pairwise fun a b => ResourceManager.leafBefore a b = true := by
  induction l with
  | nil => simp [ResourceManager.insertLeaf]
  | cons f l ih =>
    obtain ⟨hf,hl'⟩ := List.pairwise_cons.mp hl
    unfold ResourceManager.insertLeaf
    split
    · exact hl
    · next hne =>
      split
      · next hef =>
        apply List.pairwise_cons.mpr
        constructor
        · intro g hg
          rw [List.mem_cons] at hg
          obtain rfl | hg := hg
          · exact hef
          · have hfg := leafBefore_iff.mp (hf g hg)
            have hef' := leafBefore_iff.mp hef
            apply leafBefore_iff.mpr
            grind
        · exact hl
      · next hef =>
        apply List.pairwise_cons.mpr
        constructor
        · intro g hg
          obtain rfl | hg := mem_insertLeaf.mp hg
          · have hef' := fun h => hef (leafBefore_iff.mpr h)
            apply leafBefore_iff.mpr
            have : g.1 ≠ f.1 ∨ g.2 ≠ f.2 := by
              by_contra hboth
              push Not at hboth
              exact hne (Prod.ext hboth.1 hboth.2)
            grind
          · exact hf g hg
        · exact ih hl'

/-- What a relation between caches has to allow so that reading respects it. -/
structure ReadRule (R : KVPrefixCache → KVPrefixCache → Prop) : Prop where
  refl (kv : KVPrefixCache) : R kv kv
  trans {kv kv' kv'' : KVPrefixCache} (first : R kv kv') (second : R kv' kv'') : R kv kv''

section Reading

variable {R : KVPrefixCache → KVPrefixCache → Prop} {α β : Type} {t : ResourceType}

namespace ReadRule

section Rules

variable (h : ReadRule R)
include h

theorem pure (a : α) : Follows R (Pure.pure a : KV α) := follows_pure h.refl a

theorem throw (e : Fault) : Follows R (MonadExcept.throw e : KV α) := follows_throw h.refl e

theorem get : Follows R (MonadState.get : KV KVPrefixCache) := h.refl

theorem bind {x : KV α} {g : α → KV β} (hx : Follows R x) (hg : ∀ a, Follows R (g a)) :
    Follows R (x >>= g) := follows_bind (R := R) h.trans hx hg

theorem forM {g : α → KV PUnit} (hg : ∀ a, Follows R (g a)) (as : List α) :
    Follows R (as.forM g) := follows_forM (R := R) h.refl h.trans hg as

theorem unwinding {x : KV α} {c : KV Unit} (hx : Follows R x) (hc : Follows R c) :
    Follows R (FluxServe.unwinding x c) := follows_unwinding (R := R) h.trans hx hc

end Rules

variable (h : ReadRule R)
include h

theorem follows_throwException (e : Exception) :
    Follows R (throwException e : KV α) := h.throw _

theorem follows_throwUndefined (u : Undefined) :
    Follows R (throwUndefined u : KV α) := h.throw _

theorem follows_getNode (i : NodeId) : Follows R (getNode i) := by
  refine h.bind h.get fun kv => ?_
  split
  · exact h.pure _
  · exact h.follows_throwUndefined _

theorem follows_getResource (i : NodeId) : Follows R (getResource t i) := by
  refine h.bind (h.follows_getNode i) fun n => ?_
  split
  · exact h.pure _
  · exact h.follows_throwUndefined _

theorem follows_takeFirst (pages : List PageId) (n : Int) : Follows R (takeFirst pages n) :=
  follows_ite (h.follows_throwException _) (h.pure _)

theorem follows_takeLast (pages : List PageId) (n : Int) : Follows R (takeLast pages n) :=
  follows_ite (h.follows_throwException _) (h.pure _)

theorem follows_getLeafToRoot (i : NodeId) : Follows R (getLeafToRoot i) :=
  h.bind (h.follows_getNode i) fun _ => h.bind h.get fun _ => h.pure _

theorem follows_depthInPage (i : NodeId) : Follows R (depthInPage i) :=
  h.bind (h.follows_getNode i) fun _ => h.bind h.get fun _ => h.pure _

theorem follows_nodesWithout (m : MatchResult) : Follows R (nodesWithout t m) :=
  h.bind (h.follows_getLeafToRoot _) fun _ => h.bind h.get fun _ => h.pure _

theorem follows_devicePagesFromRoot (i : NodeId) : Follows R (devicePagesFromRoot i) := by
  refine h.bind (h.follows_getLeafToRoot i) fun path => h.bind (h.forM ?_ path) ?_
  · exact fun j => h.bind (h.follows_getResource j) fun _ => h.pure _
  · exact fun _ => h.bind h.get fun _ => h.pure _

theorem follows_transferPairs (src : ResourceType) (nodes : List NodeId) :
    Follows R (transferPairs src nodes) := by
  induction nodes with
  | nil => exact h.pure _
  | cons i is ih =>
    refine h.bind (h.follows_getResource i) fun _ => ?_
    exact h.bind (h.follows_getResource i) fun _ => h.bind ih fun _ => h.pure _

theorem follows_countPages (nodes : List NodeId) : Follows R (countPages t nodes) := by
  induction nodes with
  | nil => exact h.pure _
  | cons i is ih =>
    refine h.bind (h.follows_getResource i) fun r => ?_
    exact h.bind ih fun _ => h.pure _

end ReadRule

end Reading

/-- What a relation between caches has to allow so that every operation respects it: any change of
the tree, of the clock and of the counter, and a manager whose leaves stay in order. -/
structure CacheRule (R : KVPrefixCache → KVPrefixCache → Prop) : Prop extends ReadRule R where
  tree (kv : KVPrefixCache) (tree : Heap TreeNode) : R kv { kv with tree }
  readings (kv : KVPrefixCache) (n : Nat) : R kv { kv with readings := n }
  nextOpId (kv : KVPrefixCache) (n : Nat) : R kv { kv with nextOpId := n }
  manager (kv : KVPrefixCache) (t : ResourceType) (m : ResourceManager)
    (ordered : LeafOrdered (kv.manager t) → LeafOrdered m) : R kv (kv.setManager t m)

namespace CacheRule

variable {R : KVPrefixCache → KVPrefixCache → Prop} {α β : Type} {t : ResourceType}

variable (h : CacheRule R)
include h

theorem follows_setNode (i : NodeId) (n : TreeNode) : Follows R (setNode i n) :=
  fun kv => h.tree kv _

theorem follows_setResource (i : NodeId) (r : Option NodeResource) :
    Follows R (setResource t i r) :=
  h.bind (h.follows_getNode i) fun _ => h.follows_setNode _ _

theorem follows_modifyManager {f : ResourceManager → ResourceManager}
    (hf : ∀ m, LeafOrdered m → LeafOrdered (f m)) : Follows R (modifyManager t f) :=
  fun kv => h.manager kv t _ (hf _)

theorem follows_deallocatePages (pages : List PageId) :
    Follows R (deallocatePages t pages) :=
  h.follows_modifyManager fun _ hm => hm

theorem follows_setEvictNotifier (i : NodeId) (b : Bool) :
    Follows R (setEvictNotifier t i b) := by
  refine h.bind (h.follows_getNode i) fun n => ?_
  split
  · exact h.follows_setNode _ _
  · exact h.pure _

theorem follows_removeLeaf (i : NodeId) : Follows R (removeLeaf t i) := by
  refine h.bind (h.follows_getNode i) fun n => follows_ite (h.pure _) ?_
  refine h.bind h.get fun kv => ?_
  split
  · exact h.pure _
  · exact h.bind (h.follows_modifyManager fun _ hm => hm.sublist List.erase_sublist)
      fun _ => h.follows_setEvictNotifier i false

theorem follows_insertLeafEntry (i : NodeId) : Follows R (insertLeafEntry t i) := by
  refine h.bind (h.follows_getNode i) fun n => ?_
  exact h.bind (h.follows_modifyManager fun _ hm => pairwise_insertLeaf hm) fun _ =>
    h.follows_setEvictNotifier i true

theorem follows_updateLeaf (i : NodeId) : Follows R (updateLeaf t i) := by
  refine h.bind (h.follows_getNode i) fun n => follows_ite (h.pure _) ?_
  refine h.bind (h.follows_removeLeaf i) fun _ => h.bind h.get fun kv => ?_
  exact follows_ite (h.follows_insertLeafEntry i) (h.pure _)

theorem follows_updateLeaves (i : NodeId) : Follows R (updateLeaves t i) := by
  refine h.bind (h.follows_updateLeaf i) fun _ => ?_
  refine h.bind (h.follows_getNode i) fun n => ?_
  split
  · exact h.follows_updateLeaf _
  · exact h.pure _

theorem follows_attachResource (i : NodeId) (pages : List PageId) :
    Follows R (attachResource t i pages) := by
  refine h.bind (h.follows_getNode i) fun n => ?_
  exact h.bind (h.follows_setNode _ _) fun _ => h.follows_deallocatePages _

theorem follows_allocatePages (num : Int) : Follows R (allocatePages t num) :=
  fun kv => h.manager kv t _ fun hm => hm

theorem follows_lock (i : NodeId) : Follows R (lock t i) := by
  refine h.bind (h.follows_getLeafToRoot i) fun path => h.forM (fun j => ?_) path
  exact h.bind (h.follows_getResource j) fun r => h.follows_setResource _ _

theorem follows_unlock (i : NodeId) : Follows R (unlock t i) := by
  refine h.bind (h.follows_getLeafToRoot i) fun path => h.forM (fun j => ?_) path
  refine h.bind (h.follows_getNode j) fun n => ?_
  split
  · exact h.follows_throwUndefined _
  · refine follows_ite (h.bind (h.follows_setResource _ _) fun _ => ?_) (h.pure _)
    exact follows_ite (h.follows_updateLeaf j) (h.pure _)

theorem follows_readClock : Follows R readClock :=
  fun kv => h.readings kv _

theorem follows_allocateCacheOpId : Follows R allocateCacheOpId :=
  fun kv => h.nextOpId kv _

section Walk

theorem follows_splitResource (r : Option NodeResource) (k : Nat) :
    Follows R (splitResource r k) := by
  unfold splitResource
  split
  · exact h.pure _
  · exact h.bind (h.follows_takeFirst _ _) fun _ => h.pure _

theorem follows_splitChild (p c : NodeId) (k : Nat) : Follows R (splitChild p c k) := by
  refine h.bind h.get fun kv => h.bind (h.follows_getNode p) fun np => ?_
  refine h.bind (h.follows_getNode c) fun n => ?_
  refine h.bind (h.follows_splitResource _ _) fun _ => ?_
  refine h.bind (h.follows_splitResource _ _) fun _ => ?_
  refine follows_ite (h.bind (h.follows_throwException _) fun _ => ?_) ?_
  · exact h.bind (fun kv => h.tree kv _) fun _ => h.pure _
  · exact h.bind (fun kv => h.tree kv _) fun _ => h.pure _

theorem follows_walkInto (w : WalkResult) (c : NodeId) (now : Timestamp) :
    Follows R (walkInto w c now) := by
  refine h.bind h.get fun kv => h.bind (h.follows_getNode c) fun n => ?_
  refine follows_ite (h.pure _) (follows_ite (h.pure _) ?_)
  have hrest : ∀ next, Follows R (touch next now) := fun next =>
    h.bind (h.follows_getNode next) fun _ => h.follows_setNode _ _
  refine follows_ite (h.bind (h.pure _) fun next => ?_)
    (h.bind (h.follows_splitChild _ _ _) fun next => ?_)
  · exact h.bind (hrest next) fun _ => h.bind h.get fun _ => h.pure _
  · exact h.bind (hrest next) fun _ => h.bind h.get fun _ => h.pure _

theorem follows_walkLoop (now : Timestamp) (fuel : Nat) (w : WalkResult) :
    Follows R (walkLoop now fuel w) := by
  induction fuel generalizing w with
  | zero => exact h.pure _
  | succ fuel ih =>
    refine h.bind h.get fun kv => follows_ite (h.pure _) ?_
    split
    · exact h.pure _
    · refine h.bind (h.follows_walkInto w _ now) fun o => ?_
      cases o with
      | none => exact h.pure _
      | some w' => exact ih w'

theorem follows_matchTokens (tokens : List Token) (intent : MatchIntent) :
    Follows R (matchTokens tokens intent) := by
  refine h.bind h.get fun kv => follows_ite ?_ ?_
  · exact follows_ite (h.bind (h.follows_throwException _) fun _ => h.pure _) (h.pure _)
  · refine h.bind h.follows_readClock fun now => follows_ite ?_ ?_
    · refine h.bind (h.follows_throwException _) fun _ => ?_
      exact h.bind (h.follows_walkLoop now _ _) fun _ => h.pure _
    · exact h.bind (h.follows_walkLoop now _ _) fun _ => h.pure _

end Walk

section Evict

theorem follows_evictLeaf (leaf : NodeId) (e : Evicted) : Follows R (evictLeaf t leaf e) := by
  refine h.bind (h.follows_modifyManager fun _ hm => hm.sublist (List.tail_sublist _)) fun _ => ?_
  refine h.bind (h.follows_getResource leaf) fun r => follows_ite (h.pure _) ?_
  refine h.bind (h.follows_setResource _ _) fun _ => ?_
  refine h.bind (h.follows_getNode leaf) fun n => ?_
  split
  · refine h.bind (h.follows_updateLeaf _) fun _ => ?_
    exact h.bind (h.follows_deallocatePages _) fun _ => h.pure _
  · exact h.bind (h.follows_deallocatePages _) fun _ => h.pure _

theorem follows_evictLoop (num : Int) (fuel : Nat) (e : Evicted) :
    Follows R (evictLoop t num fuel e) := by
  induction fuel generalizing e with
  | zero => exact h.pure _
  | succ fuel ih =>
    refine follows_ite (h.pure _) (h.bind h.get fun kv => ?_)
    split
    · exact h.pure _
    · exact h.bind (h.follows_evictLeaf _ e) fun e' => ih e'

theorem follows_ensureCapacity (num : Int) : Follows R (ensureCapacity t num) := by
  refine follows_ite (h.pure _) (h.bind h.get fun kv => follows_ite (h.pure _) ?_)
  refine follows_ite (h.pure _) (h.bind h.get fun kv => ?_)
  refine h.bind (h.follows_evictLoop _ _ _) fun e => ?_
  exact h.bind (h.forM h.follows_insertLeafEntry _) fun _ => h.pure _

theorem follows_pruneLoop (fuel : Nat) (i : NodeId) : Follows R (pruneLoop fuel i) := by
  induction fuel generalizing i with
  | zero => exact h.pure _
  | succ fuel ih =>
    refine h.bind (h.follows_getNode i) fun n => ?_
    split
    · exact h.pure _
    · refine h.bind h.get fun kv => follows_ite (h.pure _) ?_
      exact h.bind (fun kv => h.tree kv _) fun _ => ih _

theorem follows_ensureCapacityByEvict (num : Int) :
    Follows R (ensureCapacityByEvict t num) := by
  refine h.bind (h.follows_ensureCapacity num) fun evicted => h.bind ?_ ?_
  · refine h.forM (fun i => h.bind (h.follows_getNode i) fun n => ?_) evicted
    refine follows_ite (h.pure _) (h.bind ?_ fun _ => h.follows_updateLeaves _)
    exact h.bind (h.follows_getNode i) fun _ => h.follows_pruneLoop _ _
  · exact fun _ => h.bind h.get fun _ => h.pure _

end Evict

section Insert

theorem follows_destroySubtree (i : NodeId) : Follows R (destroySubtree i) := by
  refine h.bind h.get fun kv => h.forM (fun j => ?_) _
  refine h.bind (h.follows_deallocatePages _) fun _ => ?_
  exact h.bind (h.follows_deallocatePages _) fun _ kv => h.tree kv _

theorem follows_addChild (p : NodeId) (tokens : List Token) (now : Timestamp) :
    Follows R (addChild p tokens now) := by
  refine h.bind (h.follows_getNode p) fun n => h.bind h.get fun kv => ?_
  refine h.bind (fun kv => h.tree kv _) fun _ => ?_
  split
  · exact h.bind (h.follows_destroySubtree _) fun _ => h.pure _
  · exact h.bind (h.pure _) fun _ => h.pure _

theorem follows_insertNode (start : Int) (i : NodeId) (s : Insertion) :
    Follows R (insertNode t start i s) := by
  refine h.bind (h.follows_getNode i) fun n => h.bind h.get fun kv => ?_
  apply follows_ite
  · refine follows_ite (h.bind (h.follows_takeFirst _ _) fun _ => h.pure _) (h.pure _)
  · apply follows_ite
    · exact follows_ite (h.bind (h.follows_takeLast _ _) fun _ => h.pure _) (h.pure _)
    · refine h.bind (h.follows_takeLast _ _) fun _ => ?_
      refine h.bind (h.follows_attachResource i _) fun _ => ?_
      exact h.bind (h.follows_updateLeaves i) fun _ => h.pure _

theorem follows_releaseInsertion (s : Insertion) : Follows R (releaseInsertion t s) :=
  h.bind (h.follows_deallocatePages _) fun _ => h.follows_deallocatePages _

theorem follows_insertLoop (start : Int) (path : List NodeId) (s : Insertion) :
    Follows R (insertLoop t start path s) := by
  induction path generalizing s with
  | nil => exact h.pure s
  | cons i is ih =>
    refine h.bind (h.unwinding (h.follows_insertNode start i s) (h.follows_releaseInsertion s)) ?_
    rintro ⟨_ | _,s'⟩
    · exact h.pure s'
    · exact ih s'

theorem follows_insert (tokens : List Token) (prefixPages pages : List PageId) (start : NodeId) :
    Follows R (insert t tokens prefixPages pages start) := by
  refine h.bind h.get fun kv => ?_
  -- The checks of the alignment and of an empty list both go on with the walk.
  have hwalk : Follows R (do
      let now ← readClock
      let w ← FluxServe.unwinding (walkDownUtilMismatch tokens now start)
        (deallocatePages t pages)
      let last ← if w.remainingTokens.isEmpty then Pure.pure w.terminal
        else addChild w.terminal w.remainingTokens now
      let path ← getLeafToRoot last
      let s ← insertLoop t prefixPages.length path
        { remainingPages := (tokens.length/kv.pageSize : Nat), allocatorPages := pages }
      releaseInsertion t s
      return (⟨last,s.insertedNumPages⟩ : InsertResult)) := by
    refine h.bind h.follows_readClock fun now => ?_
    refine h.bind (h.unwinding (h.follows_walkLoop _ _ _) (h.follows_deallocatePages _)) ?_
    intro w
    have hup (last : NodeId) : Follows R (do
        let path ← getLeafToRoot last
        let s ← insertLoop t prefixPages.length path
          { remainingPages := (tokens.length/kv.pageSize : Nat), allocatorPages := pages }
        releaseInsertion t s
        return (⟨last,s.insertedNumPages⟩ : InsertResult)) := by
      refine h.bind (h.follows_getLeafToRoot last) fun path => ?_
      refine h.bind (h.follows_insertLoop _ _ _) fun s => ?_
      exact h.bind (h.follows_releaseInsertion s) fun _ => h.pure _
    dsimp only
    exact follows_ite (h.bind (h.pure _) hup) (h.bind (h.follows_addChild _ _ _) hup)
  have hgive : Follows R (do
      deallocatePages t pages
      return (⟨0,0⟩ : InsertResult)) :=
    h.bind (h.follows_deallocatePages _) fun _ => h.pure _
  dsimp only
  apply follows_ite
  · refine h.bind (h.follows_deallocatePages _) fun _ => ?_
    refine h.bind (h.follows_throwException _) fun _ => ?_
    exact follows_ite hgive hwalk
  · exact follows_ite hgive hwalk

end Insert

section Transfer

theorem follows_attachAll (hrecord : t = .device → ∀ kv l, R kv { kv with loadedBack := l })
    (nodes : List NodeId) (pages : List PageId) : Follows R (attachAll t nodes pages) := by
  induction nodes generalizing pages with
  | nil => exact h.pure _
  | cons i is ih =>
    refine h.bind (h.follows_getResource i) fun r => ?_
    refine h.bind (h.follows_takeFirst _ _) fun p => ?_
    refine h.bind (h.follows_attachResource i _) fun _ => ?_
    have hkeep : Follows R (recordLoadBack t r.pages p.1) := by
      unfold recordLoadBack
      split
      · next ht => exact fun kv => hrecord ht kv _
      · exact h.pure _
    refine h.bind hkeep fun _ => ?_
    exact h.bind (h.follows_updateLeaves i) fun _ => ih _

theorem follows_allocateResourceOfType
    (hrecord : t = .device → ∀ kv l, R kv { kv with loadedBack := l }) (nodes : List NodeId) :
    Follows R (allocateResourceOfType t nodes) := by
  refine h.bind (h.follows_countPages nodes) fun total => ?_
  refine h.bind (h.follows_allocatePages _) fun pages => ?_
  apply follows_ite (h.pure _)
  refine h.bind (h.follows_attachAll hrecord nodes pages) fun rest => ?_
  exact h.bind (h.follows_deallocatePages _) fun _ => h.pure _

theorem follows_releaseOnHost (i : NodeId) : Follows R (releaseOnHost i) := by
  refine h.bind (h.follows_getNode i) fun n => ?_
  split
  · exact h.pure _
  · next r _ =>
    refine follows_ite (h.pure _) (h.bind h.get fun kv => follows_ite (h.pure _) ?_)
    refine h.bind (h.follows_removeLeaf i) fun _ => ?_
    refine h.bind (h.follows_setResource i none) fun _ => ?_
    have hgive : Follows R (do
        deallocatePages .device r.pages
        return true) := h.bind (h.follows_deallocatePages _) fun _ => h.pure _
    dsimp only
    split
    · exact h.bind (h.follows_updateLeaves _) fun _ => hgive
    · exact hgive

theorem follows_releaseLoop (path : List NodeId) : Follows R (releaseLoop path) := by
  induction path with
  | nil => exact h.pure _
  | cons i is ih =>
    refine h.bind (h.follows_releaseOnHost i) fun b => ?_
    exact follows_ite ih (h.pure _)

theorem follows_releaseDevice (last : NodeId) :
    Follows R (releaseDeviceResourcesPresentOnHost last) :=
  h.bind (h.follows_getLeafToRoot last) fun path => h.follows_releaseLoop path

end Transfer

end CacheRule

/-- A relation that every operation of the cache respects. -/
structure OperationRule (R : KVPrefixCache → KVPrefixCache → Prop) : Prop extends ReadRule R where
  follows_lock {t : ResourceType} (i : NodeId) : Follows R (lock t i)
  follows_unlock {t : ResourceType} (i : NodeId) : Follows R (unlock t i)
  follows_matchTokens (tokens : List Token) (intent : MatchIntent) :
    Follows R (matchTokens tokens intent)
  follows_insert {t : ResourceType} (tokens : List Token) (prefixPages pages : List PageId)
    (start : NodeId) : Follows R (insert t tokens prefixPages pages start)
  follows_ensureCapacityByEvict {t : ResourceType} (num : Int) :
    Follows R (ensureCapacityByEvict t num)
  follows_allocateHost (nodes : List NodeId) : Follows R (allocateResourceOfType .host nodes)
  follows_releaseDevice (last : NodeId) : Follows R (releaseDeviceResourcesPresentOnHost last)
  follows_allocatePages {t : ResourceType} (num : Int) : Follows R (allocatePages t num)
  follows_deallocatePages {t : ResourceType} (pages : List PageId) :
    Follows R (deallocatePages t pages)
  follows_allocateCacheOpId : Follows R allocateCacheOpId

theorem OperationRule.follows_unlock? {R : KVPrefixCache → KVPrefixCache → Prop}
    (h : OperationRule R) {t : ResourceType} (o : Option NodeId) : Follows R (unlock? t o) := by
  cases o with
  | none => exact h.pure _
  | some i => exact h.follows_unlock i

/-- What respects every write respects every operation. -/
theorem CacheRule.operationRule {R : KVPrefixCache → KVPrefixCache → Prop} (h : CacheRule R) :
    OperationRule R where
  toReadRule := h.toReadRule
  follows_lock := h.follows_lock
  follows_unlock := h.follows_unlock
  follows_matchTokens := h.follows_matchTokens
  follows_insert := h.follows_insert
  follows_ensureCapacityByEvict := h.follows_ensureCapacityByEvict
  follows_allocateHost := h.follows_allocateResourceOfType (by rintro ⟨⟩)
  follows_releaseDevice := h.follows_releaseDevice
  follows_allocatePages := h.follows_allocatePages
  follows_deallocatePages := h.follows_deallocatePages
  follows_allocateCacheOpId := h.follows_allocateCacheOpId

end FluxServe

