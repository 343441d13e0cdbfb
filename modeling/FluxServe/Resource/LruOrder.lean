import FluxServe.Resource.CacheRule
import FluxServe.Resource.Covers
import FluxServe.Resource.EvictionTurns
import FluxServe.Resource.Lineage
import FluxServe.Resource.Skeleton

namespace FluxServe

open KVPrefixCache

variable {kv kv₀ kv' kv'' : KVPrefixCache} {t u : ResourceType} {i j p : NodeId} {n : TreeNode}
  {refs : ResourceType → Multiset NodeId} {owned : ResourceType → Multiset PageId} {e e' : Evicted}
  {num : Int} {fuel : Nat} {ts : Timestamp} {rest : List (Timestamp × NodeId)}

/-- The time of a node's latest visit. -/
def accessTime (tree : Heap TreeNode) (i : NodeId) : Timestamp :=
  ((tree.read i).map TreeNode.lastAccessTime).getD 0

/-- The time that a node has, or would get, in `lru_leaves_`. -/
def storedTime (t : ResourceType) (kv : KVPrefixCache) (i : NodeId) : Timestamp :=
  ((kv.manager t).nodeTime.lookup i).getD (accessTime kv.tree i)

/-- The order of `lru_leaves_`, reflexive. -/
def NotAfter (a b : Timestamp × NodeId) : Prop := a.1 < b.1 ∨ a.1 = b.1 ∧ a.2 ≤ b.2

instance (a b : Timestamp × NodeId) : Decidable (NotAfter a b) :=
  inferInstanceAs (Decidable (_ ∨ _))

/-- A resident node without locks. -/
def Unlocked (t : ResourceType) (tree : Heap TreeNode) (i : NodeId) : Prop :=
  hasResource t tree i = true ∧ refCountOf t tree i = 0

instance (t : ResourceType) (tree : Heap TreeNode) (i : NodeId) : Decidable (Unlocked t tree i) :=
  inferInstanceAs (Decidable (_ ∧ _))

theorem mem_range_of_unlocked {tree : Heap TreeNode} (h : Unlocked t tree i) :
    i ∈ List.range tree.length := by
  obtain ⟨n,_,hn,_⟩ := exists_resource_of_hasResource h.1
  exact List.mem_range.mpr (Heap.lt_of_read hn)

/-- An unlocked node without resident children. -/
def Evictable (t : ResourceType) (tree : Heap TreeNode) (i : NodeId) : Prop :=
  Unlocked t tree i ∧
    ∀ j n, tree.read j = some n → n.parent = some i → hasResource t tree j = false

/-- The evictable node of the oldest visit. -/
def LeastRecentlyUsed (t : ResourceType) (tree : Heap TreeNode) (i : NodeId) : Prop :=
  Evictable t tree i ∧ ∀ j, Evictable t tree j →
    NotAfter (accessTime tree i,i) (accessTime tree j,j)

/-- Between unlocked nodes of different branches the stored times decide as the latest visits do. -/
def KeysAgree (t : ResourceType) (kv : KVPrefixCache) : Prop :=
  ∀ i j, Unlocked t kv.tree i → Unlocked t kv.tree j →
    i ∉ leafToRoot kv.tree j → j ∉ leafToRoot kv.tree i →
    NotAfter (storedTime t kv i,i) (storedTime t kv j,j) →
    NotAfter (accessTime kv.tree i,i) (accessTime kv.tree j,j)

instance (t : ResourceType) (kv : KVPrefixCache) : Decidable (KeysAgree t kv) :=
  decidable_of_iff (∀ i ∈ List.range kv.tree.length, ∀ j ∈ List.range kv.tree.length,
      Unlocked t kv.tree i → Unlocked t kv.tree j →
      i ∉ leafToRoot kv.tree j → j ∉ leafToRoot kv.tree i →
      NotAfter (storedTime t kv i,i) (storedTime t kv j,j) →
      NotAfter (accessTime kv.tree i,i) (accessTime kv.tree j,j)) (by
    constructor
    · intro h i j hi hj
      exact h i (mem_range_of_unlocked hi) j (mem_range_of_unlocked hj) hi hj
    · exact fun h i _ j _ => h i j)

theorem SameSkeleton.accessTime_eq (h : SameSkeleton kv kv') (i : NodeId) :
    accessTime kv'.tree i = accessTime kv.tree i := by
  have hnode := h.node i
  unfold accessTime
  cases hi : kv.tree.read i with
  | none => rw [h.read_none hi]
  | some n =>
    obtain ⟨n',hn',_,htime⟩ := h.read hi
    simp [hn',htime]

theorem SameSkeleton.parent_eq (h : SameSkeleton kv kv') (i : NodeId) :
    (kv'.tree.read i).bind TreeNode.parent = (kv.tree.read i).bind TreeNode.parent := by
  cases hi : kv.tree.read i with
  | none => rw [h.read_none hi]
  | some n =>
    obtain ⟨n',hn',hshape,_⟩ := h.read hi
    rw [hn']
    exact congrArg Prod.fst hshape

theorem mem_lruLeaves {except : List NodeId} (h : Leaves t kv except) :
    (ts,i) ∈ (kv.manager t).lruLeaves ↔ (kv.manager t).nodeTime.lookup i = some ts := by
  rw [h.entries.mem_iff,List.mem_map]
  constructor
  · rintro ⟨f,hf,hswap⟩
    cases hswap
    exact lookup_of_mem h.nodup hf
  · intro hl
    exact ⟨(i,ts),mem_of_lookup hl,rfl⟩

/-- A change in which only the parent of node `i` can get a new entry, under its latest visit. -/
structure Enters (t : ResourceType) (i : NodeId) (kv kv' : KVPrefixCache) : Prop where
  skeleton : SameSkeleton kv kv'
  entries : ∀ f ∈ (kv'.manager t).lruLeaves, f ∈ (kv.manager t).lruLeaves ∨
    (kv.tree.read i).bind TreeNode.parent = some f.2 ∧ f.1 = accessTime kv.tree f.2

namespace Enters

theorem refl (kv : KVPrefixCache) : Enters t i kv kv := ⟨SameSkeleton.refl kv,fun _ hf => .inl hf⟩

theorem trans (h : Enters t i kv kv') (h' : Enters t i kv' kv'') : Enters t i kv kv'' := by
  constructor
  · exact h.skeleton.trans h'.skeleton
  · intro f hf
    obtain hf | hf := h'.entries f hf
    · exact h.entries f hf
    · rw [h.skeleton.parent_eq,h.skeleton.accessTime_eq] at hf
      exact .inr hf

theorem of_subset (h : SameSkeleton kv kv')
    (hm : (kv'.manager t).lruLeaves ⊆ (kv.manager t).lruLeaves) : Enters t i kv kv' :=
  ⟨h,fun _ hf => .inl (hm hf)⟩

end Enters

section Entries

abbrev KeepsManager {α : Type} (t : ResourceType) (x : KV α) : Prop :=
  Keeps (fun kv : KVPrefixCache => kv.manager t) x

theorem keepsManager_getNode (i : NodeId) : KeepsManager t (getNode i) := by
  apply keeps_bind keeps_get
  intro kv
  split
  · exact keeps_pure _
  · exact keeps_throw _

theorem keepsManager_setNode (i : NodeId) (n : TreeNode) : KeepsManager t (setNode i n) := by
  apply keeps_modify
  intro kv
  cases t <;> rfl

theorem keepsManager_getResource (i : NodeId) : KeepsManager t (getResource u i) := by
  apply keeps_bind (keepsManager_getNode i)
  intro n
  split
  · exact keeps_pure _
  · exact keeps_throw _

theorem keepsManager_setResource (i : NodeId) (r : Option NodeResource) :
    KeepsManager t (setResource u i r) :=
  keeps_bind (keepsManager_getNode i) fun _ => keepsManager_setNode _ _

theorem keepsManager_setEvictNotifier (i : NodeId) (b : Bool) :
    KeepsManager t (setEvictNotifier u i b) := by
  apply keeps_bind (keepsManager_getNode i)
  intro n
  split
  · exact keepsManager_setNode _ _
  · exact keeps_pure _

theorem enters_of_keeps {α : Type} {x : KV α} (hs : Follows SameSkeleton x)
    (hm : KeepsManager t x) : Follows (Enters t i) x := by
  intro kv
  apply ((hs kv).keeps hm).imp
  · rintro _ kv' ⟨h,hkv⟩
    exact Enters.of_subset h (by rw [hkv]; exact List.Subset.refl _)
  · rintro _ kv' ⟨h,hkv⟩
    exact Enters.of_subset h (by rw [hkv]; exact List.Subset.refl _)

theorem enters_bind {α β : Type} {x : KV α} {g : α → KV β} (hx : Follows (Enters t i) x)
    (hg : ∀ a, Follows (Enters t i) (g a)) : Follows (Enters t i) (x >>= g) :=
  follows_bind (R := Enters t i) Enters.trans hx hg

theorem enters_modifyManager {f : ResourceManager → ResourceManager}
    (hf : ∀ m, (f m).lruLeaves ⊆ m.lruLeaves) : Follows (Enters t i) (modifyManager t f) := by
  intro kv
  have hs := skeleton_modifyManager (t := t) f kv
  unfold modifyManager at hs ⊢
  rw [runs_modify] at hs ⊢
  apply Enters.of_subset hs
  rw [manager_setManager]
  exact hf _

theorem enters_deallocatePages (pages : List PageId) :
    Follows (Enters t i) (deallocatePages t pages) :=
  enters_modifyManager fun _ => List.Subset.refl _

theorem enters_removeLeaf (p : NodeId) : Follows (Enters t i) (removeLeaf t p) := by
  apply follows_getNode Enters.refl
  intro kv n _
  split
  · exact Enters.refl kv
  · rw [runs_bind,runs_get]
    split
    · exact Enters.refl kv
    · exact enters_bind (enters_modifyManager fun _ => List.erase_subset)
        (fun _ => enters_of_keeps (skeleton_setEvictNotifier p false)
          (keepsManager_setEvictNotifier p false)) kv

/-- What a change does that may give the parent of node `i` a new entry. -/
def EntersParent (t : ResourceType) (i p : NodeId) (kv kv' : KVPrefixCache) : Prop :=
  (kv.tree.read i).bind TreeNode.parent = some p → Enters t i kv kv'

theorem EntersParent.trans (h : EntersParent t i p kv kv') (h' : EntersParent t i p kv' kv'') :
    EntersParent t i p kv kv'' := by
  intro hp
  have hfirst := h hp
  apply hfirst.trans
  apply h'
  rw [hfirst.skeleton.parent_eq]
  exact hp

theorem entersParent_of {α : Type} {x : KV α} (hx : Follows (Enters t i) x) :
    Follows (EntersParent t i p) x :=
  fun kv => (hx kv).imp (fun _ _ h _ => h) (fun _ _ h _ => h)

theorem enters_insertLeafEntry (p : NodeId) :
    Follows (EntersParent t i p) (insertLeafEntry t p) := by
  apply follows_getNode (fun kv _ => Enters.refl kv)
  intro kv n hn
  have hs := skeleton_modifyManager (t := t) (fun m => { m with
    lruLeaves := ResourceManager.insertLeaf (n.lastAccessTime,p) m.lruLeaves
    nodeTime := (p,n.lastAccessTime) :: dropKey p m.nodeTime }) kv
  have hnew : Runs (modifyManager t fun m => { m with
      lruLeaves := ResourceManager.insertLeaf (n.lastAccessTime,p) m.lruLeaves
      nodeTime := (p,n.lastAccessTime) :: dropKey p m.nodeTime }) kv
      (fun _ => EntersParent t i p kv) (fun _ => EntersParent t i p kv) := by
    unfold modifyManager at hs ⊢
    rw [runs_modify] at hs ⊢
    intro hp
    refine ⟨hs,fun f hf => ?_⟩
    rw [manager_setManager] at hf
    obtain rfl | hf := mem_insertLeaf.mp hf
    · exact .inr ⟨hp,by simp [accessTime,hn]⟩
    · exact .inl hf
  apply hnew.bind
  intro _ kv₁ h₁
  apply (entersParent_of (p := p) (enters_of_keeps (skeleton_setEvictNotifier p true)
    (keepsManager_setEvictNotifier p true)) kv₁).imp
  · exact fun _ _ h₂ => h₁.trans h₂
  · exact fun _ _ h₂ => h₁.trans h₂

theorem enters_updateLeaf (p : NodeId) : Follows (EntersParent t i p) (updateLeaf t p) := by
  apply follows_getNode (fun kv _ => Enters.refl kv)
  intro kv n _
  split
  · exact fun _ => Enters.refl kv
  · apply follows_bind (R := EntersParent t i p) EntersParent.trans
      (entersParent_of (enters_removeLeaf p))
    intro _ kv₁
    rw [runs_bind,runs_get]
    split
    · exact enters_insertLeafEntry p kv₁
    · exact fun _ => Enters.refl kv₁

/-- A turn of an eviction makes at most one new entry, that of the parent. -/
theorem enters_evictLeaf (e : Evicted) : Follows (Enters t i) (evictLeaf t i e) := by
  unfold evictLeaf
  apply enters_bind (enters_modifyManager fun _ => List.tail_subset _)
  intro _
  apply enters_bind (enters_of_keeps (skeleton_getResource i) (keepsManager_getResource i))
  intro r
  apply follows_ite (follows_pure Enters.refl _)
  have hgive (e' : Evicted) : Follows (Enters t i) (do
      deallocatePages t r.pages
      pure e') :=
    enters_bind (enters_deallocatePages _) fun _ => follows_pure Enters.refl _
  apply enters_bind (enters_of_keeps (skeleton_setResource i none) (keepsManager_setResource i none))
  intro _
  apply follows_getNode Enters.refl
  intro kv n hn
  split
  · next p hp =>
    have hparent : (kv.tree.read i).bind TreeNode.parent = some p := by
      rw [hn]
      exact hp
    dsimp only
    have hupdate : Runs (updateLeaf t p) kv (fun _ => Enters t i kv) (fun _ => Enters t i kv) := by
      apply (enters_updateLeaf (i := i) p kv).imp
      · exact fun _ _ h => h hparent
      · exact fun _ _ h => h hparent
    apply hupdate.bind
    intro _ kv₁ h₁
    apply (hgive _ kv₁).imp
    · exact fun _ _ h₂ => h₁.trans h₂
    · exact fun _ _ h₂ => h₁.trans h₂
  · exact hgive _ kv

end Entries

theorem leafOrdered_rule (t : ResourceType) :
    CacheRule fun kv kv' => LeafOrdered (kv.manager t) → LeafOrdered (kv'.manager t) where
  refl _ h := h
  trans first second h := second (first h)
  tree kv tree h := by cases t <;> exact h
  readings kv n h := by cases t <;> exact h
  nextOpId kv n h := by cases t <;> exact h
  manager kv u m ordered h := by
    by_cases hu : t = u
    · subst hu
      rw [manager_setManager]
      exact ordered h
    · rw [manager_setManager_ne kv m (Ne.symm hu)]
      exact h

/-- An eviction started in `kv₀`, the entries being under the times that they have there. -/
structure LruEvicting (t : ResourceType) (refs : ResourceType → Multiset NodeId)
    (owned : ResourceType → Multiset PageId) (kv₀ kv : KVPrefixCache) (e : Evicted) : Prop
    extends Evicting t refs owned kv₀ kv e where
  start : KVInv kv₀ refs owned
  skeleton : SameSkeleton kv₀ kv
  ordered : LeafOrdered (kv.manager t)
  keyed : ∀ f ∈ (kv.manager t).lruLeaves, f.1 = storedTime t kv₀ f.2

theorem storedTime_of_mem (hl : Leaves t kv []) (h : (ts,i) ∈ (kv.manager t).lruLeaves) :
    storedTime t kv i = ts := by
  unfold storedTime
  rw [(mem_lruLeaves hl).mp h]
  rfl

/-- The parent of a resident node has no entry. -/
theorem storedTime_parent (hinv : KVInv kv refs owned) (hi : hasResource t kv.tree i = true)
    (hp : (kv.tree.read i).bind TreeNode.parent = some p) :
    storedTime t kv p = accessTime kv.tree p := by
  obtain ⟨n,hn,hnp⟩ := Option.bind_eq_some_iff.mp hp
  have hnone : (kv.manager t).nodeTime.lookup p = none := by
    rw [Option.eq_none_iff_forall_ne_some]
    intro ts hts
    have hkey : p ∈ (kv.manager t).nodeTime.map Prod.fst :=
      List.mem_map.mpr ⟨_,mem_of_lookup hts,rfl⟩
    have hleaf := ((hinv.leaves t).leaf p List.not_mem_nil).mp hkey
    have hnot := not_hasResource_of_isLeaf hinv.inv.tree (hinv.inv.tier t) hleaf hn hnp
    rw [hi] at hnot
    cases hnot
  unfold storedTime
  rw [hnone]
  rfl

theorem LruEvicting.begin (hinv : KVInv kv refs owned) (hord : LeafOrdered (kv.manager t)) :
    LruEvicting t refs owned kv kv {} where
  toEvicting := evicting_start hinv
  start := hinv
  skeleton := SameSkeleton.refl kv
  ordered := hord
  keyed _ hf := (storedTime_of_mem (hinv.leaves t) hf).symm

theorem LruEvicting.step (h : LruEvicting t refs owned kv₀ kv e)
    (hlru : (kv.manager t).lruLeaves = (ts,i) :: rest) (hturn : evictLeaf t i e kv = .ok e' kv')
    (h' : Evicting t refs owned kv₀ kv' e') : LruEvicting t refs owned kv₀ kv' e' where
  toEvicting := h'
  start := h.start
  skeleton := by
    have hskeleton := Runs.of_ok (skeleton_evictLeaf (t := t) i e kv) hturn
    exact h.skeleton.trans hskeleton
  ordered := by
    have hordered := Runs.of_ok ((leafOrdered_rule t).follows_evictLeaf (t := t) i e kv) hturn
    exact hordered h.ordered
  keyed f hf := by
    obtain hold | ⟨hp,htime⟩ :=
      (Runs.of_ok (enters_evictLeaf (t := t) (i := i) e kv) hturn).entries f hf
    · exact h.keyed f hold
    · have hi := h.resident (isLeaf_iff.mp (h.oldest hlru).1).1
      rw [h.skeleton.parent_eq] at hp
      rw [storedTime_parent h.start hi hp,htime]
      exact h.skeleton.accessTime_eq _

/-- An evictable node is a leaf that the eviction has not set aside. -/
theorem Evicting.entry_of_evictable (h : Evicting t refs owned kv₀ kv e)
    (hj : Evictable t kv.tree j) : ∃ ts, (ts,j) ∈ (kv.manager t).lruLeaves := by
  obtain ⟨⟨hres,hfree⟩,hchild⟩ := hj
  obtain ⟨n,r,hn,_⟩ := exists_resource_of_hasResource hres
  obtain ⟨hroot,_⟩ := (h.inv.tier t).size hres
  obtain ⟨p,_,hp,_⟩ := h.inv.tree.node hn hroot
  have hnone : hasChildWithPages t kv.tree j = false := by
    unfold hasChildWithPages
    rw [List.any_eq_false]
    intro c hc
    obtain ⟨m,hm,hmp⟩ := mem_children.mp hc
    have hgone := hchild c m hm hmp
    rw [← Bool.not_eq_true] at hgone
    simp only [hasResource,hm,Option.bind_some,Bool.not_eq_true,Option.isSome_eq_false_iff,
      Option.isNone_iff_eq_none] at hgone
    simp [nodePages,hm,TreeNode.pages,hgone]
  have hleaf : isLeaf t kv.tree j = true :=
    isLeaf_iff.mpr ⟨hres,⟨n,p,hn,hp⟩,nodePages_ne_nil h.inv.tree (h.inv.tier t) hres,hnone⟩
  have haside : j ∉ e.deferredLocked := fun hd => (h.deferred j hd).2.1 hfree
  have hkey := (h.leaves.leaf j haside).mpr hleaf
  obtain ⟨f,hf,rfl⟩ := List.mem_map.mp hkey
  exact ⟨f.2,h.leaves.entries.mem_iff.mpr (List.mem_map.mpr ⟨f,hf,rfl⟩)⟩

/-- Nodes with resident nodes below them are not evictable. -/
theorem Evictable.notMem_leafToRoot (hT : TreeOK kv.pageSize kv.tree) (hc : Closed t kv.tree)
    (hi : Evictable t kv.tree i) (hj : hasResource t kv.tree j = true) (hne : i ≠ j) :
    i ∉ leafToRoot kv.tree j := by
  intro hmem
  obtain ⟨n,_,hn,_⟩ := exists_resource_of_hasResource hj
  obtain ⟨c,m,hcmem,hm,hmp⟩ := hT.child_on_path hn (.inr hmem) hne
  have hres := Closed.path hc hT hj hcmem
  rw [hi.2 c m hm hmp] at hres
  cases hres

theorem notAfter_of_head (hord : LeafOrdered (kv.manager t))
    (hlru : (kv.manager t).lruLeaves = (ts,i) :: rest) {f : Timestamp × NodeId}
    (hf : f ∈ (kv.manager t).lruLeaves) : NotAfter (ts,i) f := by
  unfold LeafOrdered at hord
  rw [hlru] at hord hf
  rw [List.mem_cons] at hf
  obtain rfl | hf := hf
  · exact .inr ⟨rfl,le_rfl⟩
  · have hbefore := leafBefore_iff.mp ((List.pairwise_cons.mp hord).1 f hf)
    exact hbefore.imp_right fun h => ⟨h.1,h.2.le⟩

/-- A turn that detaches a leaf takes the least recently used node. -/
theorem LruEvicting.takes (h : LruEvicting t refs owned kv₀ kv e) (hkeys : KeysAgree t kv₀)
    (hlru : (kv.manager t).lruLeaves = (ts,i) :: rest) (hfree : refCountOf t kv.tree i = 0) :
    LeastRecentlyUsed t kv.tree i := by
  have hleaf := (h.oldest hlru).1
  have hres := (isLeaf_iff.mp hleaf).1
  have hi : Evictable t kv.tree i := by
    apply And.intro ⟨hres,hfree⟩
    intro j n
    exact not_hasResource_of_isLeaf h.inv.tree (h.inv.tier t) hleaf
  apply And.intro hi
  intro j hj
  by_cases hne : i = j
  · subst hne
    exact .inr ⟨rfl,le_rfl⟩
  obtain ⟨tsj,hentry⟩ := h.entry_of_evictable hj
  have hhead := notAfter_of_head h.ordered hlru hentry
  have hkeyi := h.keyed (ts,i) (by rw [hlru]; exact List.mem_cons_self)
  have hkeyj := h.keyed (tsj,j) hentry
  dsimp only at hkeyi hkeyj
  rw [hkeyi,hkeyj] at hhead
  have hstart (x : NodeId) (hx : Unlocked t kv.tree x) : Unlocked t kv₀.tree x :=
    ⟨h.resident hx.1,by rw [← h.refCount_eq hx.1]; exact hx.2⟩
  have hpath (x : NodeId) (hx : Unlocked t kv.tree x) :
      leafToRoot kv.tree x = leafToRoot kv₀.tree x := by
    obtain ⟨n,_,hn,_⟩ := exists_resource_of_hasResource hx.1
    have hT := h.inv.tree
    rw [h.evolves.pageSize] at hT
    exact h.shrinks.leafToRoot_eq h.start.inv.tree hT hn
  rw [h.skeleton.accessTime_eq,h.skeleton.accessTime_eq]
  apply hkeys i j (hstart i hi.1) (hstart j hj.1) _ _ hhead
  · rw [← hpath j hj.1]
    exact hi.notMem_leafToRoot h.inv.tree (h.closed t) hj.1.1 hne
  · rw [← hpath i hi.1]
    exact hj.notMem_leafToRoot h.inv.tree (h.closed t) hres (Ne.symm hne)

/-- With agreeing keys every leaf that is detached is the least recently used node of its turn. -/
theorem LruEvicting.turns (h : LruEvicting t refs owned kv₀ kv e) (hkeys : KeysAgree t kv₀) :
    ∀ x ∈ detaching t (evictTurns t num fuel e kv), LeastRecentlyUsed t x.1.tree x.2 := by
  induction fuel generalizing kv e with
  | zero => simp [evictTurns,detaching]
  | succ fuel ih =>
    intro x hx
    obtain ⟨hx,hfree⟩ := List.mem_filter.mp hx
    unfold evictTurns at hx
    by_cases hnum : num ≤ e.numPages
    · simp [hnum] at hx
    rw [if_neg hnum] at hx
    cases hlru : (kv.manager t).lruLeaves with
    | nil => simp [hlru] at hx
    | cons f rest =>
      obtain ⟨ts,i⟩ := f
      obtain ⟨e₁,kv₁,hturn,h₁,_⟩ := (evictLeaf_returns h.toEvicting hlru).exists
      simp only [hlru,hturn,List.mem_cons] at hx
      obtain rfl | hx := hx
      · exact h.takes hkeys hlru (beq_iff_eq.mp hfree)
      · exact ih (h.step hlru hturn h₁) x (List.mem_filter.mpr ⟨hx,hfree⟩)

theorem ensureTurns_leastRecentlyUsed (hinv : KVInv kv refs owned)
    (hord : LeafOrdered (kv.manager t)) (hkeys : KeysAgree t kv) (num : Int) :
    ∀ x ∈ detaching t (ensureTurns t num kv), LeastRecentlyUsed t x.1.tree x.2 := by
  unfold ensureTurns
  split
  · simp [detaching]
  · exact (LruEvicting.begin hinv hord).turns hkeys

end FluxServe
