import FluxServe.Fsm.AcquireProof
import FluxServe.Resource.EnsureProof

namespace FluxServe

open KVPrefixCache

variable {kv kv' : KVPrefixCache} {ps : Nat} {l l' : LocalKVAllocator} {T : List Token}
  {m : MatchResult} {terminal i : NodeId} {t : ResourceType} {p : Option NodeId × NodeId}
  {refs refs' : ResourceType → Multiset NodeId} {owned : ResourceType → Multiset PageId}

/-- The references with more of both tiers. -/
def hold (a : ResourceType → List NodeId) (refs : ResourceType → Multiset NodeId) :
    ResourceType → Multiset NodeId := fun t => ↑(a t)+refs t

/-- The references an event has created so far. -/
def nodePair (p : Option NodeId × NodeId) : ResourceType → List NodeId
  | .device => [p.2]
  | .host => p.1.toList

theorem le_hold (a : ResourceType → List NodeId) (refs : ResourceType → Multiset NodeId)
    (t : ResourceType) : refs t ≤ hold a refs t := Multiset.le_add_left _ _

theorem mem_hold {a : ResourceType → List NodeId} (hi : i ∈ a t) : i ∈ hold a refs t :=
  Multiset.mem_add.mpr (Or.inl (by simpa using hi))

theorem lockDevice_returns (hinv : KVInv kv refs owned) (hm : Matched T kv.tree m terminal) :
    Returns (lockDevice m) kv (fun p kv' => p = (none,m.device) ∧
      KVInv kv' (hold (nodePair p) refs) owned ∧ Calm kv kv') := by
  unfold lockDevice
  obtain ⟨n,hn⟩ := (hm.stop .device).live
  refine (lock_returns hinv hn (hm.path hinv.inv.tree .device)).bind fun _ kv₁ ⟨hk,hc,_⟩ => ?_
  refine ⟨rfl,hk.congr (fun t => ?_) (fun _ => rfl),hc⟩
  cases t <;> simp [hold,nodePair,pin,MatchResult.last]

theorem unlockRefs_returns (hinv : KVInv kv (hold (nodePair p) refs) owned) :
    Returns (unlockRefs p) kv (fun _ kv' => KVInv kv' refs owned ∧ Calm kv kv') := by
  unfold unlockRefs
  have hpin : KVInv kv (pin .device p.2 (hold (fun t => if t = .host then p.1.toList else []) refs))
      owned := by
    refine hinv.congr (fun t => ?_) (fun _ => rfl)
    cases t <;> simp [hold,nodePair,pin]
  refine (unlock_returns hpin).bind fun _ kv₁ ⟨hk,hc⟩ => ?_
  have hhost : ∀ u, hold (fun t => if t = .host then p.1.toList else []) refs u =
      if u = .host then p.1.toList+refs u else refs u := by
    intro u
    cases u <;> simp [hold]
  refine (unlock?_returns hk hhost).runs fun _ kv₂ ⟨hk',hc'⟩ => ?_
  exact ⟨hk',hc.trans hc'⟩

/-- What a load-back of a match has done: the missing nodes of the host side are resident. -/
structure LoadedFor (refs : ResourceType → Multiset NodeId) (owned : ResourceType → Multiset PageId)
    (m : MatchResult) (kv kv' : KVPrefixCache) : Prop where
  kvInv : KVInv kv' (hold (nodePair (some m.host,m.host)) refs) owned
  change : Change refs [] kv kv'
  ages : Ages kv kv'
  shape : Agree .host kv.tree kv'.tree
  available : kv.availablePages .device =
    kv'.availablePages .device+pagesOf .host kv.tree (missing .device kv.tree m)
  loadedBack : kv'.loadedBack.Perm
    (pairsOf .host kv'.tree (missing .device kv.tree m) ++ kv.loadedBack)

theorem pagesOf_congr {tree tree' : Heap TreeNode} (h : Agree t tree tree') (nodes : List NodeId) :
    pagesOf t tree' nodes = pagesOf t tree nodes := by
  unfold pagesOf
  simp only [h.nodePages_eq]

theorem KVPrefixCache.Calm.availablePages_eq (h : Calm kv kv') (t : ResourceType) :
    kv'.availablePages t = kv.availablePages t := by
  unfold availablePages
  rw [h.allocator]

/-- `Lock` of a path whose first node is not resident. -/
theorem lock_missing (hT : TreeOK ps kv.tree) (h : ∃ j path, leafToRoot kv.tree i = j :: path ∧
    hasResource t kv.tree j = false) :
    Runs (lock t i) kv (fun _ _ => False) (fun e _ => e = .undefined .nullResource) := by
  obtain ⟨j,path,hpath,hno⟩ := h
  cases hi : kv.tree.read i with
  | none => rw [leafToRoot_of_read_none hi] at hpath; cases hpath
  | some n =>
    unfold lock
    refine getLeafToRoot_bind hi ?_
    obtain ⟨nj,_,hj,_⟩ := hT.mem_leafToRoot (hpath ▸ List.mem_cons_self : j ∈ leafToRoot kv.tree i)
    have hnone : nj.resource t = none := by simpa [hasResource,hj] using hno
    rw [hpath]
    refine (runs_bind _).mpr ((runs_bind _).mpr ?_)
    simp only [getResource,getNode,throwUndefined,runs_bind,runs_get,hj,runs_pure,hnone,runs_throw]

/-- Too few device pages leave the missing nodes without; a lock that follows finds no resource. -/
theorem lockLoadedBack_runs (hinv : KVInv kv refs owned) (hm : Matched T kv.tree m terminal)
    (checked : Bool) :
    Runs (lockLoadedBack m checked) kv
      (fun p kv' => p = (some m.host,m.host) ∧ LoadedFor refs owned m kv kv')
      (fun e kv' => kv.availablePages .device < pagesOf .host kv.tree (missing .device kv.tree m) ∧
        (e = .undefined .nullResource ∨ e = .exception .recoverAllocation ∧ checked = true ∧
          KVInv kv' refs owned ∧ Change refs [] kv kv')) := by
  have hT := hinv.inv.tree
  unfold lockLoadedBack
  obtain ⟨n,hn⟩ := (hm.stop .host).live
  refine ((lock_returns hinv hn (hm.path hT .host)).keeps (keepsRecord_lock _)).bind ?_
  rintro _ kv₁ ⟨⟨hk₁,hc₁,_⟩,hl₁⟩
  have hm₁ := hm.congr hc₁.agree
  have hmiss : missing .device kv₁.tree m = missing .device kv.tree m := missing_congr hc₁.agree _ _
  have hpages : pagesOf .host kv₁.tree (missing .device kv.tree m) =
      pagesOf .host kv.tree (missing .device kv.tree m) := pagesOf_congr (hc₁.agree _) _
  have hb := between_of_matched hm₁ hk₁.inv.tree .device
  refine nodesWithout_runs hm₁ ?_
  rw [hmiss] at hb ⊢
  refine (allocateResourceOfType_returns hk₁ hm₁ hb).bind fun ok kv₂ h => ?_
  simp only [ResourceType.other,hpages,hc₁.availablePages_eq .device] at h
  rcases h with ⟨rfl,_,hcop⟩ | ⟨rfl,hfew,hk₂,he₂,hs₂,_⟩
  · simp only [not_true_eq_false,and_false,if_false]
    obtain ⟨n₂,hn₂,_⟩ := hcop.attached.shape.read (((hc₁.agree .host).read hn).choose_spec.1)
    refine ((lock_returns hcop.kvInv hn₂ hcop.resident).keeps (keepsRecord_lock _)).bind ?_
    rintro _ kv₃ ⟨⟨hk₃,hc₃,_⟩,hl₃⟩
    refine ⟨rfl,hk₃.congr (fun t => ?_) (fun _ => rfl),?_,?_,?_,?_,?_⟩
    · cases t <;> simp [hold,nodePair,pin,MatchResult.last]
    · have h12 : Change refs [] kv₁ kv₂ :=
        ⟨hcop.evolves.mono (le_pin _ _ _),hcop.lineage_device _⟩
      exact ((Change.of_calm hc₁ refs).trans h12).calm_right hc₃
    · exact ((Ages.of_calm hc₁).trans (Ages.of_copied hcop hb hm₁ hk₁.inv.tree)).trans
        (Ages.of_calm hc₃)
    · exact ((hc₁.agree .host).trans hcop.attached.shape).trans (hc₃.agree .host)
    · rw [hc₃.availablePages_eq,← hpages,← hc₁.availablePages_eq .device]
      exact hcop.available
    · rw [hl₃,← hl₁]
      have hpairs : pairsOf .host kv₃.tree (missing .device kv.tree m) =
          pairsOf .host kv₂.tree (missing .device kv.tree m) := by
        unfold pairsOf
        simp only [(hc₃.agree _).nodePages_eq]
      rw [hpairs]
      simpa using hcop.loadedBack
  · have hstep : Change (pin .host m.host refs) [] kv₁ kv₂ := Change.of_allocStep he₂ hs₂
    cases checked with
    | true =>
      rw [if_pos ⟨rfl,by decide⟩]
      refine (unlock_returns hk₂).bind ?_
      rintro _ kv₃ ⟨hk₃,hc₃⟩
      refine ⟨hfew,Or.inr ⟨rfl,rfl,hk₃,?_⟩⟩
      exact ((Change.of_calm hc₁ refs).trans (hstep.mono (le_pin _ _ _))).calm_right hc₃
    | false =>
      simp only [Bool.false_eq_true,false_and,if_false]
      rw [runs_bind]
      refine (lock_missing hk₂.inv.tree ?_).imp (fun _ _ hf => hf.elim) fun e _ he => ⟨hfew,Or.inl he⟩
      -- The missing nodes come first on the way up, and there is one.
      rw [hs₂.tree]
      have hne : missing .device kv.tree m ≠ [] := fun hnil => by
        rw [hnil] at hfew
        simp [pagesOf] at hfew
      obtain ⟨j,rest,hj⟩ := List.exists_cons_of_ne_nil hne
      have hj' := hj
      rw [← hmiss] at hj'
      unfold missing at hj'
      cases hl : leafToRoot kv₁.tree m.host with
      | nil => simp [MatchResult.last,ResourceType.other,hl] at hj'
      | cons k path =>
        refine ⟨k,path,rfl,?_⟩
        simp only [MatchResult.last,ResourceType.other,hl,List.takeWhile_cons] at hj'
        split at hj'
        · next hno => simpa using hno
        · cases hj'

/-- An event has locked its match; `nodes` are those it loaded back for it. -/
structure LockedFor (refs : ResourceType → Multiset NodeId) (owned : ResourceType → Multiset PageId)
    (T : List Token) (m : MatchResult) (nodes : List NodeId) (p : Option NodeId × NodeId)
    (kv kv' : KVPrefixCache) : Prop where
  kvInv : KVInv kv' (hold (nodePair p) refs) owned
  change : Change refs [] kv kv'
  ages : Ages kv kv'
  shape : Agree .host kv.tree kv'.tree
  tokens : pathTokens kv'.tree p.2 <+: T
  available : kv.availablePages .device = kv'.availablePages .device+pagesOf .host kv.tree nodes
  loadedBack : kv'.loadedBack.Perm (pairsOf .host kv'.tree nodes ++ kv.loadedBack)
  path : nodes ⊆ leafToRoot kv'.tree p.2
  missing : ∀ j ∈ nodes, hasResource .device kv.tree j = false

theorem LoadedFor.lockedFor (h : LoadedFor refs owned m kv kv') (hm : Matched T kv.tree m terminal)
    (hT : TreeOK kv.pageSize kv.tree) :
    LockedFor refs owned T m (missing .device kv.tree m) (some m.host,m.host) kv kv' := by
  have hb := between_of_matched hm hT .device
  refine ⟨h.kvInv,h.change,h.ages,h.shape,?_,h.available,h.loadedBack,?_,hb.missing⟩
  · rw [h.shape.pathTokens_eq]
    exact hm.last_tokens hT .host
  · rw [h.shape.leafToRoot_eq]
    exact hb.path

theorem lockDevice_locked (hinv : KVInv kv refs owned) (hm : Matched T kv.tree m terminal) :
    Returns (lockDevice m) kv (fun p kv' => p = (none,m.device) ∧
      LockedFor refs owned T m [] p kv kv') := by
  have hrec : KeepsRecord (lockDevice m) := keeps_bind (keepsRecord_lock _) fun _ => keeps_pure _
  refine ((lockDevice_returns hinv hm).keeps hrec).runs fun p kv₁ ⟨⟨hp,hk,hc⟩,hl⟩ => ⟨hp,?_⟩
  subst hp
  refine ⟨hk,Change.of_calm hc refs,Ages.of_calm hc,hc.agree .host,?_,?_,?_,by simp,by simp⟩
  · rw [(hc.agree .host).pathTokens_eq]
    exact hm.last_tokens hinv.inv.tree .device
  · rw [hc.availablePages_eq]
    rfl
  · rw [hl]
    exact List.Perm.refl _

theorem AllocStep.trans {kv'' : KVPrefixCache} (h : AllocStep t kv kv') (h' : AllocStep t kv' kv'') :
    AllocStep t kv kv'' :=
  ⟨fun u hu => (h'.other u hu).trans (h.other u hu),h'.tree.trans h.tree,
    fun u => (h'.lruLeaves u).trans (h.lruLeaves u),fun u => (h'.nodeTime u).trans (h.nodeTime u)⟩

theorem keepsRecord_newLocalKVAllocator (p : Option NodeId × NodeId) (tokens decode : Int) :
    KeepsRecord (newLocalKVAllocator p tokens decode) := by
  have hunlock : KeepsRecord (unlockRefs p) :=
    keeps_bind (keepsRecord_unlock _) fun _ => keepsRecord_unlock? _
  refine keeps_bind (keeps_unwinding (keepsRecord_acquire _ _) hunlock) fun l => ?_
  refine keeps_unwinding (keepsRecord_acquire l _) ?_
  exact keeps_bind (keepsRecord_deallocatePages _) fun _ => hunlock

/-- A new local allocator, or an exception that has undone the references as well. -/
theorem newLocalKVAllocator_runs (hinv : KVInv kv (hold (nodePair p) refs) owned)
    (tokens decode : Int) :
    Runs (newLocalKVAllocator p tokens decode) kv
      (fun l kv' => KVInv kv' (hold (nodePair p) refs) (own .device l.pages owned) ∧
        Change (hold (nodePair p) refs) [] kv kv' ∧ AllocStep .device kv kv' ∧
        ∃ l₁ new₁ new₂, Acquired {} tokens kv.pageSize new₁ l₁ ∧
          Acquired l₁ decode kv.pageSize new₂ l ∧
          kv.availablePages .device = kv'.availablePages .device+l.pages.length)
      (fun e kv' => (∃ x, e = .exception x) ∧ KVInv kv' refs owned ∧ Change refs [] kv kv' ∧
        (0 ≤ tokens → 0 ≤ decode →
          (kv.availablePages .device : Int) < pagesFor (tokens+decode) kv.pageSize)) := by
  have hps := hinv.inv.tree.pageSize_pos
  unfold newLocalKVAllocator
  rw [runs_bind,runs_unwinding]
  refine (acquire_runs (l := {}) (by simpa using hinv) tokens).imp ?_ ?_
  · rintro l₁ kv₁ ⟨hk₁,hch₁,hs₁,new₁,ha₁,hav₁⟩
    rw [runs_unwinding]
    refine (acquire_runs hk₁ decode).imp ?_ ?_
    · rintro l kv₂ ⟨hk₂,hch₂,hs₂,new₂,ha₂,hav₂⟩
      rw [hch₁.evolves.pageSize] at ha₂
      refine ⟨hk₂,hch₁.trans hch₂,hs₁.trans hs₂,l₁,new₁,new₂,ha₁,ha₂,?_⟩
      rw [ha₂.pages,ha₁.pages]
      simp only [List.nil_append,List.length_append]
      omega
    · rintro e kv₂ ⟨⟨k,c,rfl⟩,hk₂,hch₂,hs₂,hless⟩
      refine (deallocatePages_returns hk₂.inv).bind fun _ kv₃ ⟨hi₃,he₃,hs₃,_⟩ => ?_
      refine (unlockRefs_returns (hs₃.kvInv hk₂ hi₃)).runs fun _ kv₄ ⟨hk₄,hc₄⟩ => ?_
      refine ⟨⟨_,rfl⟩,hk₄,?_,fun h0 h0' => ?_⟩
      · exact (((hch₁.trans hch₂).allocStep_right he₃ hs₃).mono (le_hold _ _)).calm_right hc₄
      · have hsum := acquireNeeds_add hps h0 h0' ha₁
        rw [hch₁.evolves.pageSize] at hless
        omega
  · rintro e kv₁ ⟨⟨k,c,rfl⟩,hk₁,hch₁,_,hless⟩
    have hk : KVInv kv₁ (hold (nodePair p) refs) owned := by simpa using hk₁
    refine (unlockRefs_returns hk).runs fun _ kv₂ ⟨hk₂,hc₂⟩ => ?_
    refine ⟨⟨_,rfl⟩,hk₂,(hch₁.mono (le_hold _ _)).calm_right hc₂,fun h0 h0' => ?_⟩
    unfold acquireNeeds at hless
    simp only [sub_zero] at hless
    split at hless
    · omega
    · have hle : pagesFor tokens kv.pageSize ≤ pagesFor (tokens+decode) kv.pageSize :=
        pagesFor_mono (by omega) (by omega) hps
      omega

end FluxServe
