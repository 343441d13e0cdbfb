import FluxServe.Scheduler.OnCache

namespace FluxServe

open KVPrefixCache

variable {s s' : Scheduler} {r : Request} {ev : FirstChunkEvent} {remaining : Int}
  {kv kv' : KVPrefixCache} {m : MatchResult}

theorem length_fullPagedTokens (r : Request) (ps : Nat) (b : Bool) :
    (r.fullPagedTokens ps b).length = (if b then r.tokens.length-1 else r.tokens.length)/ps*ps := by
  unfold Request.fullPagedTokens
  dsimp only
  rw [List.length_take,Nat.min_eq_left]
  refine (Nat.div_mul_le_self _ _).trans ?_
  split <;> omega

theorem dvd_fullPagedTokens (r : Request) (ps : Nat) (b : Bool) :
    ps ∣ (r.fullPagedTokens ps b).length := by
  rw [length_fullPagedTokens]
  exact Nat.dvd_mul_left _ _

/-- The pages of a prompt a match saves. -/
def matchedPages (c : SchedulerConfig) (tree : Heap TreeNode) (m : MatchResult) : Nat :=
  if c.disableL2Cache then nodeDepth tree m.device/c.pageSize
  else max (nodeDepth tree m.device/c.pageSize) (nodeDepth tree m.host/c.pageSize)

/-- The tokens of the first chunk. -/
def firstChunkTokens (c : SchedulerConfig) (r : Request) (remaining : Int) (tree : Heap TreeNode)
    (m : MatchResult) : Int :=
  min remaining (r.prefillSize-matchedPages c tree m*c.pageSize)

/-- The device pages ensured for a first chunk: what is loaded back, the chunk, one decode block. -/
def firstChunkNeeds (c : SchedulerConfig) (r : Request) (remaining : Int) (tree : Heap TreeNode)
    (m : MatchResult) : Int :=
  let deviceMatched := nodeDepth tree m.device/c.pageSize
  let hostMatched := nodeDepth tree m.host/c.pageSize
  let loadbackTokens : Int :=
    if ¬c.disableL2Cache ∧ deviceMatched < hostMatched then c.pageSize*(hostMatched-deviceMatched)
    else 0
  pagesFor (loadbackTokens+firstChunkTokens c r remaining tree m+c.decodeInputTokens) c.pageSize

theorem firstChunk_congr (r : Request) (remaining : Int) {tree tree' : Heap TreeNode}
    (h : ∀ t, nodeDepth tree' (m.last t) = nodeDepth tree (m.last t)) (c : SchedulerConfig) :
    matchedPages c tree' m = matchedPages c tree m ∧
      firstChunkTokens c r remaining tree' m = firstChunkTokens c r remaining tree m ∧
      firstChunkNeeds c r remaining tree' m = firstChunkNeeds c r remaining tree m := by
  have hd : nodeDepth tree' m.device = nodeDepth tree m.device := h .device
  have hh : nodeDepth tree' m.host = nodeDepth tree m.host := h .host
  unfold firstChunkNeeds firstChunkTokens matchedPages
  rw [hd,hh]
  exact ⟨rfl,rfl,rfl⟩

/-- A first chunk the scheduler has made room for. -/
structure FirstOffer (s : Scheduler) (r : Request) (remaining : Int) (ev : FirstChunkEvent) :
    Prop where
  matched : ∃ x, Matched (r.fullPagedTokens s.config.pageSize true) s.kv.tree ev.matchResult x
  tokens : ev.tokensThisRound = firstChunkTokens s.config r remaining s.kv.tree ev.matchResult
  diff : ev.loadbackDiff =
    if s.config.disableL2Cache then [] else missing .device s.kv.tree ev.matchResult
  slots : s.freeSlots ≠ []
  pages : firstChunkNeeds s.config r remaining s.kv.tree ev.matchResult ≤
    s.kv.availablePages .device

/-- The match of a prompt and the room it finds while its device side is locked. -/
structure Weighed (s : Scheduler) (T : List Token) (intent : MatchIntent) (m : MatchResult)
    (kv₁ kvl : KVPrefixCache) : Prop where
  kvInv : KVInv kv₁ (refsOf s.requests) (ownedOf s.requests)
  change : Change (refsOf s.requests) [] s.kv kv₁
  ages : Ages s.kv kv₁
  matched : ∃ x, Matched T kv₁.tree m x
  deepest : (s.kv.disablePrefixCache = true ∧ intent = .prefixReuse) ∧ m = ⟨0,0⟩ ∨
    ¬(s.kv.disablePrefixCache = true ∧ intent = .prefixReuse) ∧ Deepest T kv₁ m
  covers : ∀ t P, Covers t kv₁.tree P ↔ Covers t s.kv.tree P
  locked : KVInv kvl (pin .device m.device (refsOf s.requests)) (ownedOf s.requests)
  calm : Calm kv₁ kvl

theorem schedulePrefillFirstChunk_returns (h : Sound s) (r : Request) (remaining : Int) :
    Returns (schedulePrefillFirstChunk r remaining) s (fun o s' => CacheMove s s' ∧
      Ages s.kv s'.kv ∧ s'.freeSlots = s.freeSlots ∧
      (∀ ev, o = some ev → FirstOffer s' r remaining ev) ∧
      (s.freeSlots = [] → o = none) ∧
      (s.freeSlots ≠ [] → ∃ m kv₁ kvl,
        Weighed s (r.fullPagedTokens s.config.pageSize true) .prefixReuse m kv₁ kvl ∧
        (o.isSome ↔ firstChunkNeeds s.config r remaining kv₁.tree m ≤ kvl.capacity .device) ∧
        ∀ ev, o = some ev → ev.matchResult = m ∧
          ∀ t, nodeDepth s'.kv.tree (m.last t) = nodeDepth kv₁.tree (m.last t))) := by
  unfold Returns schedulePrefillFirstChunk
  rw [runs_bind,runs_get]
  by_cases hslots : s.freeSlots = []
  · rw [if_pos (by simp [hslots])]
    exact ⟨CacheMove.refl h,Ages.refl _,rfl,by simp,fun _ => rfl,fun hne => absurd hslots hne⟩
  rw [if_neg (by simpa using hslots),runs_onKV]
  have hps : s.kv.pageSize = s.config.pageSize := h.pageSize
  refine (matchTokens_deepest h.kv (hps ▸ dvd_fullPagedTokens _ _ _) .prefixReuse).bind
    fun m kv₁ ⟨hk₁,hch₁,hag₁,_,⟨x,hm⟩,hdeep,hcov⟩ => ?_
  have hps₁ : kv₁.pageSize = s.config.pageSize := hch₁.evolves.pageSize.trans hps
  obtain ⟨nd,hnd⟩ := (hm.stop .device).live
  obtain ⟨nh,hnh⟩ := (hm.stop .host).live
  refine depthInPage_bind hnd (depthInPage_bind hnh ?_)
  rw [hps₁]
  -- The load-back list is the missing nodes, unless the host tier is off.
  have hrest : Runs (do
      lock .device m.device
      let ensured ← ensureCapacityByEvict .device (firstChunkNeeds s.config r remaining kv₁.tree m)
      unlock .device m.device
      if ensured then
        return some (⟨firstChunkTokens s.config r remaining kv₁.tree m,m,
          if s.config.disableL2Cache then [] else missing .device kv₁.tree m⟩ : FirstChunkEvent)
      return none) kv₁
      (fun o kv' => CacheMove s (s.setKV kv') ∧ Ages s.kv kv' ∧ (s.setKV kv').freeSlots = s.freeSlots ∧
        (∀ ev, o = some ev → FirstOffer (s.setKV kv') r remaining ev) ∧
        (s.freeSlots = [] → o = none) ∧
        (s.freeSlots ≠ [] → ∃ m kv₁ kvl,
          Weighed s (r.fullPagedTokens s.config.pageSize true) .prefixReuse m kv₁ kvl ∧
          (o.isSome ↔ firstChunkNeeds s.config r remaining kv₁.tree m ≤ kvl.capacity .device) ∧
          ∀ ev, o = some ev → ev.matchResult = m ∧
            ∀ t, nodeDepth kv'.tree (m.last t) = nodeDepth kv₁.tree (m.last t)))
      (fun _ _ => False) := by
    refine lockedEnsure_runs (t := .device) hk₁ hm _ fun ensured kv₂ kvl h₂ hkl hcl hcap => ?_
    have hmove : CacheMove s (s.setKV kv₂) := CacheMove.of_change h h₂.kvInv (hch₁.trans h₂.change)
    have hages := hag₁.trans (h₂.ages rfl)
    have hw : Weighed s (r.fullPagedTokens s.config.pageSize true) .prefixReuse m kv₁ kvl :=
      ⟨hk₁,hch₁,hag₁,⟨x,hm⟩,hdeep,hcov,hkl,hcl⟩
    obtain ⟨hmp,hct,hcn⟩ := firstChunk_congr r remaining h₂.depth s.config
    cases ensured with
    | false =>
      refine ⟨hmove,hages,rfl,by simp,fun _ => rfl,fun _ => ⟨m,kv₁,kvl,hw,?_,by simp⟩⟩
      simpa using hcap
    | true =>
      refine ⟨hmove,hages,rfl,?_,fun he => absurd he hslots,fun _ => ⟨m,kv₁,kvl,hw,?_,?_⟩⟩
      · rintro ev ⟨⟩
        refine ⟨h₂.matched,hct.symm,?_,hslots,?_⟩
        · simp only [setKV_config,setKV_kv,h₂.missing]
        · simp only [setKV_config,setKV_kv]
          rw [hcn]
          exact h₂.available.mp rfl
      · simpa using hcap
      · rintro ev ⟨⟩
        exact ⟨rfl,h₂.depth⟩
  by_cases hl2 : s.config.disableL2Cache = true
  · rw [if_pos hl2]
    simpa only [firstChunkNeeds,firstChunkTokens,matchedPages,hl2,if_true,not_true_eq_false,
      false_and,if_false,pure_bind,setKV_kv] using hrest
  · rw [if_neg hl2]
    refine nodesWithout_runs hm ?_
    simpa only [firstChunkNeeds,firstChunkTokens,matchedPages,hl2,if_false,not_false_eq_true,
      true_and,setKV_kv,Bool.false_eq_true] using hrest

theorem mem_transferPairs {a b : List PageId} {p : TransferPair}
    (h : p ∈ List.zipWith TransferPair.mk a b) : p.src ∈ a ∧ p.dst ∈ b := by
  induction a generalizing b with
  | nil => simp at h
  | cons x a ih =>
    cases b with
    | nil => simp at h
    | cons y b =>
      rw [List.zipWith_cons_cons,List.mem_cons] at h
      rcases h with rfl | h
      · exact ⟨List.mem_cons_self,List.mem_cons_self⟩
      · exact ⟨List.mem_cons_of_mem x (ih h).1,List.mem_cons_of_mem y (ih h).2⟩

/-- The load-back pairs come from nodes that were not on the device. -/
theorem LockedFor.loadsFrom {refs : ResourceType → Multiset NodeId}
    {owned : ResourceType → Multiset PageId} {T : List Token} {nodes : List NodeId}
    {p : Option NodeId × NodeId} (h : LockedFor refs owned T m nodes p kv kv') :
    LoadsFrom kv (pairsOf .host kv'.tree nodes) := by
  intro pr hpr
  obtain ⟨j,hj,hpr⟩ := List.mem_flatMap.mp hpr
  refine ⟨j,?_,h.missing j hj⟩
  rw [← h.shape.nodePages_eq]
  exact (mem_transferPairs hpr).1

/-- The state a first chunk leads to. -/
def firstChunkState (c : SchedulerConfig) (r : Request) (f : ForwardState) (w : Window) :
    RequestState :=
  if w.start+w.size = r.prefillSize then .prefillDone f w c.decodeInputTokens else .prefilling f w

/-- What a first chunk has done. -/
structure FirstChunk (s : Scheduler) (r : Request) (ev : FirstChunkEvent) (f : ForwardState)
    (w : Window) (s' : Scheduler) : Prop where
  move : Move r (firstChunkState s.config r f w) [] s s'
  ages : Ages s.kv s'.kv
  window : w = ⟨matchedPages s.config s.kv.tree ev.matchResult*s.config.pageSize,ev.tokensThisRound⟩
  localAllocator : ∃ l l₁ new₁ new₂, f.localKVAllocator = some l ∧
    Acquired {} ev.tokensThisRound s.config.pageSize new₁ l₁ ∧
    Acquired l₁ s.config.decodeInputTokens s.config.pageSize new₂ l ∧
    s.kv.availablePages .device =
      s'.kv.availablePages .device+pagesOf .host s.kv.tree ev.loadbackDiff+l.pages.length
  loads : LoadsFrom s.kv (pairsOf .host s'.kv.tree ev.loadbackDiff)
  loadedBack : s'.kv.loadedBack.Perm (pairsOf .host s'.kv.tree ev.loadbackDiff ++ s.kv.loadedBack)
  path : ev.loadbackDiff ⊆ leafToRoot s'.kv.tree f.deviceNodeRef
  shape : Agree .host s.kv.tree s'.kv.tree
  deeper : s.config.disableL2Cache = false ∧ f.deviceNodeRef = ev.matchResult.deeper s.kv.tree ∨
    s.config.disableL2Cache = true ∧ f.deviceNodeRef = ev.matchResult.device

/-- A request without references leaves all of them to the others. -/
theorem Sound.others_eq (h : Sound s) (hr : r ∈ s.requests)
    (hrefs : ∀ t, r.state.nodeRefs t = []) (hpages : r.state.localAllocatorPages = []) :
    refsOf s.requests = refsOf (others r.id s.requests) ∧
      ownedOf s.requests = ownedOf (others r.id s.requests) := by
  have hp := perm_others h.ids hr
  rw [refsOf_perm hp,ownedOf_perm hp,refsOf_cons,ownedOf_cons,hpages,own_nil]
  refine ⟨funext fun t => ?_,rfl⟩
  simp [hold,hrefs]

theorem lockFirst_runs (h : Sound s) (ho : FirstOffer s r remaining ev) :
    Runs (lockMatch ev.matchResult (¬s.config.disableL2Cache ∧
        nodeDepth s.kv.tree ev.matchResult.device/s.config.pageSize <
          nodeDepth s.kv.tree ev.matchResult.host/s.config.pageSize) false) s.kv
      (fun p kv₁ => LockedFor (refsOf s.requests) (ownedOf s.requests)
        (r.fullPagedTokens s.config.pageSize true) ev.matchResult ev.loadbackDiff p s.kv kv₁ ∧
        (s.config.disableL2Cache = false ∧ p.2 = ev.matchResult.deeper s.kv.tree ∨
          s.config.disableL2Cache = true ∧ p.2 = ev.matchResult.device))
      (fun e kv₁ => Stops Label.isInternal s e (s.setKV kv₁) ∧
        s.kv.availablePages .device < pagesOf .host s.kv.tree ev.loadbackDiff) := by
  obtain ⟨x,hm⟩ := ho.matched
  have hT := h.kv.inv.tree
  have hlt := depth_lt_iff hm hT .device .host
  rw [h.pageSize] at hlt
  simp only [MatchResult.last] at hlt
  unfold lockMatch
  simp only [decide_eq_true_eq]
  split
  · next hcond =>
    have hdiff : ev.loadbackDiff = missing .device s.kv.tree ev.matchResult := by
      rw [ho.diff,if_neg hcond.1]
    rw [hdiff]
    refine (lockLoadedBack_runs h.kv hm false).imp ?_ ?_
    · rintro p kv₁ ⟨rfl,hl⟩
      refine ⟨hl.lockedFor hm hT,Or.inl ⟨by simpa using hcond.1,?_⟩⟩
      rw [MatchResult.deeper,if_pos (hlt.mp hcond.2)]
    · rintro e kv₁ ⟨hfew,rfl | ⟨_,hf,_⟩⟩
      · exact ⟨(by decide : Undefined.nullResource ≠ .unlockNullResource),hfew⟩
      · cases hf
  · next hcond =>
    have hdiff : ev.loadbackDiff = [] := by
      rw [ho.diff]
      split
      · rfl
      · next hl2 =>
        refine (between_of_matched hm hT .device).empty ?_
        exact Nat.le_of_not_lt fun hd => hcond ⟨hl2,hlt.mpr hd⟩
    rw [hdiff]
    refine (lockDevice_locked h.kv hm).runs ?_
    rintro p kv₁ ⟨rfl,hl⟩
    refine ⟨hl,?_⟩
    by_cases hl2 : s.config.disableL2Cache = true
    · exact Or.inr ⟨hl2,rfl⟩
    · refine Or.inl ⟨by simpa using hl2,?_⟩
      rw [MatchResult.deeper,if_neg fun hd => hcond ⟨hl2,hlt.mpr hd⟩]

/-- The pages of the load-back, of the chunk and of the decode block are ensured together. -/
theorem FirstOffer.needs (ho : FirstOffer s r remaining ev) (h : Sound s)
    (h0 : 0 ≤ ev.tokensThisRound) (hd : 0 ≤ s.config.decodeInputTokens) :
    pagesOf .host s.kv.tree ev.loadbackDiff+
      pagesFor (ev.tokensThisRound+s.config.decodeInputTokens) s.config.pageSize ≤
        firstChunkNeeds s.config r remaining s.kv.tree ev.matchResult := by
  obtain ⟨x,hm⟩ := ho.matched
  have hps := s.config.pageSize_pos
  have hpo := pagesOf_missing hm h.kv .device
  unfold firstChunkNeeds
  rw [← ho.tokens]
  simp only [MatchResult.last,ResourceType.other,h.pageSize] at hpo
  dsimp only
  generalize nodeDepth s.kv.tree ev.matchResult.device/s.config.pageSize = a at hpo ⊢
  generalize nodeDepth s.kv.tree ev.matchResult.host/s.config.pageSize = b at hpo ⊢
  rw [ho.diff]
  by_cases hl2 : s.config.disableL2Cache = true
  · simp [hl2,pagesOf]
  · simp only [hl2,not_false_eq_true,true_and,if_false,Bool.false_eq_true]
    rw [hpo]
    split
    · have hsub : ((b : Int)-a) = ((b-a : Nat) : Int) := by omega
      rw [hsub,add_assoc,pagesFor_add_mul (by omega) _ hps]
    · rw [zero_add]
      omega

theorem FirstOffer.enough (ho : FirstOffer s r remaining ev) (h : Sound s)
    (h0 : 0 ≤ ev.tokensThisRound) (hd : 0 ≤ s.config.decodeInputTokens) :
    pagesOf .host s.kv.tree ev.loadbackDiff+
      pagesFor (ev.tokensThisRound+s.config.decodeInputTokens) s.config.pageSize ≤
        s.kv.availablePages .device := (ho.needs h h0 hd).trans ho.pages

theorem applyFirstChunk_runs (h : Sound s) (hr : r ∈ s.requests) (hst : r.state = .submitted)
    (ho : FirstOffer s r remaining ev) :
    Runs (applyFirstChunk r ev) s (fun _ s' => ∃ f w, FirstChunk s r ev f w s')
      (fun e s' => Stops Label.isInternal s e s' ∧
        (ev.tokensThisRound < 0 ∨ s.config.decodeInputTokens < 0)) := by
  obtain ⟨x,hm⟩ := ho.matched
  obtain ⟨nd,hnd⟩ := (hm.stop .device).live
  obtain ⟨nh,hnh⟩ := (hm.stop .host).live
  obtain ⟨hrefs,howned⟩ := h.others_eq hr (fun t => by simp [hst,RequestState.nodeRefs])
    (by simp [hst,RequestState.localAllocatorPages])
  unfold applyFirstChunk
  rw [runs_bind,runs_get]
  refine onKV_bind ?_
  rw [← bind_pure (depthInPage ev.matchResult.device)]
  refine depthInPage_bind hnd ?_
  rw [runs_pure,setKV_self]
  refine onKV_bind ?_
  rw [← bind_pure (depthInPage ev.matchResult.host)]
  refine depthInPage_bind hnh ?_
  rw [runs_pure,setKV_self,h.pageSize]
  have henough : ¬(ev.tokensThisRound < 0 ∨ s.config.decodeInputTokens < 0) →
      pagesOf .host s.kv.tree ev.loadbackDiff+
        pagesFor (ev.tokensThisRound+s.config.decodeInputTokens) s.config.pageSize ≤
          s.kv.availablePages .device ∧
      0 ≤ pagesFor (ev.tokensThisRound+s.config.decodeInputTokens) s.config.pageSize := by
    intro hneg
    exact ⟨ho.enough h (by omega) (by omega),pagesFor_nonneg (by omega) s.config.pageSize_pos⟩
  refine onKV_bind ((lockFirst_runs h ho).imp ?_ ?_)
  rotate_left
  · rintro e kv₁ ⟨hstop,hfew⟩
    refine ⟨hstop,by_contra fun hneg => ?_⟩
    obtain ⟨hen,h0⟩ := henough hneg
    omega
  rintro p kv₁ ⟨hl,hdeep⟩
  refine onKV_bind ?_
  refine ((newLocalKVAllocator_runs hl.kvInv ev.tokensThisRound s.config.decodeInputTokens).keeps
    (keepsRecord_newLocalKVAllocator _ _ _)).imp ?_ ?_
  · rintro l kv₂ ⟨⟨hk₂,hch₂,hs₂,l₁,new₁,new₂,ha₁,ha₂,hav₂⟩,hrec₂⟩
    obtain ⟨slot,slots,hslots⟩ := List.exists_cons_of_ne_nil ho.slots
    have halloc : Returns (unwinding allocateSlot (onKV do
        deallocatePages .device l.pages
        unlockRefs p)) (s.setKV kv₂)
        (fun a s' => a = slot ∧ s' = { s.setKV kv₂ with freeSlots := slots }) := by
      refine Returns.unwinding ?_ _
      unfold Returns allocateSlot
      rw [runs_bind,runs_get]
      simp only [setKV_freeSlots,hslots]
      exact ⟨rfl,rfl⟩
    refine halloc.bind ?_
    rintro a s₃ ⟨rfl,rfl⟩
    have hpsk : kv₁.pageSize = s.config.pageSize := hl.change.evolves.pageSize.trans h.pageSize
    rw [hpsk] at ha₁ ha₂
    let f : ForwardState :=
      { hostNodeRef := p.1, deviceNodeRef := p.2, localKVAllocator := some l, reqPoolIndex := a }
    let w : Window := ⟨matchedPages s.config s.kv.tree ev.matchResult*s.config.pageSize,
      ev.tokensThisRound⟩
    have hages : Ages s.kv kv₂ := hl.ages.trans (Ages.of_allocStep hs₂)
    have hchange : Change (refsOf (others r.id s.requests)) [] s.kv kv₂ := by
      rw [← hrefs]
      exact hl.change.trans (hch₂.mono (le_hold _ _))
    have hrest : ∀ s', s'.config = s.config → s'.requests =
        (s.withState r.id (firstChunkState s.config r f w)).requests →
        s'.cacheOpTracker = s.cacheOpTracker → s'.retractions = s.retractions → s'.kv = kv₂ →
        FirstChunk s r ev f w s' := by
      intro s' hconf hreq htr hret hkv
      have hfwd : (firstChunkState s.config r f w).forward? = some f := by
        unfold firstChunkState
        split <;> rfl
      have hloc : (firstChunkState s.config r f w).local? = some l := by
        unfold firstChunkState
        split <;> rfl
      refine ⟨Move.of_kv h hr hconf hreq htr hret ?_ (by rw [hkv]; exact hchange) ?_,
        by rw [hkv]; exact hages,rfl,⟨l,l₁,new₁,new₂,rfl,ha₁,ha₂,?_⟩,?_,?_,?_,?_,hdeep⟩
      · rw [hkv,← hrefs,← howned]
        refine hk₂.congr (fun t => ?_) (fun t => ?_)
        · unfold firstChunkState
          split <;> cases t <;> rfl
        · unfold firstChunkState
          split <;> rfl
      · refine ⟨fun g hg => ?_,fun l' hl' => ?_⟩
        · rw [hfwd] at hg
          cases hg
          rw [hkv,hs₂.tree,(hl.change.trans (hch₂.mono (le_hold _ _))).evolves.pageSize,h.pageSize]
          exact hl.tokens
        · rw [hloc] at hl'
          cases hl'
          exact ha₂.nonneg
      · rw [hkv,hl.available,hav₂]
        omega
      · rw [hkv,hs₂.tree]
        exact hl.loadsFrom
      · rw [hkv,hs₂.tree,hrec₂]
        exact hl.loadedBack
      · rw [hkv,hs₂.tree]
        exact hl.path
      · rw [hkv,hs₂.tree]
        exact hl.shape
    change Runs (if w.start+w.size = r.prefillSize
      then setState r.id (.prefillDone f w s.config.decodeInputTokens)
      else setState r.id (.prefilling f w)) _ _ _
    by_cases heq : w.start+w.size = r.prefillSize
    · rw [if_pos heq,runs_setState]
      refine ⟨f,w,hrest _ rfl ?_ rfl rfl rfl⟩
      unfold firstChunkState
      rw [if_pos heq]
      rfl
    · rw [if_neg heq,runs_setState]
      refine ⟨f,w,hrest _ rfl ?_ rfl rfl rfl⟩
      unfold firstChunkState
      rw [if_neg heq]
      rfl
  · rintro e kv₂ ⟨⟨⟨y,rfl⟩,hk₂,hch₂,hless⟩,_⟩
    refine ⟨(CacheMove.of_change h hk₂ (hl.change.trans hch₂)).stops y,by_contra fun hneg => ?_⟩
    obtain ⟨hen,_⟩ := henough hneg
    have hav := hl.available
    have hpsk : kv₁.pageSize = s.config.pageSize := hl.change.evolves.pageSize.trans h.pageSize
    rw [hpsk] at hless
    have hshort := hless (by omega) (by omega)
    omega

end FluxServe
