import FluxServe.Scheduler.DecodeProof

namespace FluxServe

open KVPrefixCache

variable {s s' : Scheduler} {r : Request} {ev : RecoverEvent} {h : NodeId} {l l' : LocalKVAllocator}
  {m : MatchResult}

/-- The device pages ensured for a recovery: what is loaded back and one decode block. -/
def recoverNeeds (c : SchedulerConfig) (tree : Heap TreeNode) (m : MatchResult) : Int :=
  let deviceMatched := nodeDepth tree m.device/c.pageSize
  let hostMatched := nodeDepth tree m.host/c.pageSize
  let numTokens : Int :=
    if deviceMatched < hostMatched then c.pageSize*(hostMatched-deviceMatched)+c.decodeInputTokens
    else c.decodeInputTokens
  pagesFor numTokens c.pageSize

theorem recoverNeeds_congr {tree tree' : Heap TreeNode}
    (hd : ∀ t, nodeDepth tree' (m.last t) = nodeDepth tree (m.last t)) (c : SchedulerConfig) :
    recoverNeeds c tree' m = recoverNeeds c tree m := by
  have h1 : nodeDepth tree' m.device = nodeDepth tree m.device := hd .device
  have h2 : nodeDepth tree' m.host = nodeDepth tree m.host := hd .host
  unfold recoverNeeds
  rw [h1,h2]

/-- A recovery the scheduler has made room for. -/
structure RecoverOffer (s : Scheduler) (r : Request) (ev : RecoverEvent) : Prop where
  matched : ∃ x, Matched (r.fullPagedTokens s.config.pageSize true) s.kv.tree ev.matchResult x
  diff : ev.loadbackDiff = missing .device s.kv.tree ev.matchResult
  slots : s.freeSlots ≠ []
  pages : recoverNeeds s.config s.kv.tree ev.matchResult ≤ s.kv.availablePages .device

theorem scheduleDecodeFromRetracted_returns (hs : Sound s) (r : Request) :
    Returns (scheduleDecodeFromRetracted r) s (fun o s' => CacheMove s s' ∧ Ages s.kv s'.kv ∧
      s'.freeSlots = s.freeSlots ∧ (∀ ev, o = some ev → RecoverOffer s' r ev) ∧
      (s.freeSlots = [] → o = none) ∧
      (s.freeSlots ≠ [] → ∃ m kv₁ kvl,
        Weighed s (r.fullPagedTokens s.config.pageSize true) .stateRecovery m kv₁ kvl ∧
        (o.isSome ↔ recoverNeeds s.config kv₁.tree m ≤ kvl.capacity .device) ∧
        ∀ ev, o = some ev → ev.matchResult = m ∧
          ∀ t, nodeDepth s'.kv.tree (m.last t) = nodeDepth kv₁.tree (m.last t))) := by
  unfold Returns scheduleDecodeFromRetracted
  rw [runs_bind,runs_get]
  by_cases hslots : s.freeSlots = []
  · rw [if_pos (by simp [hslots])]
    exact ⟨CacheMove.refl hs,Ages.refl _,rfl,by simp,fun _ => rfl,fun hne => absurd hslots hne⟩
  rw [if_neg (by simpa using hslots),runs_onKV]
  have hps : s.kv.pageSize = s.config.pageSize := hs.pageSize
  refine (matchTokens_deepest hs.kv (hps ▸ dvd_fullPagedTokens _ _ _) .stateRecovery).bind
    fun m kv₁ ⟨hk₁,hch₁,hag₁,_,⟨x,hm⟩,hdeep,hcov⟩ => ?_
  have hps₁ : kv₁.pageSize = s.config.pageSize := hch₁.evolves.pageSize.trans hps
  obtain ⟨nd,hnd⟩ := (hm.stop .device).live
  obtain ⟨nh,hnh⟩ := (hm.stop .host).live
  refine nodesWithout_runs hm (depthInPage_bind hnd (depthInPage_bind hnh ?_))
  rw [hps₁]
  refine lockedEnsure_runs (t := .device) hk₁ hm _ fun ensured kv₂ kvl h₂ hkl hcl hcap => ?_
  have hmove : CacheMove s (s.setKV kv₂) := CacheMove.of_change hs h₂.kvInv (hch₁.trans h₂.change)
  have hages := hag₁.trans (h₂.ages rfl)
  have hw : Weighed s (r.fullPagedTokens s.config.pageSize true) .stateRecovery m kv₁ kvl :=
    ⟨hk₁,hch₁,hag₁,⟨x,hm⟩,hdeep,hcov,hkl,hcl⟩
  cases ensured with
  | false =>
    exact ⟨hmove,hages,rfl,by simp,fun _ => rfl,fun _ => ⟨m,kv₁,kvl,hw,hcap,by simp⟩⟩
  | true =>
    refine ⟨hmove,hages,rfl,?_,fun he => absurd he hslots,fun _ => ⟨m,kv₁,kvl,hw,hcap,?_⟩⟩
    · rintro ev ⟨⟩
      refine ⟨h₂.matched,?_,hslots,?_⟩
      · simp only [setKV_kv,h₂.missing]
      · simp only [setKV_config,setKV_kv]
        rw [recoverNeeds_congr h₂.depth]
        exact h₂.available.mp rfl
    · rintro ev ⟨⟩
      exact ⟨rfl,h₂.depth⟩

/-- What a recovery has done. -/
structure Recovered (s : Scheduler) (r : Request) (l : LocalKVAllocator) (ev : RecoverEvent)
    (f : ForwardState) (s' : Scheduler) : Prop where
  move : Move r (.decoding f s.config.decodeInputTokens) [] s s'
  ages : Ages s.kv s'.kv
  localAllocator : ∃ l' new, f.localKVAllocator = some l' ∧
    Acquired l s.config.decodeInputTokens s.config.pageSize new l'
  loads : LoadsFrom s.kv (pairsOf .host s'.kv.tree ev.loadbackDiff)
  loadedBack : s'.kv.loadedBack.Perm (pairsOf .host s'.kv.tree ev.loadbackDiff ++ s.kv.loadedBack)
  path : ev.loadbackDiff ⊆ leafToRoot s'.kv.tree f.deviceNodeRef
  shape : Agree .host s.kv.tree s'.kv.tree
  deeper : f.deviceNodeRef = ev.matchResult.deeper s.kv.tree

theorem lockRecover_runs (hs : Sound s) (ho : RecoverOffer s r ev) :
    Runs (lockMatch ev.matchResult (nodeDepth s.kv.tree ev.matchResult.device/s.config.pageSize <
        nodeDepth s.kv.tree ev.matchResult.host/s.config.pageSize) true) s.kv
      (fun p kv₁ => LockedFor (refsOf s.requests) (ownedOf s.requests)
        (r.fullPagedTokens s.config.pageSize true) ev.matchResult ev.loadbackDiff p s.kv kv₁ ∧
        p.2 = ev.matchResult.deeper s.kv.tree)
      (fun e kv₁ => Stops Label.isInternal s e (s.setKV kv₁) ∧
        s.kv.availablePages .device < pagesOf .host s.kv.tree ev.loadbackDiff) := by
  obtain ⟨x,hm⟩ := ho.matched
  have hT := hs.kv.inv.tree
  have hlt := depth_lt_iff hm hT .device .host
  rw [hs.pageSize] at hlt
  simp only [MatchResult.last] at hlt
  unfold lockMatch
  simp only [decide_eq_true_eq,ho.diff]
  split
  · next hcond =>
    refine (lockLoadedBack_runs hs.kv hm true).imp ?_ ?_
    · rintro p kv₁ ⟨rfl,hl⟩
      refine ⟨hl.lockedFor hm hT,?_⟩
      rw [MatchResult.deeper,if_pos (hlt.mp hcond)]
    · rintro e kv₁ ⟨hfew,rfl | ⟨rfl,_,hk₁,hch₁⟩⟩
      · exact ⟨(by decide : Undefined.nullResource ≠ .unlockNullResource),hfew⟩
      · exact ⟨(CacheMove.of_change hs hk₁ hch₁).stops _,hfew⟩
  · next hcond =>
    have hle : nodeDepth s.kv.tree ev.matchResult.host ≤ nodeDepth s.kv.tree ev.matchResult.device :=
      Nat.le_of_not_lt fun hd => hcond (hlt.mpr hd)
    have hdiff : missing .device s.kv.tree ev.matchResult = [] :=
      (between_of_matched hm hT .device).empty hle
    rw [hdiff]
    refine (lockDevice_locked hs.kv hm).runs ?_
    rintro p kv₁ ⟨rfl,hl⟩
    refine ⟨hl,?_⟩
    rw [MatchResult.deeper,if_neg (Nat.not_lt.mpr hle)]

/-- The pages of the load-back and of the decode block are ensured together. -/
theorem RecoverOffer.needs (ho : RecoverOffer s r ev) (hs : Sound s)
    (hd : 0 ≤ s.config.decodeInputTokens) :
    pagesFor s.config.decodeInputTokens s.config.pageSize+
      pagesOf .host s.kv.tree ev.loadbackDiff ≤
        recoverNeeds s.config s.kv.tree ev.matchResult := by
  obtain ⟨x,hm⟩ := ho.matched
  have hps := s.config.pageSize_pos
  have hpo := pagesOf_missing hm hs.kv .device
  unfold recoverNeeds
  simp only [MatchResult.last,ResourceType.other,hs.pageSize] at hpo
  dsimp only
  generalize nodeDepth s.kv.tree ev.matchResult.device/s.config.pageSize = a at hpo ⊢
  generalize nodeDepth s.kv.tree ev.matchResult.host/s.config.pageSize = b at hpo ⊢
  rw [ho.diff,hpo]
  split
  · have hsub : ((b : Int)-a) = ((b-a : Nat) : Int) := by omega
    rw [hsub,pagesFor_add_mul hd _ hps]
    omega
  · omega

theorem RecoverOffer.enough (ho : RecoverOffer s r ev) (hs : Sound s)
    (hd : 0 ≤ s.config.decodeInputTokens) :
    pagesFor s.config.decodeInputTokens s.config.pageSize+
      pagesOf .host s.kv.tree ev.loadbackDiff ≤ s.kv.availablePages .device :=
  (ho.needs hs hd).trans ho.pages

theorem applyRecover_takes (hs : Sound s) (hr : r ∈ s.requests) (hst : r.state = .retracted h l)
    (ho : RecoverOffer s r ev) :
    Runs (applyRecover r h l ev) s
      (fun _ s' => ∃ f l' new, Recovered s r l ev f s' ∧
        Acquired l s.config.decodeInputTokens s.config.pageSize new l' ∧
        s.kv.availablePages .device =
          s'.kv.availablePages .device+pagesOf .host s.kv.tree ev.loadbackDiff+new.length)
      (fun e s' => Stops Label.isInternal s e s' ∧ s.config.decodeInputTokens < 0) := by
  obtain ⟨x,hm⟩ := ho.matched
  obtain ⟨nd,hnd⟩ := (hm.stop .device).live
  obtain ⟨nh,hnh⟩ := (hm.stop .host).live
  have htail : 0 ≤ l.tailPageAvailableTokens :=
    (hs.requests r hr).tail l (by rw [hst]; rfl)
  have hperm := perm_others hs.ids hr
  have howned : ownedOf s.requests = own .device l.pages (ownedOf (others r.id s.requests)) := by
    rw [ownedOf_perm hperm,ownedOf_cons,hst]
    rfl
  have hrefs : refsOf s.requests = hold (hostSide h) (refsOf (others r.id s.requests)) := by
    rw [refsOf_perm hperm,refsOf_cons,hst]
    refine funext fun t => ?_
    cases t <;> rfl
  unfold applyRecover
  rw [runs_bind,runs_get]
  refine onKV_bind ?_
  rw [← bind_pure (depthInPage ev.matchResult.device)]
  refine depthInPage_bind hnd ?_
  rw [runs_pure,setKV_self]
  refine onKV_bind ?_
  rw [← bind_pure (depthInPage ev.matchResult.host)]
  refine depthInPage_bind hnh ?_
  rw [runs_pure,setKV_self,hs.pageSize]
  have hneeds : 0 ≤ s.config.decodeInputTokens →
      acquireNeeds l s.config.decodeInputTokens s.config.pageSize+
        pagesOf .host s.kv.tree ev.loadbackDiff ≤ s.kv.availablePages .device := by
    intro hd
    have hen := ho.enough hs hd
    have h0 := acquireNeeds_nonneg (l := {}) s.config.pageSize_pos s.config.decodeInputTokens
    have hle : acquireNeeds l s.config.decodeInputTokens s.config.pageSize ≤
        s.kv.availablePages .device-pagesOf .host s.kv.tree ev.loadbackDiff :=
      acquireNeeds_le s.config.pageSize_pos htail ?_ (by omega)
    · omega
    · have hpos := pagesFor_nonneg hd s.config.pageSize_pos
      omega
  refine onKV_bind ((lockRecover_runs hs ho).imp ?_ ?_)
  rotate_left
  · rintro e kv₁ ⟨hstop,hfew⟩
    refine ⟨hstop,by_contra fun hneg => ?_⟩
    have hen := hneeds (by omega)
    have h0 := acquireNeeds_nonneg (l := l) s.config.pageSize_pos s.config.decodeInputTokens
    omega
  rintro p kv₁ ⟨hl,hdeep⟩
  obtain ⟨slot,slots,hslots⟩ := List.exists_cons_of_ne_nil ho.slots
  have halloc : ∀ cleanup, Returns (unwinding allocateSlot cleanup) (s.setKV kv₁)
      (fun a s' => a = slot ∧ s' = { s.setKV kv₁ with freeSlots := slots }) := by
    intro cleanup
    refine Returns.unwinding ?_ _
    unfold Returns allocateSlot
    rw [runs_bind,runs_get]
    simp only [setKV_freeSlots,hslots]
    exact ⟨rfl,rfl⟩
  refine (halloc _).bind ?_
  rintro a s₂ ⟨rfl,rfl⟩
  have hps₁ : kv₁.pageSize = s.config.pageSize := hl.change.evolves.pageSize.trans hs.pageSize
  have henough : acquireNeeds l s.config.decodeInputTokens kv₁.pageSize ≤
      kv₁.availablePages .device := by
    rw [hps₁]
    have hav := hl.available
    by_cases hd : 0 ≤ s.config.decodeInputTokens
    · have hen := hneeds hd
      omega
    · rw [acquireNeeds,if_pos (by omega)]
      omega
  have hkl : KVInv kv₁ (hold (nodePair p) (refsOf s.requests))
      (own .device l.pages (ownedOf (others r.id s.requests))) := howned ▸ hl.kvInv
  have hacq : Returns (acquire l s.config.decodeInputTokens) kv₁ (fun l' kv₂ =>
      KVInv kv₂ (hold (nodePair p) (refsOf s.requests))
        (own .device l'.pages (ownedOf (others r.id s.requests))) ∧
      Change (hold (nodePair p) (refsOf s.requests)) [] kv₁ kv₂ ∧ AllocStep .device kv₁ kv₂ ∧
      (∃ new, Acquired l s.config.decodeInputTokens s.config.pageSize new l' ∧
        kv₁.availablePages .device = kv₂.availablePages .device+new.length) ∧
      kv₂.loadedBack = kv₁.loadedBack) := by
    refine ((acquire_runs hkl _).keeps (keepsRecord_acquire l _)).imp ?_ ?_
    · rintro l' kv₂ ⟨⟨hk₂,hch₂,hs₂,new,ha,hav⟩,hrec⟩
      rw [hps₁] at ha
      exact ⟨hk₂,hch₂,hs₂,⟨new,ha,hav⟩,hrec⟩
    · rintro e kv₂ ⟨⟨_,_,_,_,hless⟩,_⟩
      omega
  rw [runs_bind,runs_unwinding,runs_onKV]
  refine hacq.runs ?_
  rintro l' kv₂ ⟨hk₂,hch₂,hs₂,⟨new,ha,hav₂⟩,hrec⟩
  refine onKV_bind ?_
  -- The old state's reference is the last to go.
  have hpin : KVInv kv₂ (pin .host h (hold (nodePair p) (refsOf (others r.id s.requests))))
      (own .device l'.pages (ownedOf (others r.id s.requests))) := by
    refine hk₂.congr (fun t => ?_) (fun _ => rfl)
    rw [hrefs]
    cases t
    · simp [pin,hold,hostSide]
    · simp only [pin,hold,hostSide,if_true,← Multiset.singleton_add,Multiset.coe_singleton]
      abel
  refine (unlock_returns hpin).keeps (keepsRecord_unlock h) |>.runs ?_
  rintro _ kv₃ ⟨⟨hk₃,hc₃⟩,hrec₃⟩
  rw [runs_setState]
  have hag : Ages s.kv kv₃ :=
    (hl.ages.trans (Ages.of_allocStep hs₂)).trans (Ages.of_calm hc₃)
  have htree : pairsOf .host kv₃.tree ev.loadbackDiff = pairsOf .host kv₁.tree ev.loadbackDiff := by
    unfold pairsOf
    simp only [(hc₃.agree _).nodePages_eq,hs₂.tree]
  have htaken : s.kv.availablePages .device =
      kv₃.availablePages .device+pagesOf .host s.kv.tree ev.loadbackDiff+new.length := by
    rw [hc₃.availablePages_eq,hl.available,hav₂]
    omega
  refine ⟨⟨p.1,p.2,some l',a⟩,l',new,⟨Move.of_kv hs hr rfl rfl rfl rfl ?_ ?_ ⟨?_,?_⟩,hag,
    ⟨l',new,rfl,ha⟩,?_,?_,?_,?_,hdeep⟩,ha,htaken⟩
  · refine hk₃.congr (fun t => ?_) (fun _ => rfl)
    cases t <;> rfl
  · refine ((hl.change.mono fun t => refsOf_others_le _ _ t).trans
      (hch₂.mono fun t => ?_)).calm_right hc₃
    exact (refsOf_others_le _ _ t).trans (le_hold _ _ t)
  · intro g hg
    cases hg
    have htok : pathTokens kv₃.tree p.2 = pathTokens kv₁.tree p.2 := by
      rw [(hc₃.agree .host).pathTokens_eq,hs₂.tree]
    change pathTokens kv₃.tree p.2 <+: _
    rw [htok]
    have hps₃ : kv₃.pageSize = s.config.pageSize := by
      rw [hc₃.pageSize,hch₂.evolves.pageSize,hps₁]
    change _ <+: r.fullPagedTokens kv₃.pageSize true
    rw [hps₃]
    exact hl.tokens
  · intro l'' hl''
    cases hl''
    exact ha.nonneg
  · change LoadsFrom s.kv (pairsOf .host kv₃.tree ev.loadbackDiff)
    rw [htree]
    exact hl.loadsFrom
  · change kv₃.loadedBack.Perm (pairsOf .host kv₃.tree ev.loadbackDiff ++ s.kv.loadedBack)
    rw [htree,hrec₃,hrec]
    exact hl.loadedBack
  · change ev.loadbackDiff ⊆ leafToRoot kv₃.tree p.2
    rw [(hc₃.agree .host).leafToRoot_eq,hs₂.tree]
    exact hl.path
  · refine hl.shape.trans ?_
    rw [← hs₂.tree]
    exact hc₃.agree .host

theorem applyRecover_runs (hs : Sound s) (hr : r ∈ s.requests) (hst : r.state = .retracted h l)
    (ho : RecoverOffer s r ev) :
    Runs (applyRecover r h l ev) s (fun _ s' => ∃ f, Recovered s r l ev f s')
      (fun e s' => Stops Label.isInternal s e s' ∧ s.config.decodeInputTokens < 0) := by
  apply (applyRecover_takes hs hr hst ho).imp ?_ (fun _ _ h => h)
  rintro _ s' ⟨f,_,_,hrec,_,_⟩
  exact ⟨f,hrec⟩

end FluxServe
