import FluxServe.Scheduler.RecoverProof

namespace FluxServe

open KVPrefixCache

variable {s s' : Scheduler} {r : Request} {f : ForwardState} {st st' moved : RequestState}
  {refs : ResourceType → Multiset NodeId} {owned : ResourceType → Multiset PageId}
  {fresh : List NodeId}

/-- Everything but the cache and the slots is left alone. -/
structure SameBooks (s s' : Scheduler) : Prop where
  config : s'.config = s.config
  requests : s'.requests = s.requests
  tracker : s'.cacheOpTracker = s.cacheOpTracker
  retractions : s'.retractions = s.retractions

theorem SameBooks.setKV (s : Scheduler) (kv : KVPrefixCache) : SameBooks s (s.setKV kv) :=
  ⟨rfl,rfl,rfl,rfl⟩

/-- Ref counts and the device pool change; no page of the tree moves. -/
structure Releases (refs : ResourceType → Multiset NodeId) (kv kv' : KVPrefixCache) : Prop where
  evolves : Evolves refs kv kv'
  agree : ∀ t, Agree t kv.tree kv'.tree
  returned : (kv'.manager .host).allocator.returned = (kv.manager .host).allocator.returned

namespace Releases

variable {kv kv' kv'' : KVPrefixCache}

theorem refl (refs : ResourceType → Multiset NodeId) (kv : KVPrefixCache) : Releases refs kv kv :=
  ⟨Evolves.refl _ _,fun _ => Agree.refl _ _,rfl⟩

theorem calm_right (h : Releases refs kv kv') (hc : Calm kv' kv'') : Releases refs kv kv'' :=
  ⟨h.evolves.trans (hc.evolves refs),fun t => (h.agree t).trans (hc.agree t),
    by rw [hc.allocator,h.returned]⟩

theorem allocStep_right (h : Releases refs kv kv') (he : Evolves refs kv' kv'')
    (hs : AllocStep .device kv' kv'') : Releases refs kv kv'' :=
  ⟨h.evolves.trans he,fun t => by rw [hs.tree]; exact h.agree t,
    by rw [hs.other _ (by decide),h.returned]⟩

theorem change_right (h : Releases refs kv' kv'') (hc : Change refs fresh kv kv') :
    Change refs fresh kv kv'' :=
  ⟨hc.evolves.trans h.evolves,hc.lineage.agree_right (h.agree .host) h.returned⟩

theorem change (h : Releases refs kv kv') : Change refs [] kv kv' :=
  h.change_right (Change.refl _ _)

theorem copiesTo {d : NodeId} {pairs : List TransferPair} (h : Releases refs kv kv')
    (hc : CopiesTo kv d fresh pairs) : CopiesTo kv' d fresh pairs := by
  refine ⟨?_,?_⟩
  · rw [hc.pairs]
    unfold pairsOf
    simp only [(h.agree _).nodePages_eq]
  · rw [(h.agree .host).leafToRoot_eq]
    exact hc.path

end Releases

theorem dropForwardState_returns
    (hinv : KVInv s.kv (hold (nodePair (f.hostNodeRef,f.deviceNodeRef)) refs)
      (own .device ((f.localKVAllocator.map LocalKVAllocator.pages).getD []) owned)) :
    Returns (dropForwardState f) s (fun _ s' => KVInv s'.kv refs owned ∧
      Releases refs s.kv s'.kv ∧ SameBooks s s') := by
  unfold Returns dropForwardState
  have hhost : ∀ u, hold (nodePair (f.hostNodeRef,f.deviceNodeRef)) refs u =
      if u = .host then f.hostNodeRef.toList+pin .device f.deviceNodeRef refs u
      else pin .device f.deviceNodeRef refs u := by
    intro u
    cases u <;> simp [hold,nodePair,pin]
  refine onKV_bind ((unlock?_returns hinv hhost).runs ?_)
  rintro _ kv₁ ⟨hk₁,hc₁⟩
  rw [runs_bind,deallocateSlot,runs_modify]
  have hch₁ : Releases refs s.kv kv₁ := (Releases.refl refs s.kv).calm_right hc₁
  have hlast : ∀ kv₂, KVInv kv₂ (pin .device f.deviceNodeRef refs) owned →
      Releases refs s.kv kv₂ → ∀ slots,
      Runs (onKV (unlock .device f.deviceNodeRef)) { s.setKV kv₂ with freeSlots := slots }
        (fun _ s' => KVInv s'.kv refs owned ∧ Releases refs s.kv s'.kv ∧ SameBooks s s')
        (fun _ _ => False) := by
    intro kv₂ hk₂ hch₂ slots
    rw [runs_onKV]
    refine (unlock_returns hk₂).runs ?_
    rintro _ kv₃ ⟨hk₃,hc₃⟩
    exact ⟨hk₃,hch₂.calm_right hc₃,⟨rfl,rfl,rfl,rfl⟩⟩
  cases hl : f.localKVAllocator with
  | none =>
    rw [hl] at hk₁
    exact hlast kv₁ (by simpa using hk₁) hch₁ _
  | some l =>
    rw [hl] at hk₁
    simp only [Option.map_some,Option.getD_some] at hk₁
    refine onKV_bind ((deallocatePages_returns hk₁.inv).runs ?_)
    rintro _ kv₂ ⟨hi₂,he₂,hs₂,_⟩
    exact hlast kv₂ (hs₂.kvInv hk₁ hi₂)
      (hch₁.allocStep_right (he₂.mono (le_pin _ _ _)) hs₂) _

/-- What a state leaves behind goes back: its pages to the pool, its references off the counts. -/
theorem dropState_returns (hinv : KVInv s.kv (hold (fun t => st.nodeRefs t) refs)
      (own .device st.localAllocatorPages owned)) :
    Returns (dropState st) s (fun _ s' => KVInv s'.kv refs owned ∧
      Releases refs s.kv s'.kv ∧ SameBooks s s') := by
  have hforward : ∀ f, st.forward? = some f →
      KVInv s.kv (hold (nodePair (f.hostNodeRef,f.deviceNodeRef)) refs)
        (own .device ((f.localKVAllocator.map LocalKVAllocator.pages).getD []) owned) := by
    intro f hf
    refine hinv.congr (fun t => ?_) (fun t => ?_)
    · unfold hold
      dsimp only
      rw [nodeRefs_of_forward hf]
    · rw [localAllocatorPages_of_forward hf]
  -- The host reference of a state goes before the device reference.
  have hpins : ∀ (d : Option NodeId) (h : NodeId) kv₁,
      st.nodeRefs .device = d.toList → st.nodeRefs .host = [h] →
      KVInv kv₁ (hold (fun t => st.nodeRefs t) refs) owned → Releases refs s.kv kv₁ →
      Runs (do
        unlock .host h
        unlock? .device d) kv₁
        (fun _ kv' => KVInv kv' refs owned ∧ Releases refs s.kv kv' ∧ SameBooks s (s.setKV kv'))
        (fun _ _ => False) := by
    intro d h kv₁ hdevice hhost hk₁ hch₁
    have hdev : ∀ u, hold (fun t => if t = .device then d.toList else []) refs u =
        if u = .device then d.toList+refs u else refs u := by
      intro u
      cases u <;> simp [hold]
    have hpin : KVInv kv₁ (pin .host h (hold (fun t => if t = .device then d.toList else []) refs))
        owned := by
      refine hk₁.congr (fun t => ?_) (fun _ => rfl)
      cases t <;> simp [pin,hold,hdevice,hhost]
    refine (unlock_returns hpin).bind ?_
    rintro _ kv₂ ⟨hk₂,hc₂⟩
    refine (unlock?_returns hk₂ hdev).runs ?_
    rintro _ kv₃ ⟨hk₃,hc₃⟩
    exact ⟨hk₃,(hch₁.calm_right hc₂).calm_right hc₃,SameBooks.setKV s kv₃⟩
  unfold Returns
  cases st with
  | submitted | finished =>
    refine ⟨hinv.congr (fun t => ?_) (fun t => ?_),Releases.refl _ _,⟨rfl,rfl,rfl,rfl⟩⟩
    · simp [hold,RequestState.nodeRefs]
    · simp [RequestState.localAllocatorPages]
  | prefilling f w | prefillDone f w n | decoding f n =>
    exact dropForwardState_returns (hforward f rfl)
  | draining pairs d h =>
    rw [dropState,runs_onKV]
    exact hpins (some d) h s.kv rfl rfl
      (by simpa [RequestState.localAllocatorPages] using hinv) (Releases.refl _ _)
  | writingBack d h =>
    rw [dropState,runs_onKV]
    exact hpins d h s.kv rfl rfl
      (by simpa [RequestState.localAllocatorPages] using hinv) (Releases.refl _ _)
  | retracting d h l pairs =>
    rw [dropState,runs_onKV]
    refine (deallocatePages_returns hinv.inv).bind ?_
    rintro _ kv₁ ⟨hi₁,he₁,hs₁,_⟩
    exact hpins d h kv₁ rfl rfl (hs₁.kvInv hinv hi₁)
      ((Releases.refl _ _).allocStep_right (he₁.mono (le_hold _ _)) hs₁)
  | retracted h l =>
    rw [dropState,runs_onKV]
    refine (deallocatePages_returns hinv.inv).bind ?_
    rintro _ kv₁ ⟨hi₁,he₁,hs₁,_⟩
    have hrun := hpins none h kv₁ rfl rfl (hs₁.kvInv hinv hi₁)
      ((Releases.refl _ _).allocStep_right (he₁.mono (le_hold _ _)) hs₁)
    simp only [unlock?,bind_pure_unit] at hrun
    exact hrun

/-- A request that is done leaves everything it holds. -/
theorem dropToFinished_returns (h : Sound s) (hr : r ∈ s.requests) :
    Returns (do
      dropState r.state
      setState r.id .finished) s (fun _ s' => Move r .finished [] s s') := by
  refine (dropState_returns (h.split hr)).bind fun _ s₁ ⟨hk₁,hch₁,hb⟩ => ?_
  rw [runs_setState]
  refine Move.of_kv h hr hb.config ?_ hb.tracker hb.retractions ?_ hch₁.change ?_
  · simp only [Scheduler.withState,Scheduler.updateRequest,hb.requests]
  · refine hk₁.congr (fun t => ?_) (fun t => ?_)
    · simp [hold,RequestState.nodeRefs]
    · simp [RequestState.localAllocatorPages]
  · exact ⟨by simp [RequestState.forward?],by simp [RequestState.local?]⟩

theorem abortEvent_runs (h : Sound s) (hr : r ∈ s.requests) :
    Runs (abortEvent r) s
      (fun _ s' => (∀ d n, r.state ≠ .writingBack d n) ∧
        (Move r .finished [] s s' ∨ r.state = .finished ∧ s' = s))
      (fun e s' => s' = s ∧ (∃ x, e = .exception x) ∧ ∃ d n, r.state = .writingBack d n) := by
  have hdrop := dropToFinished_returns h hr
  unfold abortEvent
  cases hst : r.state with
  | finished => exact ⟨by simp,Or.inr ⟨rfl,rfl⟩⟩
  | writingBack d n => exact ⟨rfl,⟨_,rfl⟩,d,n,rfl⟩
  | submitted | prefilling | prefillDone | decoding | draining | retracting | retracted =>
    rw [hst] at hdrop
    exact hdrop.runs fun _ s' hm => ⟨by simp,Or.inl hm⟩

/-- What a finish leads to: the end, or a path whose host copy is still to be made. -/
inductive Finishes (r : Request) (s s' : Scheduler) : Prop
  | finished (move : Move r .finished [] s s')
  | draining (d : NodeId) (fresh : List NodeId) (pairs : List TransferPair)
      (move : Move r (.draining pairs d d) fresh s s') (copies : CopiesTo s'.kv d fresh pairs)
      (some : pairs ≠ [])

theorem SameBooks.requests_withState (h : SameBooks (s.withState r.id moved) s') :
    (s'.withState r.id st').requests = (s.withState r.id st').requests := by
  simp only [Scheduler.withState,Scheduler.updateRequest] at *
  rw [h.requests,List.map_map]
  refine List.map_congr_left fun x _ => ?_
  by_cases hx : x.id = r.id <;> simp [hx]

/-- A finish that throws has moved the local allocator out of the request. -/
theorem moved_move (h : Sound s) (hr : r ∈ s.requests) (hf : r.state.forward? = some f)
    (hmoved : moved.forward? = some { f with localKVAllocator := none })
    {kv' : KVPrefixCache}
    (hk : KVInv kv' (hold (fun t => r.state.nodeRefs t) (refsOf (others r.id s.requests)))
      (ownedOf (others r.id s.requests)))
    (hc : Change (hold (fun t => r.state.nodeRefs t) (refsOf (others r.id s.requests))) [] s.kv kv') :
    Move r moved [] s ((s.withState r.id moved).setKV kv') :=
  h.forward_move hr hf hmoved rfl rfl (by simpa using hk) hc (by simp) rfl rfl rfl rfl

/-- A finish that throws leaves the request in its state, without the local allocator. -/
def StopsMoved (r : Request) (moved : RequestState) (s : Scheduler) : Fault → Scheduler → Prop
  | .exception _,s' => Move r moved [] s s'
  | .undefined u,_ => u ≠ .unlockNullResource

theorem StopsMoved.stops {e : Fault} (h : StopsMoved r moved s e s') (hf : r.state.forward? = some f)
    (hmoved : moved.forward? = some { f with localKVAllocator := none }) :
    Stops Label.isInternal s e s' := by
  cases e with
  | undefined u => exact h
  | exception x =>
    refine ⟨_,Steps.single (.forward (Or.inr ⟨f,hf⟩) hmoved h (loadsFrom_nil _)),fun ℓ hℓ => ?_⟩
    rw [List.mem_singleton.mp hℓ]
    trivial

/-- The end of a finish: the request lets go of what it held, and keeps the path to be copied. -/
theorem finishRest_returns (h : Sound s) (hr : r ∈ s.requests) (hf : r.state.forward? = some f)
    {kept : List PageId} {m : MatchResult} {pairs : Option (List TransferPair)} {kv' : KVPrefixCache}
    {a : ResourceType → List NodeId}
    (hk : KVInv kv' (hold a (hold (fun t => r.state.nodeRefs t) (refsOf (others r.id s.requests))))
      (own .device kept (ownedOf (others r.id s.requests))))
    (hc : Change (hold (fun t => r.state.nodeRefs t) (refsOf (others r.id s.requests))) fresh
      s.kv kv')
    (hnone : pairs = none → a = (fun _ => []) ∧ fresh = [])
    (hsome : ∀ ps, pairs = some ps → a = bothSides m.device ∧ CopiesTo kv' m.device fresh ps ∧
      ps ≠ []) :
    Returns (do
      onKV (deallocatePages .device kept)
      dropForwardState { f with localKVAllocator := none }
      setState r.id (finishedState m pairs)) ((s.withState r.id moved).setKV kv')
      (fun _ s' => Finishes r s s' ∧ Agree .device kv'.tree s'.kv.tree) := by
  refine onKV_bind ((deallocatePages_returns hk.inv).runs fun _ kv₁ ⟨hi₁,he₁,hs₁,_⟩ => ?_)
  have hk₁ := hs₁.kvInv hk hi₁
  have hdrop : KVInv kv₁ (hold (nodePair (f.hostNodeRef,f.deviceNodeRef))
      (hold a (refsOf (others r.id s.requests)))) (own .device [] (ownedOf (others r.id s.requests))) := by
    refine hk₁.congr (fun t => ?_) (fun t => by rw [own_nil])
    unfold hold
    dsimp only
    rw [nodeRefs_of_forward hf,add_left_comm]
  refine (dropForwardState_returns (s := ((s.withState r.id moved).setKV kv').setKV kv₁)
    (f := { f with localKVAllocator := none }) hdrop).bind fun _ s₂ ⟨hk₂,hch₂,hb⟩ => ?_
  have hbooks : SameBooks (s.withState r.id moved) s₂ :=
    ⟨hb.config,hb.requests,hb.tracker,hb.retractions⟩
  have hrel : Releases (refsOf (others r.id s.requests)) kv' s₂.kv := by
    refine ⟨(he₁.mono fun t => ?_).trans (hch₂.evolves.mono (le_hold _ _)),fun t => ?_,?_⟩
    · exact (le_hold _ _ t).trans (le_hold _ _ t)
    · rw [← hs₁.tree]
      exact hch₂.agree t
    · exact hch₂.returned.trans (by rw [setKV_kv,hs₁.other _ (by decide)])
  have hchange := hrel.change_right (hc.mono (le_hold _ _))
  cases pairs with
  | none =>
    obtain ⟨rfl,rfl⟩ := hnone rfl
    refine ⟨.finished (Move.of_kv h hr hbooks.config hbooks.requests_withState hbooks.tracker
      hbooks.retractions (hk₂.congr (fun t => ?_) (fun t => ?_)) hchange ⟨?_,?_⟩),
      hrel.agree .device⟩
    · simp [hold,RequestState.nodeRefs]
    · simp [RequestState.localAllocatorPages]
    · simp [RequestState.forward?]
    · simp [RequestState.local?]
  | some ps =>
    obtain ⟨rfl,hcop,hps⟩ := hsome ps rfl
    refine ⟨.draining m.device fresh ps (Move.of_kv h hr hbooks.config hbooks.requests_withState
      hbooks.tracker hbooks.retractions (hk₂.congr (fun t => ?_) (fun t => ?_)) hchange ⟨?_,?_⟩)
      (hrel.copiesTo hcop) hps,hrel.agree .device⟩
    · cases t <;> rfl
    · simp [RequestState.localAllocatorPages]
    · simp [RequestState.forward?]
    · simp [RequestState.local?]

/-- The pages a finish puts into the tree, with those it keeps. -/
def finishInsert (s : Scheduler) (r : Request) (f : ForwardState) :
    EStateM.Result Fault KVPrefixCache (List PageId) :=
  insertFinished (r.fullPagedTokens s.config.pageSize true)
    (pathPages .device s.kv.tree f.deviceNodeRef) f.localKVAllocator s.kv

/-- A finish throws where its insertion does, and afterwards the device covers what it then did. -/
theorem applyFinish_runs (h : Sound s) (hr : r ∈ s.requests) (hf : r.state.forward? = some f)
    (hmoved : moved.forward? = some { f with localKVAllocator := none }) :
    Runs (applyFinish r f moved) s
      (fun _ s' => Finishes r s s' ∧ ∃ kept kv₁, finishInsert s r f = .ok kept kv₁ ∧
        ∀ P, Covers .device s'.kv.tree P ↔ Covers .device kv₁.tree P)
      (fun e s' => StopsMoved r moved s e s' ∧ ∃ kv₁, finishInsert s r f = .error e kv₁) := by
  have hsplit := h.split hr
  rw [localAllocatorPages_of_forward hf] at hsplit
  have hd : f.deviceNodeRef ∈ hold (fun t => r.state.nodeRefs t)
      (refsOf (others r.id s.requests)) .device := mem_hold (deviceNodeRef_mem hf)
  obtain ⟨⟨n,hn⟩,hres⟩ := (hsplit.inv.tier .device).pinned hd
  have hps := h.pageSize
  unfold applyFinish
  rw [runs_bind,runs_get]
  refine onKV_bind ?_
  rw [← bind_pure (devicePagesFromRoot f.deviceNodeRef)]
  refine devicePagesFromRoot_bind hn hres ?_
  rw [runs_pure,setKV_self,runs_bind,runs_setState]
  refine onKV_bind ?_
  have hpath := (h.requests r hr).path f hf
  rw [hps] at hpath
  refine (insertFinished_runs hsplit hd hpath (hsplit.pathPages_length hd)
    (hps ▸ dvd_fullPagedTokens r _ true)).and_eq.imp ?_ ?_
  · rintro kept kv₁ ⟨⟨hk₁,hch₁⟩,hinsert⟩
    refine onKV_bind ?_
    have hps₁ : kv₁.pageSize = s.config.pageSize := hch₁.evolves.pageSize.trans hps
    refine ((matchTokens_deepest hk₁ (hps₁ ▸ dvd_fullPagedTokens r _ true) .prefixReuse).unwinding
      _).runs ?_
    rintro m kv₂ ⟨hk₂,hch₂,_,_,⟨x,hm⟩,_,hcov₂⟩
    obtain ⟨nd,hnd⟩ := (hm.stop .device).live
    obtain ⟨nh,hnh⟩ := (hm.stop .host).live
    refine onKV_bind ?_
    rw [← bind_pure (depthInPage m.device)]
    refine depthInPage_bind hnd ?_
    rw [runs_pure]
    refine onKV_bind ?_
    rw [← bind_pure (depthInPage m.host)]
    refine depthInPage_bind hnh ?_
    rw [runs_pure]
    have hch₂' := hch₁.trans hch₂
    have hend : ∀ {kv₃ : KVPrefixCache} {s' : Scheduler},
        (∀ P, Covers .device kv₃.tree P ↔ Covers .device kv₂.tree P) →
        Finishes r s s' ∧ Agree .device kv₃.tree s'.kv.tree →
        Finishes r s s' ∧ ∃ kept kv₁, finishInsert s r f = .ok kept kv₁ ∧
          ∀ P, Covers .device s'.kv.tree P ↔ Covers .device kv₁.tree P := by
      rintro kv₃ s' hcov₃ ⟨hfin,hagree⟩
      refine ⟨hfin,kept,kv₁,hinsert,fun P => ?_⟩
      exact (covers_congr hagree P).trans ((hcov₃ P).trans (hcov₂ .device P))
    dsimp only
    split
    · next hcond =>
      refine onKV_bind ((prepareWriteBack_returns hk₂ hm).runs ?_)
      rintro pairs kv₃ ⟨⟨ps,nodes,rfl,hw,hne⟩ | ⟨rfl,hk₃,hch₃⟩,hcov₃⟩
      · refine (finishRest_returns h hr hf hw.kvInv (hch₂'.trans hw.change) ?_ ?_).runs
          fun _ _ hfin => hend hcov₃ hfin
        · rintro ⟨⟩
        · rintro _ ⟨⟩
          exact ⟨rfl,⟨hw.pairs,hw.path⟩,hne ((depth_lt_iff hm hk₂.inv.tree .host .device).mp hcond.2)⟩
      · refine (finishRest_returns h hr hf (a := fun _ => []) (hk₃.congr (fun t => ?_) fun _ => rfl)
          (hch₂'.trans hch₃) (fun _ => ⟨rfl,rfl⟩) ?_).runs fun _ _ hfin => hend hcov₃ hfin
        · simp [hold]
        · rintro _ ⟨⟩
    · rw [pure_bind]
      refine (finishRest_returns h hr hf (a := fun _ => []) (hk₂.congr (fun t => ?_) fun _ => rfl)
        hch₂' (fun _ => ⟨rfl,rfl⟩) ?_).runs fun _ _ hfin => hend (fun _ => Iff.rfl) hfin
      · simp [hold]
      · rintro _ ⟨⟩
  · rintro e kv₁ ⟨hcause,hinsert⟩
    refine ⟨?_,kv₁,hinsert⟩
    obtain rfl | ⟨⟨x,rfl⟩,hk₁,hch₁⟩ := hcause
    · exact (by decide : Undefined.nullLocalAllocator ≠ .unlockNullResource)
    · exact moved_move h hr hf hmoved hk₁ hch₁

/-- The labels an event may show. -/
def Event.Shows : Event → Label → Prop
  | _,.internal _ => True
  | .finish id,.finish id' => id' = id
  | .abort id,.abort id' => id' = id
  | .writeBackDone opId _,.complete opId' => opId' = opId
  | _,_ => False

theorem Event.shows_internal {ev : Event} {ℓ : Label} (h : ℓ.isInternal) : ev.Shows ℓ := by
  cases ℓ <;> first | exact h.elim | (cases ev <;> trivial)

/-- A finish during a retract keeps the write-back and gives the local pages back. -/
theorem keepWriting_returns (h : Sound s) (hr : r ∈ s.requests) {d : Option NodeId} {hn : NodeId}
    {l : LocalKVAllocator} {pairs : List TransferPair} (hst : r.state = .retracting d hn l pairs) :
    Returns (do
      onKV (deallocatePages .device l.pages)
      setState r.id (.writingBack d hn)) s
      (fun _ s' => Move r (.writingBack d hn) [] s s' ∧ Change (refsOf s.requests) [] s.kv s'.kv) := by
  have hsplit := h.split hr
  rw [hst] at hsplit
  refine onKV_bind ((deallocatePages_returns hsplit.inv).runs fun _ kv₁ ⟨hi₁,he₁,hs₁,_⟩ => ?_)
  rw [runs_setState]
  have hk₁ := hs₁.kvInv hsplit hi₁
  have hch : Change (refsOf s.requests) [] s.kv kv₁ := by
    have hp := perm_others h.ids hr
    rw [refsOf_perm hp,refsOf_cons,hst]
    exact Change.of_allocStep he₁ hs₁
  refine ⟨Move.of_kv h hr rfl rfl rfl rfl ?_ (hch.mono fun t => refsOf_others_le _ _ t) ⟨?_,?_⟩,hch⟩
  · refine hk₁.congr (fun t => ?_) (fun t => ?_)
    · cases t <;> rfl
    · simp [RequestState.localAllocatorPages]
  · simp [RequestState.forward?]
  · simp [RequestState.local?]

theorem finishEvent_runs (h : Sound s) (hr : r ∈ s.requests) :
    Runs (finishEvent r) s
      (fun _ s' => ∃ ls, Steps s ls s' ∧ ∀ ℓ ∈ ls, (Event.finish r.id).Shows ℓ)
      (Stops (Event.finish r.id).Shows s) := by
  have hforward : ∀ f moved, r.state.forward? = some f →
      moved.forward? = some { f with localKVAllocator := none } →
      Runs (applyFinish r f moved) s
        (fun _ s' => ∃ ls, Steps s ls s' ∧ ∀ ℓ ∈ ls, (Event.finish r.id).Shows ℓ)
        (Stops (Event.finish r.id).Shows s) := by
    intro f moved hf hmoved
    refine (applyFinish_runs h hr hf hmoved).imp ?_ fun _ _ hs =>
      (hs.1.stops hf hmoved).mono fun ℓ => Event.shows_internal
    rintro _ s' ⟨hm | ⟨d,fresh,pairs,hm,hc,hne⟩,_⟩
    · exact ⟨_,Steps.single (.finished (Or.inl ⟨f,hf⟩) hm),by simp [Event.Shows]⟩
    · exact ⟨_,Steps.single (.drain hf hm hc hne),by simp [Event.Shows]⟩
  have hdrop := dropToFinished_returns h hr
  unfold finishEvent
  cases hst : r.state with
  | prefillDone f w n => exact hforward f _ (by rw [hst]; rfl) rfl
  | decoding f n => exact hforward f _ (by rw [hst]; rfl) rfl
  | retracting d hn l pairs =>
    refine (keepWriting_returns h hr hst).runs fun _ s' ⟨hm,hch⟩ => ?_
    exact ⟨_,Steps.single (.keepWriting hst hm hch),by simp [Event.Shows]⟩
  | retracted hn l =>
    rw [hst] at hdrop
    refine hdrop.runs fun _ s' hm => ?_
    exact ⟨_,Steps.single (.finished (Or.inr ⟨hn,l,hst⟩) hm),by simp [Event.Shows]⟩
  | finished => exact ⟨[],.nil,by simp⟩
  | submitted | prefilling | draining | writingBack => exact ⟨[],.nil,by simp⟩

/-- A completed write-back: the request is done, or waits for its recovery. -/
theorem writeBackDoneEvent_runs (h : Sound s) (hr : r ∈ s.requests) :
    Runs (writeBackDoneEvent r) s
      (fun _ s' => (∃ d n, r.state = .writingBack d n ∧ Move r .finished [] s s') ∨
        ∃ d n l pairs, r.state = .retracting d n l pairs ∧ Move r (.retracted n l) [] s s')
      (fun e s' => s' = s ∧ (∃ x, e = .exception x) ∧ (∀ d n, r.state ≠ .writingBack d n) ∧
        ∀ d n l pairs, r.state ≠ .retracting d n l pairs) := by
  have hsplit := h.split hr
  unfold writeBackDoneEvent
  cases hst : r.state with
  | writingBack d n =>
    rw [hst] at hsplit
    have hheld : KVInv s.kv (hold (fun t => if t = .device then d.toList else [])
        (pin .host n (refsOf (others r.id s.requests)))) (ownedOf (others r.id s.requests)) := by
      refine hsplit.congr (fun t => ?_) (fun t => ?_)
      · cases t <;> simp [hold,pin,RequestState.nodeRefs]
      · simp [RequestState.localAllocatorPages]
    refine onKV_bind ?_
    refine (demoteWrittenBackDevice_returns hheld).bind ?_
    rintro _ kv₁ ⟨hk₁,hch₁⟩
    refine (unlock_returns hk₁).runs ?_
    rintro _ kv₂ ⟨hk₂,hc₂⟩
    rw [runs_setState]
    refine Or.inl ⟨d,n,rfl,Move.of_kv h hr rfl rfl rfl rfl (hk₂.congr (fun t => ?_) (fun t => ?_))
      ((hch₁.mono (le_pin _ _ _)).calm_right hc₂) ⟨?_,?_⟩⟩
    · simp [hold,RequestState.nodeRefs]
    · simp [RequestState.localAllocatorPages]
    · simp [RequestState.forward?]
    · simp [RequestState.local?]
  | retracting d n l pairs =>
    rw [hst] at hsplit
    have hheld : KVInv s.kv (hold (fun t => if t = .device then d.toList else [])
        (pin .host n (refsOf (others r.id s.requests))))
        (own .device l.pages (ownedOf (others r.id s.requests))) := by
      refine hsplit.congr (fun t => ?_) (fun t => rfl)
      cases t <;> simp [hold,pin,RequestState.nodeRefs]
    refine onKV_bind ((demoteWrittenBackDevice_returns hheld).runs ?_)
    rintro _ kv₁ ⟨hk₁,hch₁⟩
    rw [runs_setState]
    refine Or.inr ⟨d,n,l,pairs,rfl,Move.of_kv h hr rfl rfl rfl rfl (hk₁.congr (fun t => ?_)
      (fun t => rfl)) (hch₁.mono (le_pin _ _ _)) ⟨?_,?_⟩⟩
    · cases t <;> simp [hold,pin,RequestState.nodeRefs]
    · simp [RequestState.forward?]
    · intro l' hl'
      refine (h.requests r hr).tail l' ?_
      rw [hst]
      exact hl'
  | submitted | prefilling | prefillDone | decoding | draining | retracted | finished =>
    exact ⟨rfl,⟨_,rfl⟩,by simp,by simp⟩

theorem findRequest_some {id : RequestId} (h : s.findRequest id = some r) :
    r ∈ s.requests ∧ r.id = id := by
  unfold Scheduler.findRequest at h
  exact ⟨List.mem_of_find?_eq_some h,by simpa using List.find?_some h⟩

/-- What the handler of an event does, whatever state the event finds. -/
theorem onRequest_runs {id : RequestId} {g : Request → Sched Unit} {Q : Unit → Scheduler → Prop}
    {E : Fault → Scheduler → Prop} (hnone : Q ⟨⟩ s)
    (hsome : ∀ r ∈ s.requests, r.id = id → Runs (g r) s Q E) : Runs (onRequest id g) s Q E := by
  unfold onRequest
  rw [runs_bind,runs_get]
  cases hf : s.findRequest id with
  | none => exact hnone
  | some r => exact hsome r (findRequest_some hf).1 (findRequest_some hf).2

theorem extendResultEvent_runs (hr : r ∈ s.requests) (tokens : List Token) :
    Runs (extendResultEvent r tokens) s
      (fun _ s' => ∃ ls, Steps s ls s' ∧ ∀ ℓ ∈ ls, ℓ.isInternal) (Stops Label.isInternal s) := by
  have hstep : r.state ≠ .submitted → Steps s [.internal []]
      (s.updateRequest r.id fun r => { r with tokens := r.tokens ++ tokens }) :=
    fun hst => Steps.single (.extend hr hst)
  have hls : ∀ ℓ ∈ [Label.internal []], ℓ.isInternal := by simp [Label.isInternal]
  unfold extendResultEvent
  cases hst : r.state with
  | prefillDone | retracting | retracted => exact ⟨_,hstep (by simp [hst]),hls⟩
  | decoding f n =>
    simp only [extendTokens]
    rw [runs_bind,runs_modify]
    split
    · exact ⟨_,hstep (by simp [hst]),hls⟩
    · exact ⟨_,hstep (by simp [hst]),hls⟩
  | finished => exact ⟨[],.nil,by simp⟩
  | submitted | prefilling | draining | writingBack => exact ⟨[],.nil,by simp⟩

theorem updateReserveNumTokensEvent_runs (h : Sound s) (hr : r ∈ s.requests) (n : Int) :
    Runs (updateReserveNumTokensEvent r n) s
      (fun _ s' => ∃ ls, Steps s ls s' ∧ ∀ ℓ ∈ ls, ℓ.isInternal) (Stops Label.isInternal s) := by
  unfold updateReserveNumTokensEvent
  cases hst : r.state with
  | decoding f m =>
    rw [runs_setState]
    have hf : r.state.forward? = some f := by rw [hst]; rfl
    have hsplit := h.split hr
    rw [localAllocatorPages_of_forward hf] at hsplit
    have hmove : Move r (.decoding f n) [] s (s.withState r.id (.decoding f n)) := by
      refine h.forward_move hr hf rfl rfl rfl hsplit (Change.refl _ _) (fun l hl => ?_) rfl rfl rfl rfl
      exact (h.requests r hr).tail l (by rw [local_of_forward hf]; exact hl)
    exact ⟨_,Steps.single (.forward (Or.inr ⟨f,hf⟩) rfl hmove (loadsFrom_nil _)),
      by simp [Label.isInternal]⟩
  | retracting | retracted | finished => exact ⟨[],.nil,by simp⟩
  | submitted | prefilling | prefillDone | draining | writingBack => exact ⟨[],.nil,by simp⟩

theorem Sound.untracked (h : Sound s) (opId : CacheOpId) : Sound (s.untracked opId) :=
  h.of_eq rfl rfl rfl

theorem handleWriteBackDone_runs (h : Sound s) (opId : CacheOpId) :
    Runs (handleWriteBackDone opId) s
      (fun _ s' => ∃ ls, Steps s ls s' ∧ ∀ ℓ ∈ ls, ℓ = .complete opId)
      (Stops (fun ℓ => ℓ = .complete opId) s) := by
  unfold handleWriteBackDone
  rw [runs_bind,runs_get]
  cases hl : s.cacheOpTracker.lookup opId with
  | none => exact ⟨[],.nil,by simp⟩
  | some id =>
    dsimp only
    rw [runs_bind,eraseOp,runs_modify]
    change Runs _ (s.untracked opId) _ _
    have hone : ∀ ℓ ∈ [Label.complete opId], ℓ = .complete opId := by simp
    by_cases hid : id = []
    · rw [if_neg (by simp [hid])]
      exact ⟨_,Steps.single (.ignored hl (Or.inl hid)),hone⟩
    rw [if_pos (by simpa using hid)]
    unfold onRequest
    rw [runs_bind,runs_get]
    cases hf : (s.untracked opId).findRequest id with
    | none =>
      refine ⟨_,Steps.single (.ignored hl (Or.inr fun x hx hxid => ?_)),hone⟩
      have hnot := List.find?_eq_none.mp hf x hx
      simp [hxid] at hnot
    | some r =>
      obtain ⟨hr,rfl⟩ := findRequest_some hf
      refine (writeBackDoneEvent_runs (h.untracked opId) hr).imp ?_ ?_
      · rintro _ s' (⟨d,n,hst,hm⟩ | ⟨d,n,l,pairs,hst,hm⟩)
        · exact ⟨_,Steps.single (.written hl hst hm),hone⟩
        · exact ⟨_,Steps.single (.retracted hl hst hm),hone⟩
      · rintro e s' ⟨rfl,⟨x,rfl⟩,hw,hret⟩
        refine ⟨_,Steps.single (.ignored hl (Or.inr fun y hy hyid => ?_)),hone⟩
        have hyr : y = r := List.inj_on_of_nodup_map h.ids hy hr hyid
        rw [hyr]
        exact ⟨hw,hret⟩

/-- Every event is a sequence of transitions that shows its own label at most. -/
theorem handleEvent_runs (h : Sound s) (ev : Event) :
    Runs (handleEvent ev) s (fun _ s' => ∃ ls, Steps s ls s' ∧ ∀ ℓ ∈ ls, ev.Shows ℓ)
      (Stops ev.Shows s) := by
  have hnone : ∃ ls, Steps s ls s ∧ ∀ ℓ ∈ ls, ev.Shows ℓ := ⟨[],.nil,by simp⟩
  have hinternal : ∀ {x : Sched Unit},
      Runs x s (fun _ s' => ∃ ls, Steps s ls s' ∧ ∀ ℓ ∈ ls, ℓ.isInternal)
        (Stops Label.isInternal s) →
      Runs x s (fun _ s' => ∃ ls, Steps s ls s' ∧ ∀ ℓ ∈ ls, ev.Shows ℓ) (Stops ev.Shows s) := by
    intro x hx
    refine hx.imp ?_ fun _ _ hs => hs.mono fun ℓ => Event.shows_internal
    rintro _ s' ⟨ls,hs,hls⟩
    exact ⟨ls,hs,fun ℓ hℓ => Event.shows_internal (hls ℓ hℓ)⟩
  cases ev with
  | extendResult id tokens =>
    exact onRequest_runs hnone fun r hr _ => hinternal (extendResultEvent_runs hr tokens)
  | updateReserveNumTokens id n =>
    exact onRequest_runs hnone fun r hr _ => hinternal (updateReserveNumTokensEvent_runs h hr n)
  | finish id =>
    refine onRequest_runs hnone fun r hr hid => ?_
    rw [← hid]
    exact finishEvent_runs h hr
  | abort id =>
    refine onRequest_runs hnone fun r hr hid => (abortEvent_runs h hr).imp ?_ ?_
    · rintro _ s' ⟨hw,hm | ⟨_,rfl⟩⟩
      · exact ⟨_,Steps.single (.aborted hw hm),by simp [Event.Shows,hid]⟩
      · exact hnone
    · rintro e s' ⟨rfl,⟨x,rfl⟩,_⟩
      exact hnone
  | writeBackDone opId ok =>
    refine (handleWriteBackDone_runs h opId).imp ?_ fun _ _ hs => hs.mono fun ℓ hℓ => ?_
    · rintro _ s' ⟨ls,hs,hls⟩
      refine ⟨ls,hs,fun ℓ hℓ => ?_⟩
      rw [hls ℓ hℓ]
      rfl
    · rw [hℓ]
      rfl
  | prefetchDone opId id ok pages =>
    exact ⟨_,Steps.single (.untrack opId),by simp [Event.Shows]⟩

end FluxServe
