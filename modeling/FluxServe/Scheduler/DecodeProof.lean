import FluxServe.Scheduler.FirstChunkProof

namespace FluxServe

open KVPrefixCache

variable {s s' : Scheduler} {r : Request} {f g : ForwardState} {st st' : RequestState}
  {l l' : LocalKVAllocator} {remaining : Int} {w : Window} {kv' : KVPrefixCache}

theorem nodeRefs_of_forward (hf : st.forward? = some f) (t : ResourceType) :
    st.nodeRefs t = nodePair (f.hostNodeRef,f.deviceNodeRef) t := by
  cases st <;> simp [RequestState.forward?] at hf <;> subst hf <;> cases t <;> rfl

theorem localAllocatorPages_of_forward (hf : st.forward? = some f) :
    st.localAllocatorPages = (f.localKVAllocator.map LocalKVAllocator.pages).getD [] := by
  cases st <;> simp [RequestState.forward?] at hf <;> subst hf <;> rfl

theorem local_of_forward (hf : st.forward? = some f) : st.local? = f.localKVAllocator := by
  cases st <;> simp [RequestState.forward?] at hf <;> subst hf <;> rfl

/-- Only the local allocator of a forward state changes. -/
theorem Sound.forward_move (h : Sound s) (hr : r ∈ s.requests) (hf : r.state.forward? = some f)
    (hg : st'.forward? = some g) (hh : g.hostNodeRef = f.hostNodeRef)
    (hd : g.deviceNodeRef = f.deviceNodeRef)
    (hkv : KVInv s'.kv (hold (fun t => r.state.nodeRefs t) (refsOf (others r.id s.requests)))
      (own .device ((g.localKVAllocator.map LocalKVAllocator.pages).getD [])
        (ownedOf (others r.id s.requests))))
    (hc : Change (hold (fun t => r.state.nodeRefs t) (refsOf (others r.id s.requests))) []
      s.kv s'.kv)
    (htail : ∀ l, g.localKVAllocator = some l → 0 ≤ l.tailPageAvailableTokens)
    (hconf : s'.config = s.config) (hreq : s'.requests = (s.withState r.id st').requests)
    (htr : s'.cacheOpTracker = s.cacheOpTracker) (hret : s'.retractions = s.retractions) :
    Move r st' [] s s' := by
  refine Move.of_kv h hr hconf hreq htr hret ?_ (hc.mono (le_hold _ _)) ⟨fun f' hf' => ?_,?_⟩
  · refine hkv.congr (fun t => ?_) (fun t => ?_)
    · unfold hold
      dsimp only
      rw [nodeRefs_of_forward hg,nodeRefs_of_forward hf,hh,hd]
    · rw [localAllocatorPages_of_forward hg]
  · rw [hg] at hf'
    cases hf'
    have hmem := deviceNodeRef_mem hf
    obtain ⟨n,hn⟩ := h.kv.live (mem_refsOf.mpr ⟨r,hr,hmem⟩)
    obtain ⟨n',hn'⟩ := hkv.live_of_hold hmem
    rw [hd,hc.evolves.tokens hn hn',hc.evolves.pageSize]
    exact (h.requests r hr).path f hf
  · intro l hl
    rw [local_of_forward hg] at hl
    exact htail l hl

/-- What making room for device pages does to the scheduler. -/
structure MakesRoom (s : Scheduler) (num : Int) (ensured : Bool) (s' : Scheduler) : Prop where
  move : CacheMove s s'
  ages : Ages s.kv s'.kv
  freeSlots : s'.freeSlots = s.freeSlots
  shrinks : Shrinks .device s.kv s'.kv
  capacity : ensured = true ↔ num ≤ s.kv.capacity .device
  available : ensured = true ↔ num ≤ s'.kv.availablePages .device
  loadedBack : s'.kv.loadedBack = s.kv.loadedBack

theorem ensureDevice_returns (h : Sound s) (num : Int) :
    Returns (onKV (ensureCapacityByEvict .device num)) s (MakesRoom s num) := by
  unfold Returns
  rw [runs_onKV]
  have hrec : KeepsRecord (ensureCapacityByEvict .device num) :=
    record_rule.follows_ensureCapacityByEvict num
  apply ((ensureCapacityByEvict_returns num h.kv).keeps hrec).runs
  rintro ensured kv₁ ⟨⟨hk,he,hs,_,hens,hav⟩,hl⟩
  exact ⟨CacheMove.of_change h hk (Change.of_shrinks he hs h.kv hk),Ages.of_shrinks hs he,rfl,hs,
    hens,hav,hl⟩

theorem schedulePrefill_returns (h : Sound s) (r : Request) (w : Window) (remaining : Int) :
    Returns (schedulePrefill r w remaining) s (fun o s' => ∃ ensured,
      MakesRoom s (pagesFor (min remaining (r.unscheduledPrefillSize w)) s.config.pageSize)
        ensured s' ∧
      o = if ensured then some (min remaining (r.unscheduledPrefillSize w)) else none) := by
  unfold Returns schedulePrefill
  rw [runs_bind,runs_get]
  refine (ensureDevice_returns h _).bind fun ensured s₁ h₁ => ?_
  cases ensured
  · exact ⟨false,h₁,rfl⟩
  · exact ⟨true,h₁,rfl⟩

theorem takeLocal_runs {α : Type} {k : LocalKVAllocator → Sched α} {Q : α → Scheduler → Prop}
    {E : Fault → Scheduler → Prop} (hE : f.localKVAllocator = none → E (.undefined .nullLocalAllocator) s)
    (hk : ∀ l, f.localKVAllocator = some l → Runs (k l) s Q E) :
    Runs (onKV (takeLocal f) >>= k) s Q E := by
  refine onKV_bind ?_
  unfold takeLocal
  cases hl : f.localKVAllocator with
  | some l => exact hk l hl
  | none => exact hE hl

theorem scheduleDecode_runs (h : Sound s) (f : ForwardState) (reserve : Int) (asserted : Bool) :
    Runs (scheduleDecode f reserve asserted) s
      (fun ensured s' => ∃ l, f.localKVAllocator = some l ∧
        MakesRoom s (pagesFor (max 0 (reserve-l.tailPageAvailableTokens)) s.config.pageSize)
          ensured s')
      (fun e s' => s' = s ∧ (f.localKVAllocator = none ∧ e = .undefined .nullLocalAllocator ∨
        (asserted = true ∧ reserve < 0) ∧ e = .exception .negativeReserve)) := by
  unfold scheduleDecode
  cases hl : f.localKVAllocator with
  | none =>
    refine onKV_bind ?_
    rw [takeLocal,hl]
    exact ⟨rfl,Or.inl ⟨rfl,rfl⟩⟩
  | some l =>
    refine onKV_bind ?_
    rw [takeLocal,hl]
    change Runs _ s _ _
    split
    · next hneg => exact ⟨rfl,Or.inr ⟨hneg,rfl⟩⟩
    · rw [runs_bind,runs_get]
      refine (ensureDevice_returns h _).runs fun ensured s₁ h₁ => ?_
      exact ⟨l,rfl,h₁⟩

/-- A forward state with pages acquired for more tokens. -/
structure Extended (s : Scheduler) (r : Request) (f : ForwardState) (l : LocalKVAllocator)
    (num : Int) (l' : LocalKVAllocator) (kv' : KVPrefixCache) : Prop where
  acquired : ∃ new, Acquired l num s.config.pageSize new l' ∧
    s.kv.availablePages .device = kv'.availablePages .device+new.length
  step : AllocStep .device s.kv kv'
  loadedBack : kv'.loadedBack = s.kv.loadedBack
  move : ∀ st' s', st'.forward? = some { f with localKVAllocator := some l' } → s'.kv = kv' →
    s'.config = s.config → s'.requests = (s.withState r.id st').requests →
    s'.cacheOpTracker = s.cacheOpTracker → s'.retractions = s.retractions → Move r st' [] s s'

theorem acquire_extends (h : Sound s) (hr : r ∈ s.requests) (hf : r.state.forward? = some f)
    (hl : f.localKVAllocator = some l) (num : Int)
    (hav : acquireNeeds l num s.config.pageSize ≤ s.kv.availablePages .device) :
    Returns (acquire l num) s.kv (Extended s r f l num) := by
  have hsplit := h.split hr
  have hpages : r.state.localAllocatorPages = l.pages := by
    rw [localAllocatorPages_of_forward hf,hl]
    rfl
  rw [hpages] at hsplit
  unfold Returns
  refine ((acquire_runs hsplit num).keeps (keepsRecord_acquire l num)).imp ?_ ?_
  · rintro l' kv₁ ⟨⟨hk,hch,hs,new,ha,hnew⟩,hrec⟩
    rw [h.pageSize] at ha
    refine ⟨⟨new,ha,hnew⟩,hs,hrec,fun st' s' hst' hkv hconf hreq htr hret => ?_⟩
    refine h.forward_move hr hf hst' rfl rfl (by rw [hkv]; exact hk) (by rw [hkv]; exact hch) ?_
      hconf hreq htr hret
    intro l'' hl''
    cases hl''
    exact ha.nonneg
  · rintro e kv₁ ⟨⟨_,_,_,_,hless⟩,_⟩
    rw [h.pageSize] at hless
    omega

theorem applyPrefill_runs (h : Sound s) (hr : r ∈ s.requests) (hst : r.state = .prefilling f w)
    (num : Int) (hpages : pagesFor num s.config.pageSize ≤ s.kv.availablePages .device) :
    Runs (applyPrefill r f w num) s
      (fun _ s' => ∃ l l', f.localKVAllocator = some l ∧ Extended s r f l num l' s'.kv ∧
        Move r (firstChunkState s.config r { f with localKVAllocator := some l' }
          ⟨w.start+w.size,num⟩) [] s s' ∧ s'.freeSlots = s.freeSlots)
      (fun e s' => s' = s ∧ e = .undefined .nullLocalAllocator ∧ f.localKVAllocator = none) := by
  have hf : r.state.forward? = some f := by rw [hst]; rfl
  unfold applyPrefill
  refine takeLocal_runs (fun hn => ⟨rfl,rfl,hn⟩) fun l hl => onKV_bind ?_
  have hps := h.kv.inv.tree.pageSize_pos
  rw [h.pageSize] at hps
  have htail : 0 ≤ l.tailPageAvailableTokens :=
    (h.requests r hr).tail l (by rw [local_of_forward hf]; exact hl)
  refine (acquire_extends h hr hf hl num (acquireNeeds_le hps htail (by omega) hpages)).runs
    fun l' kv₁ hext => ?_
  dsimp only
  by_cases heq : w.start+w.size+num = r.prefillSize
  · rw [if_pos heq,runs_bind,runs_get,runs_setState]
    refine ⟨l,l',hl,hext,hext.move _ _ ?_ rfl rfl ?_ rfl rfl,rfl⟩
    · simp [firstChunkState,heq,RequestState.forward?]
    · simp only [firstChunkState,heq,if_true]
      rfl
  · rw [if_neg heq,runs_setState]
    refine ⟨l,l',hl,hext,hext.move _ _ ?_ rfl rfl ?_ rfl rfl,rfl⟩
    · simp [firstChunkState,heq,RequestState.forward?]
    · simp only [firstChunkState,heq,if_false]
      rfl

theorem applyDecode_runs (h : Sound s) (hr : r ∈ s.requests) (hf : r.state.forward? = some f)
    (hl : f.localKVAllocator = some l) (reserve : Int)
    (hpages : acquireNeeds l reserve s.config.pageSize ≤ s.kv.availablePages .device) :
    Returns (applyDecode r f reserve) s
      (fun _ s' => ∃ l', Extended s r f l reserve l' s'.kv ∧
        Move r (.decoding { f with localKVAllocator := some l' } s.config.decodeInputTokens) [] s s' ∧
        s'.freeSlots = s.freeSlots) := by
  unfold Returns applyDecode
  refine onKV_bind ?_
  rw [takeLocal,hl]
  change Runs _ s _ _
  refine onKV_bind ?_
  refine (acquire_extends h hr hf hl reserve hpages).runs fun l' kv₁ hext => ?_
  rw [runs_bind,runs_get,runs_setState]
  exact ⟨l',hext,hext.move _ _ rfl rfl rfl rfl rfl rfl,rfl⟩

end FluxServe
