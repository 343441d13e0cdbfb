import FluxServe.Scheduler.AllotsRule
import FluxServe.Scheduler.RowsProof

namespace FluxServe

open KVPrefixCache

variable {s s₁ s' : Scheduler} {r : Request} {f : ForwardState} {l l' : LocalKVAllocator} {w : Window}
  {a a' : Forwarding} {nodes : List NodeId} {num reserve : Int} {ensured : Bool}

/-- What `pushLoadBack` adds to a plan: an operation for the nodes, if there are any. -/
inductive LoadsBack (a : Forwarding) (nodes : List NodeId) (s : Scheduler) :
    Forwarding → Scheduler → Prop
  | nothing (empty : nodes = []) : LoadsBack a nodes s a s
  | operation (some : nodes ≠ []) : LoadsBack a nodes s
      { a with loadbackOps :=
          a.loadbackOps ++ [⟨s.kv.nextOpId % 2^32,pairsOf .host s.kv.tree nodes⟩] }
      { s with kv := { s.kv with nextOpId := s.kv.nextOpId+1 } }

theorem pushLoadBack_returns (h : ∀ j ∈ nodes, ∀ t, hasResource t s.kv.tree j = true)
    (a : Forwarding) : Returns (pushLoadBack a nodes) s (LoadsBack a nodes s) := by
  unfold Returns pushLoadBack
  by_cases hn : nodes = []
  · rw [if_pos (by simp [hn])]
    exact .nothing hn
  · rw [if_neg (by simpa using hn)]
    refine onKV_bind ?_
    change Runs _ { s with kv := { s.kv with nextOpId := s.kv.nextOpId+1 } } _ _
    refine onKV_bind ?_
    let kv₁ : KVPrefixCache := { s.kv with nextOpId := s.kv.nextOpId+1 }
    have h₁ : ∀ j ∈ nodes, ∀ t, hasResource t kv₁.tree j = true := h
    refine (transferPairs_returns h₁).runs ?_
    rintro pairs kv' ⟨rfl,rfl⟩
    exact .operation hn

/-- A decode step that was made. -/
structure Decodes (s : Scheduler) (r : Request) (f : ForwardState) (l : LocalKVAllocator)
    (reserve : Int) (s₁ : Scheduler) (l' : LocalKVAllocator) (s' : Scheduler) : Prop where
  room : MakesRoom s (pagesFor (max 0 (reserve-l.tailPageAvailableTokens)) s.config.pageSize) true s₁
  extended : Extended s₁ r f l reserve l' s'.kv
  move : Move r (.decoding { f with localKVAllocator := some l' } s.config.decodeInputTokens) [] s₁ s'
  freeSlots : s'.freeSlots = s.freeSlots

/-- A decode step is made if the pool can give its pages, else only room was made. -/
theorem forwardDecode_runs (h : Sound s) (hr : r ∈ s.requests) (hf : r.state.forward? = some f)
    (a : Forwarding) (reserve : Int) (asserted : Bool) :
    Runs (forwardDecode.decode a r.id r f reserve asserted) s
      (fun a' s' => ∃ l, f.localKVAllocator = some l ∧
        ((a' = a ∧ MakesRoom s (pagesFor (max 0 (reserve-l.tailPageAvailableTokens))
            s.config.pageSize) false s') ∨
          ∃ s₁ l', Decodes s r f l reserve s₁ l' s' ∧
            a' = a.push (decodeRow s' r { f with localKVAllocator := some l' } l'
              (rowPages s₁.kv f l).length)))
      (fun e s' => s' = s ∧ (f.localKVAllocator = none ∧ e = .undefined .nullLocalAllocator ∨
        (asserted = true ∧ reserve < 0) ∧ e = .exception .negativeReserve)) := by
  unfold forwardDecode.decode
  refine Runs.bind (scheduleDecode_runs h f reserve asserted) ?_
  rintro ensured s₁ ⟨l,hl,hroom⟩
  cases ensured with
  | false => exact ⟨l,hl,Or.inl ⟨rfl,hroom⟩⟩
  | true =>
    rw [if_pos rfl]
    have hsound := hroom.move.sound
    have hr₁ : r ∈ s₁.requests := hroom.move.requests ▸ hr
    have hps := h.kv.inv.tree.pageSize_pos
    rw [h.pageSize] at hps
    refine occupiedPages_bind hsound hr₁ hf hl ?_
    have hneeds : acquireNeeds l reserve s₁.config.pageSize ≤ s₁.kv.availablePages .device := by
      rw [hroom.move.config]
      exact (scheduleDecode_needs hps reserve _).mp (hroom.available.mp rfl)
    refine (applyDecode_runs hsound hr₁ hf hl reserve hneeds).bind ?_
    rintro _ s₂ ⟨l',hext,hmove,hslots⟩
    rw [hroom.move.config] at hmove
    have hop := decodeOperation_returns hmove.sound hmove.found' rfl rfl (rowPages s₁.kv f l).length
    refine hop.bind ?_
    rintro op s₃ ⟨rfl,rfl⟩
    exact ⟨l,hl,Or.inr ⟨s₁,l',⟨hroom,hext,hmove,hslots.trans hroom.freeSlots⟩,rfl⟩⟩

/-- A further chunk of a prompt that was scheduled. -/
structure Chunks (s : Scheduler) (r : Request) (f : ForwardState) (w : Window) (num : Int)
    (l : LocalKVAllocator) (s₁ : Scheduler) (l' : LocalKVAllocator) (s' : Scheduler) : Prop where
  before : r.state = .prefilling f w
  localAllocator : f.localKVAllocator = some l
  nonneg : 0 ≤ num
  room : MakesRoom s (pagesFor num s.config.pageSize) true s₁
  extended : Extended s₁ r f l num l' s'.kv
  move : Move r (firstChunkState s.config r { f with localKVAllocator := some l' }
    ⟨w.start+w.size,num⟩) [] s₁ s'
  freeSlots : s'.freeSlots = s.freeSlots

theorem firstChunkState_forward (c : SchedulerConfig) (r : Request) (f : ForwardState) (w : Window) :
    (firstChunkState c r f w).forward? = some f := by
  unfold firstChunkState
  split <;> rfl

theorem firstChunkState_window (c : SchedulerConfig) (r : Request) (f : ForwardState) (w : Window) :
    firstChunkState c r f w = .prefilling f w ∨ ∃ n, firstChunkState c r f w = .prefillDone f w n := by
  unfold firstChunkState
  split
  · exact Or.inr ⟨_,rfl⟩
  · exact Or.inl rfl

theorem forwardPrefill_runs (h : Sound s) (hr : r ∈ s.requests) (hst : r.state = .prefilling f w)
    (a : Forwarding) :
    Runs (forwardPrefill a r f w) s
      (fun a' s' =>
        (a' = a ∧ MakesRoom s (pagesFor (min a.tokenBudget (r.unscheduledPrefillSize w))
            s.config.pageSize) false s') ∨
        ∃ l s₁ l', Chunks s r f w (min a.tokenBudget (r.unscheduledPrefillSize w)) l s₁ l' s' ∧
          a' = a.push (prefillRow s' r { f with localKVAllocator := some l' } l'
            ⟨w.start+w.size,min a.tokenBudget (r.unscheduledPrefillSize w)⟩ (rowPages s₁.kv f l).length))
      (fun e s' => Stops Label.isInternal s e s' ∧
        (f.localKVAllocator = none ∧ e = .undefined .nullLocalAllocator ∨
          min a.tokenBudget (r.unscheduledPrefillSize w) < 0)) := by
  have hf : r.state.forward? = some f := by rw [hst]; rfl
  unfold forwardPrefill
  refine (schedulePrefill_returns h r w a.tokenBudget).bind ?_
  rintro o s₁ ⟨ensured,hroom,rfl⟩
  cases ensured with
  | false => exact Or.inl ⟨rfl,hroom⟩
  | true =>
    have hsound := hroom.move.sound
    have hr₁ : r ∈ s₁.requests := hroom.move.requests ▸ hr
    simp only [if_true]
    cases hl : f.localKVAllocator with
    | none =>
      refine onKV_bind ?_
      have hd : f.deviceNodeRef ∈ refsOf s₁.requests .device :=
        mem_refsOf.mpr ⟨r,hr₁,deviceNodeRef_mem hf⟩
      obtain ⟨⟨n,hn⟩,hres⟩ := (hsound.kv.inv.tier .device).pinned hd
      unfold occupiedPages
      refine devicePagesFromRoot_bind hn hres ?_
      rw [hl]
      exact ⟨(by decide : Undefined.nullLocalAllocator ≠ .unlockNullResource),Or.inl ⟨rfl,rfl⟩⟩
    | some l =>
      refine occupiedPages_bind hsound hr₁ hf hl ?_
      have hpages := hroom.available.mp rfl
      rw [← hroom.move.config] at hpages
      refine Runs.bind ((applyPrefill_runs hsound hr₁ hst _ hpages).imp (fun _ _ hq => hq) ?_) ?_
      · rintro e s' ⟨_,_,hno⟩
        rw [hl] at hno
        cases hno
      · rintro _ s₂ ⟨l₀,l',hl₀,hext,hmove,hslots⟩
        rw [hl] at hl₀
        cases hl₀
        rw [hroom.move.config] at hmove
        have hfwd := firstChunkState_forward s.config r { f with localKVAllocator := some l' }
          ⟨w.start+w.size,min a.tokenBudget (r.unscheduledPrefillSize w)⟩
        have hwin := firstChunkState_window s.config r { f with localKVAllocator := some l' }
          ⟨w.start+w.size,min a.tokenBudget (r.unscheduledPrefillSize w)⟩
        refine Runs.bind ((prefillOperation_runs hmove.sound hmove.found' hfwd rfl hwin
          (rowPages s₁.kv f l).length).imp (fun _ _ hq => hq) ?_) ?_
        · rintro e s' ⟨rfl,rfl,hneg⟩
          refine ⟨⟨_,hroom.move.steps.append (Steps.single (.forward (Or.inr ⟨f,hf⟩) hfwd hmove
            (loadsFrom_nil _))),?_⟩,Or.inr hneg⟩
          simp [Label.isInternal]
        · rintro op s₃ ⟨rfl,rfl,hpos⟩
          exact Or.inr ⟨l,s₁,l',⟨hst,hl,hpos,hroom,hext,hmove,hslots.trans hroom.freeSlots⟩,rfl⟩

/-- A first chunk that is offered, in the room made for it. -/
structure Offered (s : Scheduler) (r : Request) (budget : Int) (s₁ : Scheduler)
    (ev : FirstChunkEvent) : Prop where
  room : CacheMove s s₁
  ages : Ages s.kv s₁.kv
  offer : FirstOffer s₁ r budget ev
  weighed : ∃ kv₁ kvl, Weighed s (r.fullPagedTokens s.config.pageSize true) .prefixReuse
      ev.matchResult kv₁ kvl ∧
    firstChunkNeeds s.config r budget kv₁.tree ev.matchResult ≤ kvl.capacity .device ∧
    ∀ t, nodeDepth s₁.kv.tree (ev.matchResult.last t) = nodeDepth kv₁.tree (ev.matchResult.last t)

/-- The first chunk of a prompt: the room that was made, the offer and the chunk. -/
structure Begins (s : Scheduler) (r : Request) (budget : Int) (s₁ : Scheduler) (ev : FirstChunkEvent)
    (f : ForwardState) (w : Window) (l : LocalKVAllocator) (s' : Scheduler) : Prop where
  before : r.state = .submitted
  room : CacheMove s s₁
  ages : Ages s.kv s₁.kv
  offer : FirstOffer s₁ r budget ev
  weighed : ∃ kv₁ kvl, Weighed s (r.fullPagedTokens s.config.pageSize true) .prefixReuse
      ev.matchResult kv₁ kvl ∧
    firstChunkNeeds s.config r budget kv₁.tree ev.matchResult ≤ kvl.capacity .device ∧
    ∀ t, nodeDepth s₁.kv.tree (ev.matchResult.last t) = nodeDepth kv₁.tree (ev.matchResult.last t)
  freeSlots : s₁.freeSlots = s.freeSlots
  chunk : FirstChunk s₁ r ev f w s'
  localAllocator : f.localKVAllocator = some l
  loadedBack : s₁.kv.loadedBack = s.kv.loadedBack

/-- Why a first chunk was not scheduled. -/
def FirstShort (s : Scheduler) (r : Request) (budget : Int) : Prop :=
  s.freeSlots = [] ∨ ∃ m kv₁ kvl,
    Weighed s (r.fullPagedTokens s.config.pageSize true) .prefixReuse m kv₁ kvl ∧
    (kvl.capacity .device : Int) < firstChunkNeeds s.config r budget kv₁.tree m

/-- What becomes of a first chunk: its row; or, when nothing is left to prefill, the first decode
step, made or not. The load-back comes last. -/
inductive FirstVisit (s : Scheduler) (a : Forwarding) (r : Request) : Forwarding → Scheduler → Prop
  | short {s' : Scheduler} (room : CacheMove s s') (ages : Ages s.kv s'.kv)
      (freeSlots : s'.freeSlots = s.freeSlots) (short : FirstShort s r a.tokenBudget)
      (loadedBack : s'.kv.loadedBack = s.kv.loadedBack) :
      FirstVisit s a r a s'
  | row {s₁ s₂ s' : Scheduler} {ev : FirstChunkEvent} {f : ForwardState} {w : Window}
      {l : LocalKVAllocator} {a' : Forwarding} (begins : Begins s r a.tokenBudget s₁ ev f w l s₂)
      (pos : 0 < w.size)
      (loads : LoadsBack (a.push (prefillRow s₂ r f l w 0)) ev.loadbackDiff s₂ a' s') :
      FirstVisit s a r a' s'
  | decoded {s₁ s₂ s₃ s₄ s' : Scheduler} {ev : FirstChunkEvent} {f : ForwardState} {w : Window}
      {l l' : LocalKVAllocator} {a' : Forwarding}
      (begins : Begins s r a.tokenBudget s₁ ev f w l s₂) (zero : w.size = 0)
      (state : firstChunkState s.config r f w = .prefillDone f w s.config.decodeInputTokens)
      (decodes : Decodes s₂ { r with state := firstChunkState s.config r f w } f l
        s.config.decodeInputTokens s₃ l' s₄)
      (loads : LoadsBack (a.push (decodeRow s₄ r { f with localKVAllocator := some l' } l'
        (rowPages s₃.kv f l).length)) ev.loadbackDiff s₄ a' s') : FirstVisit s a r a' s'
  | stuck {s₁ s₂ s₃ s' : Scheduler} {ev : FirstChunkEvent} {f : ForwardState} {w : Window}
      {l : LocalKVAllocator} {a' : Forwarding}
      (begins : Begins s r a.tokenBudget s₁ ev f w l s₂) (zero : w.size = 0)
      (room : s₃ = s₂ ∨ MakesRoom s₂ (pagesFor (max 0 (s.config.decodeInputTokens-
        l.tailPageAvailableTokens)) s.config.pageSize) false s₃)
      (loads : LoadsBack a ev.loadbackDiff s₃ a' s') : FirstVisit s a r a' s'

/-- What making room leaves of the nodes a load-back is for. -/
theorem Begins.resident {s₁ s₂ : Scheduler} {ev : FirstChunkEvent} {budget : Int}
    (h : Begins s r budget s₁ ev f w l s₂) {j : NodeId} (hj : j ∈ ev.loadbackDiff) (t : ResourceType) :
    hasResource t s₂.kv.tree j = true := by
  have hsound := h.chunk.move.sound
  have hfwd := firstChunkState_forward s₁.config r f w
  have hd : f.deviceNodeRef ∈ refsOf s₂.requests .device :=
    mem_refsOf.mpr ⟨_,h.chunk.move.found',deviceNodeRef_mem hfwd⟩
  cases t with
  | device => exact ((hsound.kv.inv.tier .device).pinned hd).2 j (h.chunk.path hj)
  | host =>
    obtain ⟨x,hm⟩ := h.offer.matched
    have hT := h.room.sound.kv.inv.tree
    rw [h.chunk.shape.hasResource_eq]
    rw [h.offer.diff] at hj
    split at hj
    · cases hj
    · exact hm.path hT .host j ((between_of_matched hm hT .device).path hj)

/-- The nodes of a load-back keep their pages while room is made for the decode that follows. -/
theorem Begins.nodePages_eq {s₁ s₂ s₃ : Scheduler} {ev : FirstChunkEvent} {budget : Int}
    (h : Begins s r budget s₁ ev f w l s₂) (hroom : MakesRoom s₂ num ensured s₃) {j : NodeId}
    (hj : j ∈ ev.loadbackDiff) (t : ResourceType) :
    nodePages t s₃.kv.tree j = nodePages t s₂.kv.tree j := by
  have hd : f.deviceNodeRef ∈ refsOf s₂.requests .device :=
    mem_refsOf.mpr ⟨_,h.chunk.move.found',deviceNodeRef_mem (firstChunkState_forward s₁.config r f w)⟩
  exact hroom.nodePages_eq h.chunk.move.sound hd (h.chunk.path hj) t

theorem hasResource_of_nodePages {tree : Heap TreeNode} {j : NodeId} {t : ResourceType}
    (h : nodePages t tree j ≠ []) : hasResource t tree j = true := by
  unfold nodePages at h
  unfold hasResource
  cases hr : tree.read j with
  | none => simp [hr] at h
  | some n =>
    cases hres : n.resource t with
    | none => simp [hr,TreeNode.pages,hres] at h
    | some x => simp [hres]

theorem forwardFirstChunk_runs (h : Sound s) (hr : r ∈ s.requests) (hst : r.state = .submitted)
    (a : Forwarding) :
    Runs (forwardFirstChunk a r) s (FirstVisit s a r)
      (fun e s' => Stops Label.isInternal s e s' ∧ (s.config.decodeInputTokens < 0 ∨
        ∃ s₁ ev, Offered s r a.tokenBudget s₁ ev ∧ ev.tokensThisRound < 0)) := by
  unfold forwardFirstChunk
  have hrec := keepsLoads_of_allots
    (record_rule.operationRule.allots_schedulePrefillFirstChunk (r := r) a.tokenBudget)
  refine ((schedulePrefillFirstChunk_returns h r a.tokenBudget).keeps hrec).bind ?_
  rintro o s₁ ⟨⟨hroom,hages,hslots,hoffer,hnone,hweighed⟩,hl₁⟩
  cases o with
  | none =>
    refine .short hroom hages hslots ?_ hl₁
    by_cases hfree : s.freeSlots = []
    · exact Or.inl hfree
    · obtain ⟨m,kv₁,kvl,hw,hiff,_⟩ := hweighed hfree
      refine Or.inr ⟨m,kv₁,kvl,hw,?_⟩
      by_contra hle
      exact absurd (hiff.mpr (not_lt.mp hle)) (by decide)
  | some ev =>
    have ho := hoffer ev rfl
    have hr₁ : r ∈ s₁.requests := hroom.requests ▸ hr
    have hoffered : Offered s r a.tokenBudget s₁ ev := by
      refine ⟨hroom,hages,ho,?_⟩
      obtain ⟨m,kv₁,kvl,hw,hiff,hev⟩ := hweighed (fun hfree => by cases hnone hfree)
      obtain ⟨rfl,hdepth⟩ := hev ev rfl
      exact ⟨kv₁,kvl,hw,hiff.mp rfl,hdepth⟩
    dsimp only
    refine Runs.bind ((applyFirstChunk_runs hroom.sound hr₁ hst ho).imp (fun _ _ hq => hq) ?_) ?_
    · rintro e s' ⟨hstop,hneg⟩
      refine ⟨hstop.after hroom.steps (by simp [Label.isInternal]),?_⟩
      rw [hroom.config] at hneg
      exact hneg.symm.imp id fun hneg => ⟨s₁,ev,hoffered,hneg⟩
    rintro _ s₂ ⟨f,w,hchunk⟩
    obtain ⟨l,_,_,_,hl,_⟩ := hchunk.localAllocator
    have hb : Begins s r a.tokenBudget s₁ ev f w l s₂ :=
      ⟨hst,hroom,hages,ho,hoffered.weighed,hslots,hchunk,hl,hl₁⟩
    have hfwd := firstChunkState_forward s₁.config r f w
    have hwin := firstChunkState_window s₁.config r f w
    refine Runs.bind ((prefillOperation_runs hchunk.move.sound hchunk.move.found' hfwd hl hwin 0).imp
      (fun _ _ hq => hq) ?_) ?_
    · rintro e s' ⟨rfl,rfl,hneg⟩
      refine ⟨⟨_,hroom.steps.append (Steps.single (.forward (Or.inl hst) hfwd hchunk.move
        hchunk.loads)),by simp [Label.isInternal]⟩,Or.inr ⟨s₁,ev,hoffered,?_⟩⟩
      rw [hchunk.window] at hneg
      exact hneg
    rintro op s₃ ⟨rfl,hs₃,hnonneg⟩
    rw [hs₃]
    have hlen : (prefillRow s₂ { r with state := firstChunkState s₁.config r f w } f l w 0).base.inputLength =
      w.size := rfl
    rw [hlen]
    by_cases hpos : 0 < w.size
    · rw [if_pos hpos]
      rw [pure_bind]
      refine (pushLoadBack_returns (fun j hj t => hb.resident hj t) _).runs fun a' s' hload => ?_
      exact .row hb hpos hload
    · rw [if_neg hpos]
      have hzero : w.size = 0 := by omega
      -- Without a row the prompt is fully cached and its first decode is tried at once.
      refine Runs.bind (R := fun a₃ s₃ =>
        (a₃ = a ∧ (s₃ = s₂ ∨ MakesRoom s₂ (pagesFor (max 0 (s.config.decodeInputTokens-
          l.tailPageAvailableTokens)) s.config.pageSize) false s₃)) ∨
        ∃ s₁' l', firstChunkState s.config r f w = .prefillDone f w s.config.decodeInputTokens ∧
          Decodes s₂ { r with state := firstChunkState s.config r f w } f l
            s.config.decodeInputTokens s₁' l' s₃ ∧
          a₃ = a.push (decodeRow s₃ r { f with localKVAllocator := some l' } l'
            (rowPages s₁'.kv f l).length)) ?_ ?_
      · unfold forwardDecode
        refine getRequest_bind (r := { r with state := firstChunkState s₁.config r f w })
          hchunk.move.sound.ids hchunk.move.found' ?_
        by_cases hdone : w.start+w.size = r.prefillSize
        · have hstate : firstChunkState s₁.config r f w = .prefillDone f w s.config.decodeInputTokens := by
            rw [firstChunkState,if_pos hdone,hroom.config]
          have hfound := hchunk.move.found'
          have hconf : s₂.config = s.config := hchunk.move.config.trans hroom.config
          rw [hstate] at hfound ⊢
          refine (forwardDecode_runs hchunk.move.sound hfound rfl a s.config.decodeInputTokens
            false).imp ?_ ?_
          · rintro a₃ s₃ ⟨l₀,hl₀,hcase⟩
            rw [hl] at hl₀
            cases hl₀
            rw [hconf] at hcase
            rcases hcase with ⟨rfl,hno⟩ | ⟨s₁',l',hdec,rfl⟩
            · exact Or.inl ⟨rfl,Or.inr hno⟩
            · rw [hroom.config] at hstate
              refine Or.inr ⟨s₁',l',hstate,?_,rfl⟩
              rw [hstate]
              exact hdec
          · rintro e s₃ ⟨_,⟨hno,_⟩ | ⟨⟨hf,_⟩,_⟩⟩
            · rw [hl] at hno
              cases hno
            · cases hf
        · have hstate : firstChunkState s₁.config r f w = .prefilling f w := by
            rw [firstChunkState,if_neg hdone]
          simp only [hstate]
          exact Or.inl ⟨rfl,Or.inl rfl⟩
      · rintro a₃ s₃ (⟨rfl,hroom₃⟩ | ⟨s₁',l',hstate,hdec,rfl⟩)
        · refine (pushLoadBack_returns (fun j hj t => ?_) _).runs fun a' s' hload =>
            .stuck hb hzero hroom₃ hload
          rcases hroom₃ with rfl | hroom₃
          · exact hb.resident hj t
          · refine hasResource_of_nodePages ?_
            rw [hb.nodePages_eq hroom₃ hj t]
            exact hchunk.move.sound.kv.nodePages_ne_nil (hb.resident hj t)
        · refine (pushLoadBack_returns (fun j hj t => ?_) _).runs fun a' s' hload =>
            .decoded hb hzero hstate hdec hload
          refine hasResource_of_nodePages ?_
          rw [hdec.extended.step.tree,hb.nodePages_eq hdec.room hj t]
          exact hchunk.move.sound.kv.nodePages_ne_nil (hb.resident hj t)

/-- A recovery: the room that was made, the offer and what it led to. -/
structure Recovers (s : Scheduler) (r : Request) (h : NodeId) (l : LocalKVAllocator) (s₁ : Scheduler)
    (ev : RecoverEvent) (f : ForwardState) (l' : LocalKVAllocator) (s' : Scheduler) : Prop where
  before : r.state = .retracted h l
  room : CacheMove s s₁
  ages : Ages s.kv s₁.kv
  offer : RecoverOffer s₁ r ev
  weighed : ∃ kv₁ kvl, Weighed s (r.fullPagedTokens s.config.pageSize true) .stateRecovery
      ev.matchResult kv₁ kvl ∧
    recoverNeeds s.config kv₁.tree ev.matchResult ≤ kvl.capacity .device ∧
    ∀ t, nodeDepth s₁.kv.tree (ev.matchResult.last t) = nodeDepth kv₁.tree (ev.matchResult.last t)
  freeSlots : s₁.freeSlots = s.freeSlots
  recovered : Recovered s₁ r l ev f s'
  localAllocator : f.localKVAllocator = some l'
  loadedBack : s₁.kv.loadedBack = s.kv.loadedBack

/-- Why a recovery was not scheduled. -/
def RecoverShort (s : Scheduler) (r : Request) : Prop :=
  s.freeSlots = [] ∨ ∃ m kv₁ kvl,
    Weighed s (r.fullPagedTokens s.config.pageSize true) .stateRecovery m kv₁ kvl ∧
    (kvl.capacity .device : Int) < recoverNeeds s.config kv₁.tree m

inductive RecoverVisit (s : Scheduler) (a : Forwarding) (r : Request) (h : NodeId)
    (l : LocalKVAllocator) : Forwarding → Scheduler → Prop
  | short {s' : Scheduler} (room : CacheMove s s') (ages : Ages s.kv s'.kv)
      (freeSlots : s'.freeSlots = s.freeSlots) (short : RecoverShort s r)
      (loadedBack : s'.kv.loadedBack = s.kv.loadedBack) :
      RecoverVisit s a r h l a s'
  | row {s₁ s₂ s' : Scheduler} {ev : RecoverEvent} {f : ForwardState} {l' : LocalKVAllocator}
      {x : Token} {a' : Forwarding} (recovers : Recovers s r h l s₁ ev f l' s₂)
      (loads : LoadsBack (a.push (recoverRow s₂ r f l' x)) ev.loadbackDiff s₂ a' s') :
      RecoverVisit s a r h l a' s'

theorem Recovers.resident {s₁ s₂ : Scheduler} {h : NodeId} {ev : RecoverEvent}
    (hrec : Recovers s r h l s₁ ev f l' s₂) {j : NodeId} (hj : j ∈ ev.loadbackDiff)
    (t : ResourceType) : hasResource t s₂.kv.tree j = true := by
  have hsound := hrec.recovered.move.sound
  have hd : f.deviceNodeRef ∈ refsOf s₂.requests .device :=
    mem_refsOf.mpr ⟨_,hrec.recovered.move.found',deviceNodeRef_mem rfl⟩
  cases t with
  | device => exact ((hsound.kv.inv.tier .device).pinned hd).2 j (hrec.recovered.path hj)
  | host =>
    obtain ⟨x,hm⟩ := hrec.offer.matched
    have hT := hrec.room.sound.kv.inv.tree
    rw [hrec.recovered.shape.hasResource_eq]
    rw [hrec.offer.diff] at hj
    exact hm.path hT .host j ((between_of_matched hm hT .device).path hj)

theorem forwardRetracted_runs {h : NodeId} (hs : Sound s) (hr : r ∈ s.requests)
    (hst : r.state = .retracted h l) (a : Forwarding) :
    Runs (forwardRetracted a r h l) s (RecoverVisit s a r h l)
      (fun e s' => Stops Label.isInternal s e s' ∧
        (s.config.decodeInputTokens < 0 ∨ r.tokens = [] ∧ e = .undefined .emptyTokens)) := by
  unfold forwardRetracted
  have hrec := keepsLoads_of_allots (record_rule.operationRule.allots_scheduleDecodeFromRetracted (r := r))
  refine ((scheduleDecodeFromRetracted_returns hs r).keeps hrec).bind ?_
  rintro o s₁ ⟨⟨hroom,hages,hslots,hoffer,hnone,hweighed⟩,hl₁⟩
  cases o with
  | none =>
    refine .short hroom hages hslots ?_ hl₁
    by_cases hfree : s.freeSlots = []
    · exact Or.inl hfree
    · obtain ⟨m,kv₁,kvl,hw,hiff,_⟩ := hweighed hfree
      refine Or.inr ⟨m,kv₁,kvl,hw,?_⟩
      by_contra hle
      exact absurd (hiff.mpr (not_lt.mp hle)) (by decide)
  | some ev =>
    have ho := hoffer ev rfl
    have hr₁ : r ∈ s₁.requests := hroom.requests ▸ hr
    dsimp only
    refine Runs.bind ((applyRecover_runs hroom.sound hr₁ hst ho).imp (fun _ _ hq => hq) ?_) ?_
    · rintro e s' ⟨hstop,hneg⟩
      refine ⟨hstop.after hroom.steps (by simp [Label.isInternal]),Or.inl ?_⟩
      rw [hroom.config] at hneg
      exact hneg
    rintro _ s₂ ⟨f,hrec⟩
    obtain ⟨l',_,hl,_⟩ := hrec.localAllocator
    have hb : Recovers s r h l s₁ ev f l' s₂ := by
      refine ⟨hst,hroom,hages,ho,?_,hslots,hrec,hl,hl₁⟩
      obtain ⟨m,kv₁,kvl,hw,hiff,hev⟩ := hweighed (fun hfree => by cases hnone hfree)
      obtain ⟨rfl,hdepth⟩ := hev ev rfl
      exact ⟨kv₁,kvl,hw,hiff.mp rfl,hdepth⟩
    refine Runs.bind ((recoverOperation_runs hrec.move.sound hrec.move.found' rfl hl).imp
      (fun _ _ hq => hq) ?_) ?_
    · rintro e s' ⟨rfl,_,hempty⟩
      exact ⟨(by decide : Undefined.emptyTokens ≠ .unlockNullResource),Or.inr ⟨hempty,rfl⟩⟩
    rintro op s₃ ⟨⟨x,rfl⟩,hs₃⟩
    rw [hs₃]
    refine (pushLoadBack_returns (fun j hj t => hb.resident hj t) _).runs fun a' s' hload => ?_
    exact .row hb hload

end FluxServe
