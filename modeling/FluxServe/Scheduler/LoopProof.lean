import FluxServe.Scheduler.VisitProof

namespace FluxServe

open KVPrefixCache

variable {s s₁ s' : Scheduler} {r : Request} {f : ForwardState} {l l' : LocalKVAllocator} {w : Window}
  {a a₁ a' : Forwarding} {nodes : List NodeId} {num reserve : Int} {ensured : Bool}
  {o : Option Forwarding} {ids rest : List RequestId}

/-- What one candidate of the loop leads to; `none` stands for `break`. -/
inductive Visit (s : Scheduler) (a : Forwarding) (r : Request) : Option Forwarding → Scheduler → Prop
  | stop (mixed : s.config.enableMixedPrefillDecode = false) (pushed : a.pushedPrefill = true)
      (before : r.state.isDecodable = true ∨ ∃ h l, r.state = .retracted h l) : Visit s a r none s
  | idle (before : r.state.isCandidate = false ∨ r.state = .finished) : Visit s a r (some a) s
  | first {a' : Forwarding} {s' : Scheduler} (before : r.state = .submitted)
      (visit : FirstVisit s a r a' s') : Visit s a r (some a') s'
  | noChunk {f : ForwardState} {w : Window} {s' : Scheduler} (before : r.state = .prefilling f w)
      (room : MakesRoom s (pagesFor (min a.tokenBudget (r.unscheduledPrefillSize w))
        s.config.pageSize) false s') : Visit s a r (some a) s'
  | chunk {f : ForwardState} {w : Window} {l l' : LocalKVAllocator} {s₁ s' : Scheduler}
      (chunks : Chunks s r f w (min a.tokenBudget (r.unscheduledPrefillSize w)) l s₁ l' s') :
      Visit s a r (some (a.push (prefillRow s' r { f with localKVAllocator := some l' } l'
        ⟨w.start+w.size,min a.tokenBudget (r.unscheduledPrefillSize w)⟩
        (rowPages s₁.kv f l).length))) s'
  | noDecode {f : ForwardState} {reserve : Int} {l : LocalKVAllocator} {s' : Scheduler}
      (before : (∃ w, r.state = .prefillDone f w reserve) ∨ r.state = .decoding f reserve)
      (localAllocator : f.localKVAllocator = some l)
      (room : MakesRoom s (pagesFor (max 0 (reserve-l.tailPageAvailableTokens)) s.config.pageSize)
        false s') : Visit s a r (some a) s'
  | decode {f : ForwardState} {reserve : Int} {l l' : LocalKVAllocator} {s₁ s' : Scheduler}
      (before : (∃ w, r.state = .prefillDone f w reserve) ∨ r.state = .decoding f reserve)
      (goes : s.config.enableMixedPrefillDecode = true ∨ a.pushedPrefill = false)
      (localAllocator : f.localKVAllocator = some l) (decodes : Decodes s r f l reserve s₁ l' s') :
      Visit s a r (some (a.push (decodeRow s' r { f with localKVAllocator := some l' } l'
        (rowPages s₁.kv f l).length))) s'
  | recover {h : NodeId} {l : LocalKVAllocator} {a' : Forwarding} {s' : Scheduler}
      (before : r.state = .retracted h l)
      (goes : s.config.enableMixedPrefillDecode = true ∨ a.pushedPrefill = false)
      (visit : RecoverVisit s a r h l a' s') : Visit s a r (some a') s'

/-- The inputs on which scheduling a request throws or reads what is not there. -/
inductive Careless (s : Scheduler) (budget : Int) (r : Request) : Prop
  | decodeInputTokens (neg : s.config.decodeInputTokens < 0)
  | localAllocator {f : ForwardState} (before : r.state.forward? = some f)
      (lost : f.localKVAllocator = none)
  | window {f : ForwardState} {w : Window} (before : r.state = .prefilling f w)
      (neg : min budget (r.unscheduledPrefillSize w) < 0)
  | reserve {f : ForwardState} {n : Int} (before : r.state = .decoding f n) (neg : n < 0)
  | matched {s₁ : Scheduler} {ev : FirstChunkEvent} (before : r.state = .submitted)
      (offered : Offered s r budget s₁ ev) (neg : ev.tokensThisRound < 0)
  | tokens {h : NodeId} {l : LocalKVAllocator} (before : r.state = .retracted h l)
      (empty : r.tokens = [])

/-- The inputs on which scheduling a request may throw after it has changed something. -/
inductive Unfit (s : Scheduler) (budget : Int) (r : Request) : Prop
  | decodeInputTokens (neg : s.config.decodeInputTokens < 0)
  | window {f : ForwardState} {w : Window} (before : r.state = .prefilling f w)
      (neg : min budget (r.unscheduledPrefillSize w) < 0)
  | matched {s₁ : Scheduler} {ev : FirstChunkEvent} (before : r.state = .submitted)
      (offered : Offered s r budget s₁ ev) (neg : ev.tokensThisRound < 0)

/-- How the visit of a candidate fails: with undefined behaviour, on a negative reserve before
anything is done, or on inputs that are unfit. -/
def Fails (s : Scheduler) (budget : Int) (r : Request) (e : Fault) (s' : Scheduler) : Prop :=
  (∃ u, e = .undefined u) ∨ (s' = s ∧ ∃ f n, r.state = .decoding f n ∧ n < 0) ∨ Unfit s budget r

theorem forwardCandidate_runs (h : Sound s) (hr : r ∈ s.requests) (a : Forwarding) :
    Runs (forwardCandidate a r.id) s (Visit s a r)
      (fun e s' => Stops Label.isInternal s e s' ∧ Careless s a.tokenBudget r ∧
        Fails s a.tokenBudget r e s') := by
  have hdecode : ∀ f reserve asserted,
      (r.state = .decoding f reserve ∧ asserted = true ∨
        asserted = false ∧ ∃ w, r.state = .prefillDone f w reserve) →
      (s.config.enableMixedPrefillDecode = true ∨ a.pushedPrefill = false) →
      Runs (forwardDecode.decode a r.id r f reserve asserted) s (fun a' s' => Visit s a r (some a') s')
        (fun e s' => Stops Label.isInternal s e s' ∧ Careless s a.tokenBudget r ∧
          Fails s a.tokenBudget r e s') := by
    intro f reserve asserted hst hgoes
    have hf : r.state.forward? = some f := by
      rcases hst with ⟨hst,_⟩ | ⟨_,w,hst⟩ <;> rw [hst] <;> rfl
    have hbefore : (∃ w, r.state = .prefillDone f w reserve) ∨ r.state = .decoding f reserve := by
      rcases hst with ⟨hst,_⟩ | ⟨_,hst⟩
      · exact Or.inr hst
      · exact Or.inl hst
    refine (forwardDecode_runs h hr hf a reserve asserted).imp ?_ ?_
    · rintro a' s' ⟨l,hl,⟨rfl,hroom⟩ | ⟨s₁,l',hdec,rfl⟩⟩
      · exact .noDecode hbefore hl hroom
      · exact .decode hbefore hgoes hl hdec
    · rintro e s' ⟨rfl,⟨hno,rfl⟩ | ⟨⟨hass,hneg⟩,rfl⟩⟩
      · exact ⟨(by decide : Undefined.nullLocalAllocator ≠ .unlockNullResource),
          .localAllocator hf hno,Or.inl ⟨_,rfl⟩⟩
      · refine ⟨⟨[],.nil,by simp⟩,?_⟩
        rcases hst with ⟨hst,_⟩ | ⟨hfalse,_⟩
        · exact ⟨.reserve hst hneg,Or.inr (Or.inl ⟨rfl,f,reserve,hst,hneg⟩)⟩
        · rw [hass] at hfalse
          cases hfalse
  have hstop : (¬s.config.enableMixedPrefillDecode = true ∧ a.pushedPrefill = true) →
      s.config.enableMixedPrefillDecode = false := fun hm => by simpa using hm.1
  have hgoes : ¬(¬s.config.enableMixedPrefillDecode = true ∧ a.pushedPrefill = true) →
      s.config.enableMixedPrefillDecode = true ∨ a.pushedPrefill = false := by
    intro hm
    cases hp : a.pushedPrefill with
    | false => exact .inr rfl
    | true => exact .inl (by simpa [hp] using hm)
  unfold forwardCandidate
  rw [runs_bind,runs_get]
  refine getRequest_bind h.ids hr ?_
  cases hst : r.state with
  | prefilling f w =>
    refine Runs.bind ((forwardPrefill_runs h hr hst a).imp (fun _ _ hq => hq) ?_) ?_
    · rintro e s' ⟨hs,⟨hno,rfl⟩ | hneg⟩
      · exact ⟨hs,.localAllocator (by rw [hst]; rfl) hno,Or.inl ⟨_,rfl⟩⟩
      · exact ⟨hs,.window hst hneg,Or.inr (Or.inr (.window hst hneg))⟩
    · rintro a' s' (⟨rfl,hroom⟩ | ⟨l,s₁,l',hch,rfl⟩)
      · exact .noChunk hst hroom
      · exact .chunk hch
  | submitted =>
    refine Runs.bind ((forwardFirstChunk_runs h hr hst a).imp (fun _ _ hq => hq) ?_) ?_
    · rintro e s' ⟨hs,hneg | ⟨s₁,ev,ho,hneg⟩⟩
      · exact ⟨hs,.decodeInputTokens hneg,Or.inr (Or.inr (.decodeInputTokens hneg))⟩
      · exact ⟨hs,.matched hst ho hneg,Or.inr (Or.inr (.matched hst ho hneg))⟩
    · exact fun a' s' hv => .first hst hv
  | prefillDone f w n =>
    dsimp only
    split
    · next hm => exact .stop (hstop hm) hm.2 (Or.inl (by rw [hst]; rfl))
    · next hm =>
      refine Runs.bind ?_ fun a' s' hv => hv
      unfold forwardDecode
      refine getRequest_bind h.ids hr ?_
      rw [hst]
      exact hdecode f n false (Or.inr ⟨rfl,w,hst⟩) (hgoes hm)
  | decoding f n =>
    dsimp only
    split
    · next hm => exact .stop (hstop hm) hm.2 (Or.inl (by rw [hst]; rfl))
    · next hm =>
      refine Runs.bind ?_ fun a' s' hv => hv
      unfold forwardDecode
      refine getRequest_bind h.ids hr ?_
      rw [hst]
      exact hdecode f n true (Or.inl ⟨hst,rfl⟩) (hgoes hm)
  | retracted hn l =>
    dsimp only
    split
    · next hm => exact .stop (hstop hm) hm.2 (Or.inr ⟨hn,l,hst⟩)
    · next hm =>
      refine Runs.bind ((forwardRetracted_runs h hr hst a).imp (fun _ _ hq => hq) ?_) ?_
      · rintro e s' ⟨hs,hneg | ⟨hempty,rfl⟩⟩
        · exact ⟨hs,.decodeInputTokens hneg,Or.inr (Or.inr (.decodeInputTokens hneg))⟩
        · exact ⟨hs,.tokens hst hempty,Or.inl ⟨_,rfl⟩⟩
      · exact fun a' s' hv => .recover hst (hgoes hm) hv
  | draining | writingBack | retracting => exact .idle (Or.inl (by rw [hst]; rfl))
  | finished => exact .idle (Or.inr hst)

/-- What every visit has in common: it is made of transitions, and the host side stays. -/
structure Proceeds (s : Scheduler) (a : Forwarding) (s' : Scheduler) (a' : Forwarding) : Prop where
  steps : ∃ ls, Steps s ls s' ∧ (∀ ℓ ∈ ls, ℓ.isInternal) ∧
    ∃ new, a'.loadbackOps = a.loadbackOps ++ new ∧
      ∀ op ∈ new, ∃ loads, Label.internal loads ∈ ls ∧ op.transfers ⊆ loads
  ids : s'.requests.map Request.id = s.requests.map Request.id
  config : s'.config = s.config
  ages : Ages s.kv s'.kv

theorem Move.map_id {st' : RequestState} {fresh : List NodeId} (h : Move r st' fresh s s') :
    s'.requests.map Request.id = s.requests.map Request.id := by
  rw [h.requests,ids_withState]

theorem Proceeds.trans {a₂ : Forwarding} {s₂ : Scheduler} (h : Proceeds s a s₁ a₁)
    (h' : Proceeds s₁ a₁ s₂ a₂) : Proceeds s a s₂ a₂ := by
  obtain ⟨ls,hs,hi,new,hnew,hcov⟩ := h.steps
  obtain ⟨ls',hs',hi',new',hnew',hcov'⟩ := h'.steps
  refine ⟨⟨ls ++ ls',hs.append hs',?_,new ++ new',?_,?_⟩,h'.ids.trans h.ids,h'.config.trans h.config,
    h.ages.trans h'.ages⟩
  · intro ℓ hℓ
    exact (List.mem_append.mp hℓ).elim (hi ℓ) (hi' ℓ)
  · rw [hnew',hnew,List.append_assoc]
  · intro op hop
    rcases List.mem_append.mp hop with hop | hop
    · obtain ⟨loads,hl,hsub⟩ := hcov op hop
      exact ⟨loads,List.mem_append.mpr (Or.inl hl),hsub⟩
    · obtain ⟨loads,hl,hsub⟩ := hcov' op hop
      exact ⟨loads,List.mem_append.mpr (Or.inr hl),hsub⟩

/-- Transitions without a load-back operation. -/
theorem Proceeds.of_steps {ls : List Label} (hs : Steps s ls s') (hi : ∀ ℓ ∈ ls, ℓ.isInternal)
    (hids : s'.requests.map Request.id = s.requests.map Request.id) (hconf : s'.config = s.config)
    (hages : Ages s.kv s'.kv) (ha : a'.loadbackOps = a.loadbackOps) : Proceeds s a s' a' :=
  ⟨⟨ls,hs,hi,[],by rw [ha,List.append_nil],by simp⟩,hids,hconf,hages⟩

theorem CacheMove.proceeds (h : CacheMove s s') (hages : Ages s.kv s'.kv)
    (ha : a'.loadbackOps = a.loadbackOps) : Proceeds s a s' a' :=
  .of_steps h.steps (by simp [Label.isInternal]) (by rw [h.requests]) h.config hages ha

theorem MakesRoom.proceeds (h : MakesRoom s num ensured s') (a : Forwarding) : Proceeds s a s' a :=
  h.move.proceeds h.ages rfl

theorem Decodes.proceeds (h : Decodes s r f l reserve s₁ l' s') (hf : r.state.forward? = some f)
    (ha : a'.loadbackOps = a.loadbackOps) : Proceeds s a s' a' := by
  refine (h.room.proceeds a).trans (.of_steps (Steps.single (.forward (Or.inr ⟨f,hf⟩) rfl h.move
    (loadsFrom_nil _))) (by simp [Label.isInternal]) h.move.map_id h.move.config
    (Ages.of_allocStep h.extended.step) ha)

theorem Chunks.proceeds (h : Chunks s r f w num l s₁ l' s') (ha : a'.loadbackOps = a.loadbackOps) :
    Proceeds s a s' a' := by
  have hf : r.state.forward? = some f := by rw [h.before]; rfl
  exact (h.room.proceeds a).trans (.of_steps (Steps.single (.forward (Or.inr ⟨f,hf⟩)
    (firstChunkState_forward _ _ _ _) h.move (loadsFrom_nil _))) (by simp [Label.isInternal])
    h.move.map_id h.move.config (Ages.of_allocStep h.extended.step) ha)

/-- The operation of a load-back shows what an earlier transition has loaded. -/
theorem LoadsBack.proceeds {a₂ : Forwarding} {s₂ : Scheduler} (h : LoadsBack a₁ nodes s₁ a₂ s₂)
    (hp : Proceeds s a s₁ a₁) (hloads : nodes ≠ [] → ∃ ls loads, Steps s ls s₁ ∧
      (∀ ℓ ∈ ls, ℓ.isInternal) ∧ Label.internal loads ∈ ls ∧ pairsOf .host s₁.kv.tree nodes ⊆ loads)
    (ha : a₁.loadbackOps = a.loadbackOps) : Proceeds s a s₂ a₂ := by
  cases h with
  | nothing => exact hp
  | operation hne =>
    obtain ⟨ls,loads,hs,hi,hmem,hsub⟩ := hloads hne
    refine ⟨⟨ls ++ [.internal []],hs.append (Steps.single .opId),?_,[_],by rw [ha],?_⟩,hp.ids,
      hp.config,?_⟩
    · intro ℓ hℓ
      rcases List.mem_append.mp hℓ with hℓ | hℓ
      · exact hi ℓ hℓ
      · rw [List.mem_singleton.mp hℓ]
        trivial
    · intro op hop
      rw [List.mem_singleton.mp hop]
      exact ⟨loads,List.mem_append.mpr (Or.inl hmem),hsub⟩
    · exact ⟨hp.ages.allocator,hp.ages.host,hp.ages.device⟩

theorem pairsOf_congr {src : ResourceType} {tree tree' : Heap TreeNode}
    (h : ∀ j ∈ nodes, ∀ t, nodePages t tree' j = nodePages t tree j) :
    pairsOf src tree' nodes = pairsOf src tree nodes := by
  unfold pairsOf
  refine List.flatMap_congr fun j hj => ?_
  rw [h j hj,h j hj]

/-- The transitions of a first chunk, with what it loads. -/
theorem Begins.steps {s₂ : Scheduler} {ev : FirstChunkEvent} {budget : Int}
    (h : Begins s r budget s₁ ev f w l s₂) :
    Steps s ([.internal []] ++ [.internal (pairsOf .host s₂.kv.tree ev.loadbackDiff)]) s₂ :=
  h.room.steps.append (Steps.single (.forward (Or.inl h.before)
    (firstChunkState_forward s₁.config r f w) h.chunk.move h.chunk.loads))

theorem Begins.proceeds {s₂ : Scheduler} {ev : FirstChunkEvent} {budget : Int}
    (h : Begins s r budget s₁ ev f w l s₂) (ha : a'.loadbackOps = a.loadbackOps) :
    Proceeds s a s₂ a' :=
  .of_steps h.steps (by simp [Label.isInternal]) (h.chunk.move.map_id.trans (by rw [h.room.requests]))
    (h.chunk.move.config.trans h.room.config) (h.ages.trans h.chunk.ages) ha

theorem FirstVisit.proceeds (h : FirstVisit s a r a' s') : Proceeds s a s' a' := by
  cases h with
  | short room ages => exact room.proceeds ages rfl
  | row begins pos loads =>
    refine loads.proceeds (begins.proceeds rfl) (fun _ => ?_) rfl
    exact ⟨_,_,begins.steps,by simp [Label.isInternal],by simp,fun _ hp => hp⟩
  | @decoded s₁ s₂ s₃ s₄ _ ev f w l l' _ begins zero state decodes loads =>
    have hf : ({ r with state := firstChunkState s.config r f w } : Request).state.forward? = some f :=
      firstChunkState_forward _ _ _ _
    refine loads.proceeds ((begins.proceeds rfl).trans (decodes.proceeds hf rfl))
      (fun _ => ?_) rfl
    have hdec : Proceeds s₂ a s₄ a := decodes.proceeds hf rfl
    obtain ⟨ls,hls,hi,_⟩ := hdec.steps
    refine ⟨_,pairsOf .host s₂.kv.tree ev.loadbackDiff,begins.steps.append hls,?_,by simp,?_⟩
    · intro ℓ hℓ
      rcases List.mem_append.mp hℓ with hℓ | hℓ
      · simp only [List.cons_append,List.nil_append,List.mem_cons,List.not_mem_nil,or_false] at hℓ
        rcases hℓ with rfl | rfl <;> trivial
      · exact hi ℓ hℓ
    · have heq : pairsOf .host s₄.kv.tree ev.loadbackDiff = pairsOf .host s₂.kv.tree ev.loadbackDiff := by
        refine pairsOf_congr fun j hj t => ?_
        rw [decodes.extended.step.tree,begins.nodePages_eq decodes.room hj t]
      rw [heq]
      exact fun _ hp => hp
  | @stuck s₁ s₂ s₃ _ ev f w l _ begins zero room loads =>
    have hroom : Proceeds s₂ a s₃ a ∧
        pairsOf .host s₃.kv.tree ev.loadbackDiff = pairsOf .host s₂.kv.tree ev.loadbackDiff := by
      rcases room with rfl | room
      · exact ⟨.of_steps .nil (by simp) rfl rfl (Ages.refl _) rfl,rfl⟩
      · exact ⟨room.proceeds a,pairsOf_congr fun j hj t => begins.nodePages_eq room hj t⟩
    refine loads.proceeds ((begins.proceeds rfl).trans hroom.1) (fun _ => ?_) rfl
    obtain ⟨ls,hls,hi,_⟩ := hroom.1.steps
    refine ⟨_,pairsOf .host s₂.kv.tree ev.loadbackDiff,begins.steps.append hls,?_,by simp,?_⟩
    · intro ℓ hℓ
      rcases List.mem_append.mp hℓ with hℓ | hℓ
      · simp only [List.cons_append,List.nil_append,List.mem_cons,List.not_mem_nil,or_false] at hℓ
        rcases hℓ with rfl | rfl <;> trivial
      · exact hi ℓ hℓ
    · rw [hroom.2]
      exact fun _ hp => hp

theorem RecoverVisit.proceeds {h : NodeId} (hv : RecoverVisit s a r h l a' s') :
    Proceeds s a s' a' := by
  cases hv with
  | short room ages => exact room.proceeds ages rfl
  | @row s₁ s₂ _ ev f l' x _ recovers loads =>
    have hsteps : Steps s ([.internal []] ++ [.internal (pairsOf .host s₂.kv.tree ev.loadbackDiff)]) s₂ :=
      recovers.room.steps.append (Steps.single (.recover recovers.before rfl recovers.recovered.move
        recovers.recovered.loads))
    refine loads.proceeds (.of_steps hsteps (by simp [Label.isInternal])
      (recovers.recovered.move.map_id.trans (by rw [recovers.room.requests]))
      (recovers.recovered.move.config.trans recovers.room.config)
      (recovers.ages.trans recovers.recovered.ages) rfl) (fun _ => ?_) rfl
    exact ⟨_,_,hsteps,by simp [Label.isInternal],by simp,fun _ hp => hp⟩

theorem Visit.proceeds (h : Visit s a r (some a') s') : Proceeds s a s' a' := by
  cases h with
  | idle => exact .of_steps .nil (by simp) rfl rfl (Ages.refl _) rfl
  | first _ visit => exact visit.proceeds
  | noChunk _ room => exact room.proceeds a
  | chunk chunks => exact chunks.proceeds rfl
  | noDecode _ _ room => exact room.proceeds a
  | @decode f n l l' s₁ _ before _ _ decodes =>
    refine decodes.proceeds ?_ rfl
    rcases before with ⟨w,hst⟩ | hst <;> rw [hst] <;> rfl
  | recover _ _ visit => exact visit.proceeds

/-- The loop over the candidates: the visits made, with the candidates still to come. -/
inductive Visits : List RequestId → Forwarding → Scheduler → List RequestId → Forwarding →
    Scheduler → Prop
  | refl {ids : List RequestId} {a : Forwarding} {s : Scheduler} : Visits ids a s ids a s
  | cons {ids rest : List RequestId} {a a₁ a' : Forwarding} {s s₁ s' : Scheduler} {r : Request}
      (budget : 0 < a.tokenBudget) (batch : s.config.maxBatchSize ≠ a.ops.length)
      (found : r ∈ s.requests) (visit : Visit s a r (some a₁) s₁)
      (visits : Visits ids a₁ s₁ rest a' s') : Visits (r.id :: ids) a s rest a' s'

/-- Why the loop ends. -/
inductive LoopEnds (rest : List RequestId) (a : Forwarding) (s : Scheduler) : Prop
  | done (empty : rest = [])
  | budget (spent : a.tokenBudget ≤ 0)
  | batch (full : s.config.maxBatchSize = a.ops.length)
  | prefill {r : Request} {ids : List RequestId} (rest : rest = r.id :: ids)
      (found : r ∈ s.requests) (stop : Visit s a r none s)

theorem Visit.none_eq (h : Visit s a r none s') : s' = s := by
  cases h
  rfl

theorem Visits.proceeds (h : Visits ids a s rest a' s') : Proceeds s a s' a' := by
  induction h with
  | refl => exact .of_steps .nil (by simp) rfl rfl (Ages.refl _) rfl
  | cons _ _ _ visit _ ih => exact visit.proceeds.trans ih

theorem Proceeds.sound (h : Proceeds s a s' a') (hs : Sound s) : Sound s' := by
  obtain ⟨_,hsteps,_⟩ := h.steps
  exact hsteps.sound hs

theorem forwardLoop_runs (h : Sound s) (hids : ∀ id ∈ ids, id ∈ s.requests.map Request.id)
    (a : Forwarding) :
    Runs (forwardLoop ids a) s (fun a' s' => ∃ rest, Visits ids a s rest a' s' ∧ LoopEnds rest a' s')
      (fun e s' => Stops Label.isInternal s e s' ∧ ∃ rest a₁ s₁ r, Visits ids a s rest a₁ s₁ ∧
        r ∈ s₁.requests ∧ 0 < a₁.tokenBudget ∧ Careless s₁ a₁.tokenBudget r ∧
        Fails s₁ a₁.tokenBudget r e s') := by
  induction ids generalizing s a with
  | nil => exact ⟨[],.refl,.done rfl⟩
  | cons id ids ih =>
    unfold forwardLoop
    rw [runs_bind,runs_get]
    split
    · next hend =>
      refine ⟨_,.refl,?_⟩
      rcases hend with hend | hend
      · exact .budget hend
      · exact .batch hend
    · next hend =>
      rw [not_or,not_le] at hend
      obtain ⟨r,hr,rfl⟩ := List.mem_map.mp (hids id List.mem_cons_self)
      refine Runs.bind ((forwardCandidate_runs h hr a).imp (fun _ _ hq => hq) ?_) ?_
      · rintro e s' ⟨hs,hc⟩
        exact ⟨hs,_,a,s,r,.refl,hr,hend.1,hc⟩
      · intro o s₁ hv
        cases o with
        | none =>
          obtain rfl := hv.none_eq
          exact ⟨_,.refl,.prefill rfl hr hv⟩
        | some a₁ =>
          have hp := hv.proceeds
          have hids₁ : ∀ id ∈ ids, id ∈ s₁.requests.map Request.id := by
            intro id hid
            rw [hp.ids]
            exact hids id (List.mem_cons_of_mem _ hid)
          refine (ih (hp.sound h) hids₁ a₁).imp ?_ ?_
          · rintro a' s' ⟨rest,hvs,hends⟩
            exact ⟨rest,.cons hend.1 hend.2 hr hv hvs,hends⟩
          · rintro e s' ⟨hs,rest,a₂,s₂,r₂,hvs,hr₂,hb₂,hc⟩
            obtain ⟨ls,hls,hi,_⟩ := hp.steps
            exact ⟨hs.after hls hi,rest,a₂,s₂,r₂,.cons hend.1 hend.2 hr hv hvs,hr₂,hb₂,hc⟩

end FluxServe
