import FluxServe.Scheduler.LoopProof

namespace FluxServe

open KVPrefixCache

variable {s s₁ s' : Scheduler} {r : Request} {ops : List WriteBackOperation} {ids : List RequestId}
  {order : List RequestId} {o : Option WriteBackOperation} {ls : List Label}

/-- The write-backs a sequence of transitions has issued. -/
def issuedOf (ls : List Label) : List WriteBackOperation :=
  ls.filterMap fun
    | .issue op => some op
    | _ => none

@[simp] theorem issuedOf_append (ls ls' : List Label) :
    issuedOf (ls ++ ls') = issuedOf ls ++ issuedOf ls' := by
  simp [issuedOf]

theorem issuedOf_internal (h : ∀ ℓ ∈ ls, ℓ.isInternal) : issuedOf ls = [] := by
  refine List.filterMap_eq_nil_iff.mpr fun ℓ hℓ => ?_
  have := h ℓ hℓ
  cases ℓ <;> first | rfl | exact this.elim

/-- What the labels of a plan may be. -/
def Label.ofPlan : Label → Prop
  | .internal _ => True
  | .issue _ => True
  | .giveUp _ => True
  | _ => False

theorem Label.isInternal.ofPlan {ℓ : Label} (h : ℓ.isInternal) : ℓ.ofPlan := by
  cases ℓ <;> first | exact h.elim | trivial

/-- A draining request goes on once its write-back is issued. -/
def RequestState.committed : RequestState → RequestState
  | .draining _ d h => .writingBack (some d) h
  | st => st

def Request.committed (r : Request) : Request := { r with state := r.state.committed }

/-- The write-backs of the draining requests in `order`. -/
structure Commits (order : List RequestId) (s : Scheduler) (ops : List WriteBackOperation)
    (s' : Scheduler) : Prop where
  steps : ∃ ls, Steps s ls s' ∧ (∀ ℓ ∈ ls, ℓ.isInternal ∨ ∃ op, ℓ = .issue op) ∧ issuedOf ls = ops
  config : s'.config = s.config
  ids : s'.requests.map Request.id = s.requests.map Request.id
  requests : (∀ r ∈ s.requests, ∀ d h, r.state ≠ .draining [] d h) →
    s'.requests = s.requests.map fun r => if r.id ∈ order then r.committed else r
  kv : (∀ r ∈ s.requests, ∀ d h, r.state ≠ .draining [] d h) →
    s'.freeSlots = s.freeSlots ∧ ∃ n, s'.kv = { s.kv with nextOpId := n }

theorem commits_nil (s : Scheduler) : Commits [] s [] s :=
  ⟨⟨[],.nil,by simp,rfl⟩,rfl,rfl,fun _ => by simp,fun _ => ⟨rfl,_,rfl⟩⟩

theorem Request.committed_id (r : Request) : r.committed.id = r.id := rfl

theorem committed_ne_draining (d n : NodeId) (p : List TransferPair) :
    r.committed.state ≠ .draining p d n := by
  unfold Request.committed RequestState.committed
  cases r.state <;> simp

theorem Commits.cons {ops' : List WriteBackOperation} {id : RequestId} {ids : List RequestId}
    (h : Commits [id] s ops s₁) (h' : Commits ids s₁ ops' s') :
    Commits (id :: ids) s (ops ++ ops') s' := by
  obtain ⟨ls,hs,hl,hi⟩ := h.steps
  obtain ⟨ls',hs',hl',hi'⟩ := h'.steps
  have hmid : (∀ r ∈ s.requests, ∀ d n, r.state ≠ .draining [] d n) →
      ∀ r ∈ s₁.requests, ∀ d n, r.state ≠ .draining [] d n := by
    intro hne r hr
    rw [h.requests hne] at hr
    obtain ⟨x,hx,rfl⟩ := List.mem_map.mp hr
    split
    · exact fun d n => committed_ne_draining d n []
    · exact hne x hx
  refine ⟨⟨ls ++ ls',hs.append hs',?_,by rw [issuedOf_append,hi,hi']⟩,h'.config.trans h.config,
    h'.ids.trans h.ids,fun hne => ?_,fun hne => ?_⟩
  · intro ℓ hℓ
    exact (List.mem_append.mp hℓ).elim (hl ℓ) (hl' ℓ)
  · rw [h'.requests (hmid hne),h.requests hne,List.map_map]
    refine List.map_congr_left fun x _ => ?_
    have hcc : x.committed.committed = x.committed := by
      unfold Request.committed RequestState.committed
      cases x.state <;> rfl
    by_cases hx : x.id = id
    · simp only [Function.comp_apply,hx,List.mem_cons,true_or,if_true,Request.committed_id,
        List.not_mem_nil,or_false,hcc,ite_self]
    · simp only [Function.comp_apply,hx,List.mem_cons,false_or,List.not_mem_nil,or_false,if_false]
  · obtain ⟨hfree,n,hn⟩ := h.kv hne
    obtain ⟨hfree',n',hn'⟩ := h'.kv (hmid hne)
    exact ⟨hfree'.trans hfree,n',by rw [hn',hn]⟩

/-- Only the request with the id is looked at. -/
theorem map_single (hnd : (s.requests.map Request.id).Nodup) (hr : r ∈ s.requests)
    {g : Request → Request} (hg : g r = r) :
    s.requests = s.requests.map fun x => if x.id ∈ [r.id] then g x else x := by
  refine ((List.map_congr_left fun x hx => ?_).trans (List.map_id' _)).symm
  split
  · next hid =>
    rw [List.mem_singleton] at hid
    rw [List.inj_on_of_nodup_map hnd hx hr hid,hg]
  · rfl

theorem commitDraining_returns (h : Sound s) (hr : r ∈ s.requests) :
    Returns (commitDraining r.id) s (fun ops s' => Commits [r.id] s ops s') := by
  unfold Returns commitDraining
  refine getRequest_bind h.ids hr ?_
  have hother : (∀ p d n, r.state ≠ .draining p d n) → Commits [r.id] s [] s := by
    intro hst
    refine ⟨⟨[],.nil,by simp,rfl⟩,rfl,rfl,fun _ => map_single h.ids hr ?_,fun _ => ⟨rfl,_,rfl⟩⟩
    have hsame : r.state.committed = r.state := by
      unfold RequestState.committed
      split
      · next hd => exact absurd hd (hst _ _ _)
      · rfl
    unfold Request.committed
    rw [hsame]
  cases hst : r.state with
  | draining pairs d n =>
    cases pairs with
    | nil =>
      refine Runs.bind ((abortEvent_runs h hr).imp (fun _ _ hq => hq) ?_) ?_
      · rintro e s' ⟨_,_,d',n',hw⟩
        rw [hst] at hw
        cases hw
      · rintro _ s' ⟨_,hm | ⟨hf,_⟩⟩
        · exact ⟨⟨_,Steps.single (.discarded hst hm),by simp [Label.isInternal],rfl⟩,hm.config,
            hm.map_id,fun hne => absurd hst (hne r hr d n),fun hne => absurd hst (hne r hr d n)⟩
        · rw [hst] at hf
          cases hf
    | cons p ps =>
      have hsplit := h.split hr
      rw [hst] at hsplit
      have hmove : Move r (.writingBack (some d) n) [] s (s.withState r.id (.writingBack (some d) n)) := by
        refine Move.of_kv h hr rfl rfl rfl rfl (hsplit.congr (fun t => ?_) (fun t => rfl))
          (Change.refl _ _) ⟨by simp [RequestState.forward?],by simp [RequestState.local?]⟩
        cases t <;> rfl
      have hstep : Step s (.issue ⟨s.kv.nextOpId % 2^32,p :: ps,false⟩)
          ((s.withState r.id (.writingBack (some d) n)).issued
            ⟨s.kv.nextOpId % 2^32,p :: ps,false⟩ r.id) :=
        .issueDrained hst rfl hmove rfl
      dsimp only
      rw [commitDrainingEvent,hst]
      refine onKV_bind ?_
      refine ⟨⟨_,Steps.single hstep,by simp,rfl⟩,rfl,ids_withState,fun hne => ?_,fun _ => ⟨rfl,_,rfl⟩⟩
      change (s.withState r.id (.writingBack (some d) n)).requests = _
      unfold Scheduler.withState Scheduler.updateRequest
      refine List.map_congr_left fun x hx => ?_
      by_cases hxid : x.id = r.id
      · have hxr : x = r := List.inj_on_of_nodup_map h.ids hx hr hxid
        simp [hxr,Request.committed,RequestState.committed,hst]
      · simp [hxid]
  | submitted | prefilling | prefillDone | decoding | writingBack | retracting | retracted | finished =>
    exact hother (by simp [hst])

theorem writeBackLoop_returns (h : Sound s) (hids : ∀ id ∈ ids, id ∈ s.requests.map Request.id) :
    Returns (writeBackLoop ids) s (fun ops s' => Commits ids s ops s') := by
  induction ids generalizing s with
  | nil => exact commits_nil s
  | cons id ids ih =>
    obtain ⟨r,hr,rfl⟩ := List.mem_map.mp (hids id List.mem_cons_self)
    unfold Returns writeBackLoop
    refine (commitDraining_returns h hr).bind fun ops s₁ hc => ?_
    obtain ⟨ls,hs,_⟩ := hc.steps
    refine (ih (hs.sound h) fun id hid => ?_).bind fun ops' s' hc' => hc.cons hc'
    rw [hc.ids]
    exact hids id (List.mem_cons_of_mem _ hid)

/-- The write-backs of a plan: none without the host tier. -/
theorem newWriteBackOperation_returns (h : Sound s)
    (hids : ∀ id ∈ order, id ∈ s.requests.map Request.id) :
    Returns (newWriteBackOperation order) s (fun ops s' =>
      Commits (if s.config.disableL2Cache then [] else order) s ops s') := by
  unfold Returns newWriteBackOperation
  rw [runs_bind,runs_get]
  cases hl2 : s.config.disableL2Cache
  · rw [if_neg (by decide),if_neg (by decide)]
    exact writeBackLoop_returns h hids
  · rw [if_pos rfl,if_pos rfl]
    exact commits_nil s

theorem RetractRun.steps (h : RetractRun s r o s') :
    ∃ ls, Steps s ls s' ∧ (∀ ℓ ∈ ls, ℓ.ofPlan) ∧ issuedOf ls = o.toList := by
  obtain ⟨_,s₁,ls,ℓ,hs,hi,hstep,hcase⟩ := h
  refine ⟨ls ++ [ℓ],hs.append (Steps.single hstep),?_,?_⟩
  · intro k hk
    rcases List.mem_append.mp hk with hk | hk
    · exact (hi k hk).ofPlan
    · rw [List.mem_singleton.mp hk]
      rcases hcase with ⟨hint,_⟩ | ⟨op,rfl,_⟩ | ⟨rfl,_⟩
      · exact hint.ofPlan
      · trivial
      · trivial
  · rw [issuedOf_append,issuedOf_internal hi,List.nil_append]
    rcases hcase with ⟨hint,rfl⟩ | ⟨op,rfl,rfl⟩ | ⟨rfl,rfl⟩
    · exact issuedOf_internal fun k hk => List.mem_singleton.mp hk ▸ hint
    · rfl
    · rfl

/-- The requests a retract may pick from, in the order of the loop. -/
def victims (sorted : List RequestId) (s : Scheduler) : List Request :=
  (sorted.filterMap s.findRequest).filter fun r => r.state.isDecodable

/-- How a plan's forward part ends: with rows, with nothing, or with a retract. -/
inductive Forwards (sorted : List RequestId) (s : Scheduler) :
    List ForwardOperation × CacheOperations → Scheduler → Prop
  | rows {rest : List RequestId} {a : Forwarding} {s' : Scheduler}
      (visits : Visits sorted { tokenBudget := s.config.maxScheduledTokens } s rest a s')
      (ends : LoopEnds rest a s') (some : a.ops ≠ [] ∨ longest (victims sorted s') = none) :
      Forwards sorted s (a.ops,.loadBack a.loadbackOps) s'
  | retract {rest : List RequestId} {a : Forwarding} {s₁ s' : Scheduler} {victim : Request}
      {o : Option WriteBackOperation}
      (visits : Visits sorted { tokenBudget := s.config.maxScheduledTokens } s rest a s₁)
      (ends : LoopEnds rest a s₁) (empty : a.ops = [])
      (longest : longest (victims sorted s₁) = some victim) (run : RetractRun s₁ victim o s') :
      Forwards sorted s ([],.writeBack o.toList) s'

theorem mem_of_longest {rs : List Request} (h : longest rs = some r) : r ∈ rs := by
  induction rs with
  | nil => cases h
  | cons x rs ih =>
    unfold longest at h
    cases hl : longest rs with
    | none =>
      rw [hl] at h
      cases h
      exact List.mem_cons_self
    | some y =>
      rw [hl] at h
      dsimp only at h
      split at h
      · exact List.mem_cons_of_mem _ (ih (hl.trans h))
      · cases h
        exact List.mem_cons_self

/-- What goes wrong in a plan: a request on which scheduling throws, or one that has lost its local
allocator. -/
def PlanFault (sorted : List RequestId) (s : Scheduler) : Prop :=
  ∃ rest a₁ s₁ r, Visits sorted { tokenBudget := s.config.maxScheduledTokens } s rest a₁ s₁ ∧
    r ∈ s₁.requests ∧ (0 < a₁.tokenBudget ∧ Careless s₁ a₁.tokenBudget r ∨
      ∃ f, r.state.forward? = some f ∧ f.localKVAllocator = none)

/-- How the forward part of a plan fails, after the visits it has made. -/
def PlanFails (sorted : List RequestId) (s : Scheduler) (e : Fault) (s' : Scheduler) : Prop :=
  (∃ u, e = .undefined u) ∨ ∃ rest a₁ s₁ r,
    Visits sorted { tokenBudget := s.config.maxScheduledTokens } s rest a₁ s₁ ∧ r ∈ s₁.requests ∧
      0 < a₁.tokenBudget ∧ Fails s₁ a₁.tokenBudget r e s'

theorem newForwardOperation_runs (h : Sound s) {candidates : List Request}
    (hids : ∀ r ∈ candidates, r.id ∈ s.requests.map Request.id) :
    Runs (newForwardOperation candidates) s
      (Forwards ((sortCandidates s.config candidates).map Request.id) s)
      (fun e s' => Stops Label.ofPlan s e s' ∧
        PlanFault ((sortCandidates s.config candidates).map Request.id) s ∧
        PlanFails ((sortCandidates s.config candidates).map Request.id) s e s') := by
  have hsorted : ∀ id ∈ (sortCandidates s.config candidates).map Request.id,
      id ∈ s.requests.map Request.id := by
    intro id hid
    obtain ⟨x,hx,rfl⟩ := List.mem_map.mp hid
    exact hids x ((List.perm_insertionSort _ candidates).mem_iff.mp hx)
  unfold newForwardOperation
  rw [runs_bind,runs_get]
  dsimp only
  generalize (sortCandidates s.config candidates).map Request.id = sorted at hsorted ⊢
  refine Runs.bind ((forwardLoop_runs h hsorted _).imp (fun _ _ hq => hq) ?_) ?_
  · rintro e s' ⟨hs,rest,a₁,s₁,r,hv,hr,hb,hc,hf⟩
    exact ⟨hs.mono fun ℓ hℓ => hℓ.ofPlan,⟨rest,a₁,s₁,r,hv,hr,Or.inl ⟨hb,hc⟩⟩,
      Or.inr ⟨rest,a₁,s₁,r,hv,hr,hb,hf⟩⟩
  rintro a s₁ ⟨rest,hv,hends⟩
  by_cases hempty : a.ops = []
  · rw [if_pos (by simp [hempty]),runs_bind,runs_get]
    split
    · next hvic => exact .rows hv hends (Or.inr hvic)
    · next victim hvic =>
      have hp := hv.proceeds
      have hmem := mem_of_longest hvic
      rw [List.mem_filter,List.mem_filterMap] at hmem
      obtain ⟨⟨id,_,hfind⟩,hdec⟩ := hmem
      have hfound := (findRequest_some hfind).1
      refine Runs.bind ((newRetractOperation_runs (hp.sound h) hfound).imp (fun _ _ hq => hq) ?_) ?_
      · rintro e s' ⟨hs,hcause⟩
        obtain ⟨ls,hls,hi,_⟩ := hp.steps
        have hlost : (∃ f, victim.state.forward? = some f ∧ f.localKVAllocator = none) ∧
            ∃ u, e = .undefined u := by
          rcases hcause with hlost | hno
          · exact hlost
          · rw [hdec] at hno
            cases hno
        exact ⟨(hs.mono fun _ hf => hf.elim).after hls fun ℓ hℓ => (hi ℓ hℓ).ofPlan,
          ⟨rest,a,s₁,victim,hv,hfound,Or.inr hlost.1⟩,Or.inl hlost.2⟩
      · exact fun o s' hrun => .retract hv hends hempty hvic hrun
  · rw [if_neg (by simpa using hempty)]
    exact .rows hv hends (Or.inl hempty)

/-- The scheduler without the finished requests. -/
def Scheduler.erased (s : Scheduler) : Scheduler :=
  { s with requests := s.requests.filter fun r => r.state ≠ .finished }

/-- The candidates of a plan in the order they are visited. -/
def candidateIds (order : List RequestId) (s : Scheduler) : List RequestId :=
  (sortCandidates s.config
    ((order.filterMap s.findRequest).filter fun r => r.state.isCandidate)).map Request.id

/-- The plan made of the write-backs and of what `newForwardOperation` returns. -/
def planOf (ops : List WriteBackOperation) (res : List ForwardOperation × CacheOperations) :
    ExecutionPlan :=
  let forward := res.1.filter ForwardOperation.isPrefill ++ res.1.filter fun op => !op.isPrefill
  match res.2 with
  | .loadBack loadBack => { forward, writeBack := ops, loadBack }
  | .writeBack writeBack => { forward, writeBack := ops ++ writeBack }

/-- A plan: the write-backs are issued, the finished requests go, the rest is scheduled. -/
structure Planned (order : List RequestId) (s : Scheduler) (ops : List WriteBackOperation)
    (s₁ : Scheduler) (res : List ForwardOperation × CacheOperations) (s' : Scheduler) : Prop where
  commits : Commits (if s.config.disableL2Cache then [] else order) s ops s₁
  forwards : Forwards (candidateIds order s₁.erased) s₁.erased res s'

theorem nextExecutionPlan_runs (h : Sound s) (hids : ∀ id ∈ order, id ∈ s.requests.map Request.id) :
    Runs (nextExecutionPlan order) s
      (fun plan s' => ∃ ops s₁ res, Planned order s ops s₁ res s' ∧ plan = planOf ops res)
      (fun e s' => Stops Label.ofPlan s e s' ∧ ∃ ops s₁,
        Commits (if s.config.disableL2Cache then [] else order) s ops s₁ ∧
        PlanFault (candidateIds order s₁.erased) s₁.erased ∧
        PlanFails (candidateIds order s₁.erased) s₁.erased e s') := by
  unfold nextExecutionPlan
  refine (newWriteBackOperation_returns h hids).bind fun ops s₁ hc => ?_
  obtain ⟨ls,hs,hl,_⟩ := hc.steps
  have hsteps := hs.append (Steps.single .erase)
  have hlabels : ∀ ℓ ∈ ls ++ [Label.internal []], ℓ.ofPlan := by
    intro ℓ hℓ
    rcases List.mem_append.mp hℓ with hℓ | hℓ
    · rcases hl ℓ hℓ with hi | ⟨op,rfl⟩
      · exact hi.ofPlan
      · trivial
    · rw [List.mem_singleton.mp hℓ]
      trivial
  rw [runs_bind,eraseFinished,runs_modify,runs_bind,runs_get]
  change Runs _ s₁.erased _ _
  have hcand : ∀ r ∈ (order.filterMap s₁.erased.findRequest).filter fun r => r.state.isCandidate,
      r.id ∈ s₁.erased.requests.map Request.id := by
    intro r hr
    obtain ⟨id,_,hfind⟩ := List.mem_filterMap.mp (List.mem_filter.mp hr).1
    exact List.mem_map.mpr ⟨r,(findRequest_some hfind).1,rfl⟩
  refine Runs.bind ((newForwardOperation_runs (hsteps.sound h) hcand).imp (fun _ _ hq => hq) ?_) ?_
  · rintro e s' ⟨hstop,hfault⟩
    exact ⟨hstop.after hsteps hlabels,ops,s₁,hc,hfault⟩
  · rintro ⟨rows,cache⟩ s' hf
    cases cache with
    | loadBack l => exact ⟨ops,s₁,_,⟨hc,hf⟩,rfl⟩
    | writeBack l => exact ⟨ops,s₁,_,⟨hc,hf⟩,rfl⟩

/-- A plan is made of transitions; they issue its write-backs and load what it loads back. -/
theorem Planned.steps {res : List ForwardOperation × CacheOperations}
    (h : Planned order s ops s₁ res s') :
    ∃ ls, Steps s ls s' ∧ (∀ ℓ ∈ ls, ℓ.ofPlan) ∧ issuedOf ls = (planOf ops res).writeBack ∧
      ∀ op ∈ (planOf ops res).loadBack, ∃ loads, Label.internal loads ∈ ls ∧ op.transfers ⊆ loads := by
  obtain ⟨ls,hs,hl,hi⟩ := h.commits.steps
  have hsteps : Steps s (ls ++ [.internal []]) s₁.erased := hs.append (Steps.single .erase)
  have hlabels : ∀ ℓ ∈ ls ++ [Label.internal []], ℓ.ofPlan := by
    intro ℓ hℓ
    rcases List.mem_append.mp hℓ with hℓ | hℓ
    · rcases hl ℓ hℓ with hi | ⟨op,rfl⟩
      · exact hi.ofPlan
      · trivial
    · rw [List.mem_singleton.mp hℓ]
      trivial
  have hissued : issuedOf (ls ++ [Label.internal []]) = ops := by
    rw [issuedOf_append,hi,issuedOf_internal (by simp [Label.isInternal]),List.append_nil]
  cases h.forwards with
  | rows visits ends some =>
    obtain ⟨ls',hs',hi',new,hnew,hcov⟩ := visits.proceeds.steps
    refine ⟨_,hsteps.append hs',?_,?_,?_⟩
    · intro ℓ hℓ
      exact (List.mem_append.mp hℓ).elim (hlabels ℓ) fun hm => (hi' ℓ hm).ofPlan
    · rw [issuedOf_append,hissued,issuedOf_internal hi',List.append_nil]
      rfl
    · intro op hop
      change op ∈ _ at hop
      rw [List.nil_append] at hnew
      obtain ⟨loads,hmem,hsub⟩ := hcov op (hnew ▸ hop)
      exact ⟨loads,List.mem_append.mpr (Or.inr hmem),hsub⟩
  | retract visits ends empty longest run =>
    obtain ⟨ls',hs',hi',_⟩ := visits.proceeds.steps
    obtain ⟨ls'',hs'',hp'',hiss''⟩ := run.steps
    refine ⟨_,(hsteps.append hs').append hs'',?_,?_,by simp [planOf]⟩
    · intro ℓ hℓ
      rcases List.mem_append.mp hℓ with hℓ | hℓ
      · exact (List.mem_append.mp hℓ).elim (hlabels ℓ) fun hm => (hi' ℓ hm).ofPlan
      · exact hp'' ℓ hℓ
    · rw [issuedOf_append,issuedOf_append,hissued,issuedOf_internal hi',List.append_nil,hiss'']
      rfl

end FluxServe
