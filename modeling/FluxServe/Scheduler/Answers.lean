import FluxServe.Scheduler.Frames
import FluxServe.Scheduler.Termination

namespace FluxServe

open KVPrefixCache

variable {s s' : Scheduler} {r x : Request} {st' : RequestState} {ev : Event} {fresh : List NodeId}

/-- The states that take the tokens of a result. -/
def RequestState.takesTokens : RequestState → Bool
  | .prefillDone _ _ _ => true
  | .decoding _ _ => true
  | .retracting _ _ _ _ => true
  | .retracted _ _ => true
  | _ => false

/-- How an event leads to a request of the state after it. -/
inductive Answers (ev : Event) (s s' : Scheduler) (x : Request) : Prop
  | same (found : x ∈ s.requests) (paths : KeepsPaths x s.kv s'.kv)
  | left (done : x.state.inService = false)
  | extended {r : Request} {tokens : List Token} (event : ev = .extendResult x.id tokens)
      (found : r ∈ s.requests) (before : r.state.takesTokens = true)
      (after : x = { r with tokens := r.tokens ++ tokens }) (paths : KeepsPaths x s.kv s'.kv)
  | reserved {r : Request} {f : ForwardState} {n m : Int}
      (event : ev = .updateReserveNumTokens x.id m) (found : r ∈ s.requests)
      (before : r.state = .decoding f n) (after : x = { r with state := .decoding f m })
      (paths : KeepsPaths x s.kv s'.kv)
  | lost {r : Request} {f : ForwardState} (event : ev = .finish x.id) (found : r ∈ s.requests)
      (before : r.state.forward? = some f) (id : x.id = r.id)
      (after : x.state.forward? = some { f with localKVAllocator := none })
      (decodable : x.state.isDecodable = true) (served : r.state.isDecodable = true)
  | recoverable {r : Request} {d : Option NodeId} {h : NodeId} {l : LocalKVAllocator}
      {pairs : List TransferPair} (found : r ∈ s.requests)
      (before : r.state = .retracting d h l pairs) (after : x = { r with state := .retracted h l })
      (tokens : pathTokens s'.kv.tree h = pathTokens s.kv.tree h)

/-- What an event leaves of the requests. -/
structure Answered (ev : Event) (s s' : Scheduler) : Prop where
  sound : Sound s'
  config : s'.config = s.config
  ids : s'.requests.map Request.id = s.requests.map Request.id
  answers : ∀ x ∈ s'.requests, Answers ev s s' x

theorem answered_refl (h : Sound s) : Answered ev s s :=
  ⟨h,rfl,rfl,fun x hx => .same hx (keepsPaths_of_tree x rfl)⟩

/-- Every request but the one that changed is left alone. -/
theorem Becomes.answered (h : Becomes r x s s') (hx : Answers ev s s' x) : Answered ev s s' := by
  refine ⟨h.sound,h.config,?_,fun y hy => ?_⟩
  · rw [h.requests,List.map_map]
    refine List.map_congr_left fun y _ => ?_
    by_cases hid : y.id = r.id <;> simp [hid,h.id]
  · rcases h.cases hy with rfl | ⟨hold,_,hpaths⟩
    · exact hx
    · exact .same hold hpaths

theorem Move.answered (h : Move r st' fresh s s') (hs : Sound s)
    (hx : Answers ev s s' { r with state := st' }) : Answered ev s s' := (h.becomes hs).answered hx

/-- A move out of service is an answer to any event. -/
theorem Move.answered_over (h : Move r st' fresh s s') (hs : Sound s)
    (hst : st'.inService = false) : Answered ev s s' := h.answered hs (.left hst)

theorem extended_becomes (h : Sound s) (hr : r ∈ s.requests) (tokens : List Token) :
    Becomes r { r with tokens := r.tokens ++ tokens } s
      (s.updateRequest r.id fun r => { r with tokens := r.tokens ++ tokens }) := by
  refine ⟨hr,rfl,h.extend r.id tokens,rfl,List.map_congr_left fun y hy => ?_,fun y _ _ =>
    keepsPaths_of_tree y rfl⟩
  by_cases hid : y.id = r.id
  · obtain rfl : y = r := List.inj_on_of_nodup_map h.ids hy hr hid
    rfl
  · rw [if_neg hid,if_neg hid]

theorem extended_answered (h : Sound s) (hr : r ∈ s.requests) (tokens : List Token)
    (hst : r.state.takesTokens = true) :
    Answered (.extendResult r.id tokens) s
      (s.updateRequest r.id fun r => { r with tokens := r.tokens ++ tokens }) :=
  (extended_becomes h hr tokens).answered (.extended rfl hr hst rfl (keepsPaths_of_tree _ rfl))

/-- What an event that comes back, or throws, leaves. -/
def Replies (ev : Event) (s : Scheduler) (g : Sched Unit) : Prop :=
  Runs g s (fun _ s' => Answered ev s s') (fun e s' => ∀ y, e = .exception y → Answered ev s s')

theorem replies_same (h : Sound s) (y : Fault) : Replies ev s (throw y) :=
  fun _ _ => answered_refl h

theorem extendResultEvent_replies (h : Sound s) (hr : r ∈ s.requests) (tokens : List Token) :
    Replies (.extendResult r.id tokens) s (extendResultEvent r tokens) := by
  have hext := fun hst => extended_answered h hr tokens hst
  unfold Replies extendResultEvent
  cases hst : r.state with
  | prefillDone | retracting | retracted => exact hext (by rw [hst]; rfl)
  | decoding f n =>
    simp only [extendTokens]
    rw [runs_bind,runs_modify]
    split
    · exact fun _ _ => hext (by rw [hst]; rfl)
    · exact hext (by rw [hst]; rfl)
  | finished => exact answered_refl h
  | submitted | prefilling | draining | writingBack => exact fun _ _ => answered_refl h

theorem updateReserveNumTokensEvent_replies (h : Sound s) (hr : r ∈ s.requests) (n : Int) :
    Replies (.updateReserveNumTokens r.id n) s (updateReserveNumTokensEvent r n) := by
  unfold Replies updateReserveNumTokensEvent
  cases hst : r.state with
  | decoding f m =>
    rw [runs_setState]
    have hf : r.state.forward? = some f := by rw [hst]; rfl
    have hsplit := h.split hr
    rw [localAllocatorPages_of_forward hf] at hsplit
    have hmove : Move r (.decoding f n) [] s (s.withState r.id (.decoding f n)) := by
      refine h.forward_move hr hf rfl rfl rfl hsplit (Change.refl _ _) (fun l hl => ?_) rfl rfl rfl rfl
      exact (h.requests r hr).tail l (by rw [local_of_forward hf]; exact hl)
    exact hmove.answered h (.reserved rfl hr hst rfl (keepsPaths_of_tree _ rfl))
  | retracting | retracted | finished => exact answered_refl h
  | submitted | prefilling | prefillDone | draining | writingBack => exact fun _ _ => answered_refl h

theorem finishEvent_replies (h : Sound s) (hr : r ∈ s.requests) :
    Replies (.finish r.id) s (finishEvent r) := by
  have hforward : ∀ f moved, r.state.forward? = some f →
      moved.forward? = some { f with localKVAllocator := none } → moved.isDecodable = true →
      r.state.isDecodable = true → Replies (.finish r.id) s (applyFinish r f moved) := by
    intro f moved hf hmoved hdecodable hserved
    refine (applyFinish_runs h hr hf hmoved).imp ?_ ?_
    · rintro _ s' ⟨hm | ⟨d,fresh,pairs,hm,_,_⟩,_⟩
      · exact hm.answered_over h rfl
      · exact hm.answered_over h rfl
    · rintro _ s' ⟨hm,_⟩ y rfl
      exact Move.answered hm h (.lost rfl hr hf rfl hmoved hdecodable hserved)
  have hdrop := dropToFinished_returns h hr
  unfold Replies finishEvent
  cases hst : r.state with
  | prefillDone f w n => exact hforward f _ (by rw [hst]; rfl) rfl rfl (by rw [hst]; rfl)
  | decoding f n => exact hforward f _ (by rw [hst]; rfl) rfl rfl (by rw [hst]; rfl)
  | retracting d hn l pairs =>
    exact (keepWriting_returns h hr hst).runs fun _ s' hm => hm.1.answered_over h rfl
  | retracted hn l =>
    rw [hst] at hdrop
    exact hdrop.runs fun _ s' hm => hm.answered_over h rfl
  | finished => exact answered_refl h
  | submitted | prefilling | draining | writingBack => exact fun _ _ => answered_refl h

theorem abortEvent_replies (h : Sound s) (hr : r ∈ s.requests) :
    Replies (.abort r.id) s (abortEvent r) := by
  refine (abortEvent_runs h hr).imp ?_ ?_
  · rintro _ s' ⟨_,hm | ⟨_,rfl⟩⟩
    · exact hm.answered_over h rfl
    · exact answered_refl h
  · rintro e s' ⟨rfl,_⟩ y _
    exact answered_refl h

theorem writeBackDoneEvent_replies (h : Sound s) (hr : r ∈ s.requests) (ev : Event) :
    Replies ev s (writeBackDoneEvent r) := by
  refine (writeBackDoneEvent_runs h hr).imp ?_ ?_
  · rintro _ s' (⟨d,n,hst,hm⟩ | ⟨d,n,l,pairs,hst,hm⟩)
    · exact hm.answered_over h rfl
    · obtain ⟨m,hm₁⟩ := h.kv.live (t := .host) (mem_refsOf.mpr ⟨r,hr,by rw [hst]; exact List.mem_singleton_self n⟩)
      obtain ⟨m',hm₂⟩ := hm.sound.kv.live (t := .host)
        (mem_refsOf.mpr ⟨_,hm.found',List.mem_singleton_self n⟩)
      exact hm.answered h (.recoverable hr hst rfl (hm.change.evolves.tokens hm₁ hm₂))
  · rintro e s' ⟨rfl,_⟩ y _
    exact answered_refl h

theorem Answered.of_untracked {opId : CacheOpId} (h : Answered ev (s.untracked opId) s') :
    Answered ev s s' := by
  refine ⟨h.sound,h.config,h.ids,fun x hx => ?_⟩
  cases h.answers x hx with
  | same found paths => exact .same found paths
  | left done => exact .left done
  | extended event found before after paths => exact .extended event found before after paths
  | reserved event found before after paths => exact .reserved event found before after paths
  | lost event found before id after decodable served =>
    exact .lost event found before id after decodable served
  | recoverable found before after tokens => exact .recoverable found before after tokens

theorem untracked_answered (h : Sound s) (opId : CacheOpId) : Answered ev s (s.untracked opId) :=
  (answered_refl (h.untracked opId)).of_untracked

theorem handleWriteBackDone_replies (h : Sound s) (opId : CacheOpId) :
    Replies ev s (handleWriteBackDone opId) := by
  unfold Replies handleWriteBackDone
  rw [runs_bind,runs_get]
  cases s.cacheOpTracker.lookup opId with
  | none => exact answered_refl h
  | some id =>
    dsimp only
    rw [runs_bind,eraseOp,runs_modify]
    change Runs _ (s.untracked opId) _ _
    split
    · refine onRequest_runs (untracked_answered h opId) fun r hr _ => ?_
      refine (writeBackDoneEvent_replies (h.untracked opId) hr ev).imp ?_ ?_
      · exact fun _ _ ha => ha.of_untracked
      · exact fun _ _ ha y hy => (ha y hy).of_untracked
    · exact untracked_answered h opId

/-- Every event answers for itself, also when it throws. -/
theorem handleEvent_replies (h : Sound s) (ev : Event) : Replies ev s (handleEvent ev) := by
  cases ev with
  | extendResult id tokens =>
    refine onRequest_runs (answered_refl h) fun r hr hid => ?_
    rw [← hid]
    exact extendResultEvent_replies h hr tokens
  | updateReserveNumTokens id n =>
    refine onRequest_runs (answered_refl h) fun r hr hid => ?_
    rw [← hid]
    exact updateReserveNumTokensEvent_replies h hr n
  | finish id =>
    refine onRequest_runs (answered_refl h) fun r hr hid => ?_
    rw [← hid]
    exact finishEvent_replies h hr
  | abort id =>
    refine onRequest_runs (answered_refl h) fun r hr hid => ?_
    rw [← hid]
    exact abortEvent_replies h hr
  | writeBackDone opId ok => exact handleWriteBackDone_replies h opId
  | prefetchDone opId id ok pages => exact untracked_answered h opId

/-- What each event of a batch keeps, the batch keeps, however far it gets. -/
theorem Calls.advance_invariant {I : Scheduler → Prop} {events : List Event} {reply : Reply}
    (hstep : ∀ ev ∈ events, ∀ {s s'}, Sound s → I s → Answered ev s s' → I s') (hs : Sound s)
    (hI : I s) (h : Calls s (.advance events) reply s') : I s' := by
  have hruns : Runs (advance events) s (fun _ s' => I s') (fun e s' => ∀ y, e = .exception y → I s') := by
    refine (runs_forM handleEvent (fun rest s' => rest ⊆ events ∧ Sound s' ∧ I s') ?_ events
      ⟨fun _ hx => hx,hs,hI⟩).imp (fun _ _ hi => hi.2.2) fun _ _ he => he
    rintro ev rest s₁ ⟨hsub,hs₁,hI₁⟩
    have hmem := hsub List.mem_cons_self
    refine (handleEvent_replies hs₁ ev).imp ?_ ?_
    · intro _ s₂ ha
      exact ⟨fun y hy => hsub (List.mem_cons_of_mem _ hy),ha.sound,hstep ev hmem hs₁ hI₁ ha⟩
    · exact fun e s₂ ha y hy => hstep ev hmem hs₁ hI₁ (ha y hy)
  cases h with
  | returns _ run =>
    have hrun : Runs (runCall (.advance events)) s (fun _ s' => I s')
        (fun e s' => ∀ y, e = .exception y → I s') := Runs.bind hruns fun _ _ hi => hi
    exact hrun.of_ok run
  | throws _ run =>
    have hrun : Runs (runCall (.advance events)) s (fun _ s' => I s')
        (fun e s' => ∀ y, e = .exception y → I s') := Runs.bind hruns fun _ _ hi => hi
    exact hrun.of_error run _ rfl

end FluxServe
