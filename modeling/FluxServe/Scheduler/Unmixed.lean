import FluxServe.Scheduler.Conservation
import FluxServe.Scheduler.GuardedRuns
import FluxServe.Scheduler.PlanTurns

namespace FluxServe

open KVPrefixCache

variable {config : SchedulerConfig} {clock : Nat → Timestamp} {history : List (Call × Reply)}
  {s s₀ s₁ s' : Scheduler} {r x y : Request} {a a' : Forwarding} {ids rest : List RequestId}
  {nodes : List NodeId} {op : ForwardOperation}

section Candidates

/-- A request whose next row may be a prefill. -/
def MayPrefill (r : Request) : Prop :=
  (∃ f w, r.state = .prefilling f w) ∨ r.state = .submitted ∧ 0 < r.prefillSize

/-- A submitted request with nothing to prefill: the cache has all of its prompt, or there is none. -/
def FullyCovered (s : Scheduler) (r : Request) : Prop :=
  r.state = .submitted ∧ ∃ T, Cached s r T ∧ r.prefillSize ≤ T.length

/-- No request may be prefilled while another one has nothing to prefill. -/
def Separate (s : Scheduler) : Prop :=
  ∀ r ∈ s.requests, ∀ r' ∈ s.requests, MayPrefill r → FullyCovered s r' → r = r'

/-- The requests that are visited before any that decodes. -/
def RequestState.isEarly : RequestState → Bool
  | .submitted => true
  | .prefilling _ _ => true
  | _ => false

/-- The requests whose next row is a decode. -/
def RequestState.isLate : RequestState → Bool
  | .prefillDone _ _ _ => true
  | .decoding _ _ => true
  | .retracted _ _ => true
  | _ => false

theorem MayPrefill.isEarly (h : MayPrefill r) : r.state.isEarly = true := by
  obtain ⟨f,w,hst⟩ | ⟨hst,_⟩ := h <;> rw [hst] <;> rfl

theorem priority_of_isEarly (c : SchedulerConfig) {st : RequestState} (h : st.isEarly = true) :
    priority c st ≤ 2 := by
  cases st with
  | submitted => exact Nat.le_refl 2
  | prefilling f w => exact Nat.le_succ 1
  | _ => cases h

theorem priority_of_isLate {c : SchedulerConfig} {st : RequestState}
    (hc : c.enableMixedPrefillDecode = false) (h : st.isLate = true) : 3 ≤ priority c st := by
  cases st with
  | prefillDone f w n => simp [priority,hc]
  | decoding f n => simp [priority,hc]
  | retracted h l => simp [priority]
  | _ => cases h

theorem not_visitedBefore_iff (c : SchedulerConfig) (a b : Request) :
    ¬visitedBefore c b a = true ↔ priority c a.state < priority c b.state ∨
      priority c a.state = priority c b.state ∧ ¬b.id < a.id := by
  unfold visitedBefore
  dsimp only
  split
  · next hne =>
    simp only [decide_eq_true_eq]
    omega
  · next heq =>
    simp only [decide_eq_true_eq]
    constructor
    · intro hlt
      exact .inr ⟨by omega,hlt⟩
    · rintro (hlt | ⟨_,hlt⟩)
      · omega
      · exact hlt

/-- Candidates are visited in the order of their priorities. -/
theorem sortCandidates_pairwise (c : SchedulerConfig) (rs : List Request) :
    (sortCandidates c rs).Pairwise fun a b => priority c a.state ≤ priority c b.state := by
  have htotal : Std.Total fun a b : Request => ¬visitedBefore c b a = true := by
    refine ⟨fun a b => ?_⟩
    rw [not_visitedBefore_iff,not_visitedBefore_iff]
    obtain hlt | heq | hlt := Nat.lt_trichotomy (priority c a.state) (priority c b.state)
    · exact .inl (.inl hlt)
    · by_cases hid : b.id < a.id
      · exact .inr (.inr ⟨heq.symm,List.lt_asymm hid⟩)
      · exact .inl (.inr ⟨heq,hid⟩)
    · exact .inr (.inl hlt)
  have htrans : IsTrans Request fun a b => ¬visitedBefore c b a = true := by
    refine ⟨fun a b d => ?_⟩
    rw [not_visitedBefore_iff,not_visitedBefore_iff,not_visitedBefore_iff]
    rintro (hab | ⟨hab,hid⟩) (hbd | ⟨hbd,hid'⟩)
    · exact .inl (by omega)
    · exact .inl (by omega)
    · exact .inl (by omega)
    · exact .inr ⟨by omega,List.not_lt.mpr
        (List.le_trans (List.not_lt.mp hid) (List.not_lt.mp hid'))⟩
  apply (List.pairwise_insertionSort _ rs).imp
  intro a b hab
  obtain hlt | ⟨heq,_⟩ := (not_visitedBefore_iff c a b).mp hab
  · omega
  · omega

end Candidates

section Visits

theorem LoadsBack.fields (h : LoadsBack a nodes s a' s') :
    a'.ops = a.ops ∧ a'.pushedPrefill = a.pushedPrefill ∧ s'.requests = s.requests := by
  cases h <;> exact ⟨rfl,rfl,rfl⟩

theorem Move.mem_other {st' : RequestState} {fresh : List NodeId} (h : Move r st' fresh s s')
    (hx : x ∈ s'.requests) (hne : x.id ≠ r.id) : x ∈ s.requests := by
  obtain ⟨y,_,hid,rfl⟩ | ⟨hold,_⟩ := h.mem_requests.mp hx
  · exact absurd hid hne
  · exact hold

/-- A visit leaves every other request alone. -/
theorem Visit.mem_other (h : Visit s a r (some a') s') (hx : x ∈ s'.requests) (hne : x.id ≠ r.id) :
    x ∈ s.requests := by
  cases h with
  | idle => exact hx
  | first _ visit =>
    cases visit with
    | short room => rwa [room.requests] at hx
    | row begins _ loads =>
      rw [loads.fields.2.2] at hx
      rw [← begins.room.requests]
      exact begins.chunk.move.mem_other hx hne
    | decoded begins _ _ decodes loads =>
      rw [loads.fields.2.2] at hx
      have hx₃ := decodes.move.mem_other hx hne
      rw [decodes.room.move.requests] at hx₃
      rw [← begins.room.requests]
      exact begins.chunk.move.mem_other hx₃ hne
    | @stuck s₁ s₂ s₃ _ _ _ _ _ _ begins _ room loads =>
      rw [loads.fields.2.2] at hx
      have hx₂ : x ∈ s₂.requests := by
        obtain rfl | room := room
        · exact hx
        · rwa [room.move.requests] at hx
      rw [← begins.room.requests]
      exact begins.chunk.move.mem_other hx₂ hne
  | noChunk _ room => rwa [room.move.requests] at hx
  | chunk chunks =>
    rw [← chunks.room.move.requests]
    exact chunks.move.mem_other hx hne
  | noDecode _ _ room => rwa [room.move.requests] at hx
  | decode _ _ _ decodes =>
    rw [← decodes.room.move.requests]
    exact decodes.move.mem_other hx hne
  | recover _ _ visit =>
    cases visit with
    | short room => rwa [room.requests] at hx
    | row recovers loads =>
      rw [loads.fields.2.2] at hx
      rw [← recovers.room.requests]
      exact recovers.recovered.move.mem_other hx hne

/-- The row that a visit adds to the plan, if any. -/
inductive Adds (s : Scheduler) (r : Request) (a a' : Forwarding) : Prop
  | nothing (ops : a'.ops = a.ops) (pushed : a'.pushedPrefill = a.pushedPrefill)
  | prefill {op : ForwardOperation} (ops : a'.ops = a.ops ++ [op])
      (own : op.base.requestId = r.id) (isPrefill : op.isPrefill = true)
      (pushed : a'.pushedPrefill = true) (may : MayPrefill r)
  | decode {op : ForwardOperation} (ops : a'.ops = a.ops ++ [op])
      (own : op.base.requestId = r.id) (isPrefill : op.isPrefill = false)
      (pushed : a'.pushedPrefill = a.pushedPrefill)
      (may : FullyCovered s r ∨ (s.config.enableMixedPrefillDecode = true ∨
        a.pushedPrefill = false) ∧ r.state.isLate = true)

theorem FirstVisit.adds (h : FirstVisit s a r a' s') (hs : Sound s) (hr : r ∈ s.requests)
    (hb : 0 < a.tokenBudget) : Adds s r a a' := by
  cases h with
  | short => exact .nothing rfl rfl
  | row begins pos loads =>
    have hbegun := begins.begun hs hr hb
    refine .prefill loads.fields.1 rfl rfl (loads.fields.2.1.trans (Bool.or_true _))
      (.inr ⟨hbegun.before,?_⟩)
    have hsize := hbegun.size
    have hstart := hbegun.start
    omega
  | decoded begins zero _ _ loads =>
    have hbegun := begins.begun hs hr hb
    refine .decode loads.fields.1 rfl rfl (loads.fields.2.1.trans (Bool.or_false _))
      (.inl ⟨hbegun.before,_,hbegun.cached,?_⟩)
    have hsize := hbegun.size
    have hstart := hbegun.start
    omega
  | stuck _ _ _ loads => exact .nothing loads.fields.1 loads.fields.2.1

theorem Visit.adds (h : Visit s a r (some a') s') (hs : Sound s) (hr : r ∈ s.requests)
    (hb : 0 < a.tokenBudget) : Adds s r a a' := by
  cases h with
  | idle => exact .nothing rfl rfl
  | first _ visit => exact visit.adds hs hr hb
  | noChunk => exact .nothing rfl rfl
  | chunk chunks =>
    exact .prefill rfl rfl rfl (Bool.or_true _) (.inl ⟨_,_,chunks.before⟩)
  | noDecode => exact .nothing rfl rfl
  | decode before goes =>
    refine .decode rfl rfl rfl (Bool.or_false _) (.inr ⟨goes,?_⟩)
    obtain ⟨w,hst⟩ | hst := before <;> rw [hst] <;> rfl
  | recover before goes visit =>
    cases visit with
    | short => exact .nothing rfl rfl
    | row _ loads =>
      refine .decode loads.fields.1 rfl rfl (loads.fields.2.1.trans (Bool.or_false _))
        (.inr ⟨goes,?_⟩)
      rw [before]
      rfl

theorem FullyCovered.ages (h : FullyCovered s r) (hconfig : s.config = s₀.config)
    (hages : Ages s₀.kv s.kv) : FullyCovered s₀ r := by
  obtain ⟨hst,T,hT,hlen⟩ := h
  refine ⟨hst,T,?_,hlen⟩
  obtain rfl | ⟨hon,hpref,t,hcov⟩ := hT
  · exact .inl rfl
  · rw [hconfig] at hon hpref
    refine .inr ⟨hon,hpref,?_⟩
    cases t with
    | device =>
      obtain hcov | hcov := hages.device T hcov
      · exact ⟨.device,hcov⟩
      · exact ⟨.host,hcov⟩
    | host => exact ⟨.host,(hages.host T).mp hcov⟩

/-- The loop over the candidates: what it has collected is not mixed, and what is still to come
cannot mix it. -/
structure Unmixed (s₀ : Scheduler) (ids : List RequestId) (a : Forwarding) (s : Scheduler) :
    Prop where
  config : s.config = s₀.config
  ages : Ages s₀.kv s.kv
  nodup : ids.Nodup
  waiting : ∀ x ∈ s.requests, x.id ∈ ids → x ∈ s₀.requests
  ordered : ids.Pairwise fun i j => ∀ x ∈ s₀.requests, ∀ y ∈ s₀.requests, x.id = i → y.id = j →
    priority s₀.config x.state ≤ priority s₀.config y.state
  prefills : (∃ op ∈ a.ops, op.isPrefill = true) → a.pushedPrefill = true ∧
    ∃ x ∈ s₀.requests, x.id ∉ ids ∧ MayPrefill x
  decodes : (∃ op ∈ a.ops, op.isPrefill = false) →
    (∃ x ∈ s₀.requests, x.id ∉ ids ∧ FullyCovered s₀ x) ∨
      ∀ x ∈ s₀.requests, x.id ∈ ids → x.state.isEarly = false
  unmixed : ¬((∃ op ∈ a.ops, op.isPrefill = true) ∧ ∃ op ∈ a.ops, op.isPrefill = false)

theorem exists_mem_append_singleton {P : ForwardOperation → Prop} {ops : List ForwardOperation} :
    (∃ x ∈ ops ++ [op], P x) ↔ (∃ x ∈ ops, P x) ∨ P op := by
  constructor
  · rintro ⟨x,hx,hP⟩
    obtain hx | hx := List.mem_append.mp hx
    · exact .inl ⟨x,hx,hP⟩
    · exact .inr (List.mem_singleton.mp hx ▸ hP)
  · rintro (⟨x,hx,hP⟩ | hP)
    · exact ⟨x,List.mem_append_left _ hx,hP⟩
    · exact ⟨op,List.mem_append_right _ (List.mem_singleton_self op),hP⟩

/-- One visit. -/
theorem Unmixed.visit (h : Unmixed s₀ (r.id :: ids) a s) (hs : Sound s)
    (hmixed : s₀.config.enableMixedPrefillDecode = false) (hsep : Separate s₀)
    (hr : r ∈ s.requests) (hb : 0 < a.tokenBudget) (hv : Visit s a r (some a') s') :
    Unmixed s₀ ids a' s' := by
  have hproceeds := hv.proceeds
  obtain ⟨hnot,hnodup⟩ := List.nodup_cons.mp h.nodup
  obtain ⟨hfirst,hordered⟩ := List.pairwise_cons.mp h.ordered
  have hr₀ : r ∈ s₀.requests := h.waiting r hr List.mem_cons_self
  have hwaiting : ∀ x ∈ s'.requests, x.id ∈ ids → x ∈ s₀.requests := by
    intro x hx hid
    have hne : x.id ≠ r.id := fun heq => hnot (heq ▸ hid)
    exact h.waiting x (hv.mem_other hx hne) (List.mem_cons_of_mem _ hid)
  have hpast : ∀ {P : Request → Prop}, (∃ x ∈ s₀.requests, x.id ∉ r.id :: ids ∧ P x) →
      ∃ x ∈ s₀.requests, x.id ∉ ids ∧ P x := by
    rintro P ⟨x,hx,hid,hP⟩
    exact ⟨x,hx,fun hmem => hid (List.mem_cons_of_mem _ hmem),hP⟩
  have hlate : (∀ x ∈ s₀.requests, x.id ∈ r.id :: ids → x.state.isEarly = false) →
      ∀ x ∈ s₀.requests, x.id ∈ ids → x.state.isEarly = false :=
    fun hall x hx hid => hall x hx (List.mem_cons_of_mem _ hid)
  obtain ⟨hconfig,hages⟩ : s'.config = s₀.config ∧ Ages s₀.kv s'.kv :=
    ⟨hproceeds.config.trans h.config,h.ages.trans hproceeds.ages⟩
  cases hv.adds hs hr hb with
  | nothing ops pushed =>
    refine ⟨hconfig,hages,hnodup,hwaiting,hordered,?_,?_,?_⟩
    · rw [ops,pushed]
      intro hp
      exact ⟨(h.prefills hp).1,hpast (h.prefills hp).2⟩
    · rw [ops]
      exact fun hd => (h.decodes hd).imp hpast hlate
    · rw [ops]
      exact h.unmixed
  | prefill ops _ isPrefill pushed may =>
    have hnone : ¬∃ op ∈ a.ops, op.isPrefill = false := by
      intro hd
      obtain ⟨x,hx,hid,hcov⟩ | hall := h.decodes hd
      · have heq := hsep r hr₀ x hx may hcov
        exact hid (heq ▸ List.mem_cons_self)
      · have hearly := hall r hr₀ List.mem_cons_self
        rw [may.isEarly] at hearly
        cases hearly
    refine ⟨hconfig,hages,hnodup,hwaiting,hordered,?_,?_,?_⟩
    · exact fun _ => ⟨pushed,r,hr₀,hnot,may⟩
    · rw [ops,exists_mem_append_singleton]
      rintro (hd | hd)
      · exact absurd hd hnone
      · rw [isPrefill] at hd
        cases hd
    · rw [ops,exists_mem_append_singleton,exists_mem_append_singleton]
      rintro ⟨_,hd | hd⟩
      · exact hnone hd
      · rw [isPrefill] at hd
        cases hd
  | decode ops _ isPrefill pushed may =>
    have hnone : ¬∃ op ∈ a.ops, op.isPrefill = true := by
      intro hp
      obtain ⟨hpushed,x,hx,hid,hmay⟩ := h.prefills hp
      obtain hcov | ⟨hgoes,_⟩ := may
      · have heq := hsep x hx r hr₀ hmay (hcov.ages h.config h.ages)
        exact hid (heq ▸ List.mem_cons_self)
      · rw [h.config,hmixed,hpushed] at hgoes
        simp at hgoes
    refine ⟨hconfig,hages,hnodup,hwaiting,hordered,?_,?_,?_⟩
    · rw [ops,exists_mem_append_singleton]
      rintro (hp | hp)
      · exact absurd hp hnone
      · rw [isPrefill] at hp
        cases hp
    · intro _
      obtain hcov | ⟨_,hr_late⟩ := may
      · exact .inl ⟨r,hr₀,hnot,hcov.ages h.config h.ages⟩
      · refine .inr fun x hx hid => ?_
        have hle := hfirst x.id hid r hr₀ x hx rfl rfl
        have hpriority := priority_of_isLate hmixed hr_late
        cases hearly : x.state.isEarly with
        | false => rfl
        | true =>
          have := priority_of_isEarly s₀.config hearly
          omega
    · rw [ops,exists_mem_append_singleton,exists_mem_append_singleton]
      rintro ⟨hp | hp,_⟩
      · exact hnone hp
      · rw [isPrefill] at hp
        cases hp

theorem Visits.unmixed (hv : Visits ids a s rest a' s') (h : Unmixed s₀ ids a s) (hs : Sound s)
    (hmixed : s₀.config.enableMixedPrefillDecode = false) (hsep : Separate s₀) :
    Unmixed s₀ rest a' s' := by
  induction hv with
  | refl => exact h
  | cons budget _ found visit _ ih =>
    exact ih (h.visit hs hmixed hsep found budget visit) (visit.proceeds.sound hs)

end Visits

section Plan

variable {order : List RequestId} {ops : List WriteBackOperation}
  {res : List ForwardOperation × CacheOperations} {plan : ExecutionPlan}

theorem mem_candidates (hx : x ∈ (order.filterMap s.findRequest).filter fun r => r.state.isCandidate) :
    x ∈ s.requests := by
  obtain ⟨id,_,hfind⟩ := List.mem_filterMap.mp (List.mem_filter.mp hx).1
  exact (findRequest_some hfind).1

theorem map_id_findRequest (s : Scheduler) (order : List RequestId) :
    ((order.filterMap s.findRequest).map Request.id).Sublist order := by
  induction order with
  | nil => exact .slnil
  | cons id order ih =>
    rw [List.filterMap_cons]
    split
    · exact ih.cons _
    · next x hx =>
      rw [List.map_cons,(findRequest_some hx).2]
      exact ih.cons_cons _

theorem candidateIds_nodup (s : Scheduler) (h : order.Nodup) : (candidateIds order s).Nodup := by
  have hsub : (((order.filterMap s.findRequest).filter fun r => r.state.isCandidate).map
      Request.id).Sublist order :=
    (List.filter_sublist.map Request.id).trans (map_id_findRequest s order)
  exact (((List.perm_insertionSort _ _).map Request.id).nodup_iff).mpr (h.sublist hsub)

/-- The loop starts with nothing collected. -/
theorem unmixed_start (hs : Sound s) (h : order.Nodup) (budget : Int) :
    Unmixed s (candidateIds order s) { tokenBudget := budget } s where
  config := rfl
  ages := Ages.refl _
  nodup := candidateIds_nodup s h
  waiting _ hx _ := hx
  ordered := by
    unfold candidateIds
    rw [List.pairwise_map]
    apply (sortCandidates_pairwise s.config _).imp_of_mem
    intro x y hx hy hle x' hx' y' hy' hid hid'
    have hin (z : Request) (hz : z ∈ sortCandidates s.config ((order.filterMap s.findRequest).filter
        fun r => r.state.isCandidate)) : z ∈ s.requests :=
      mem_candidates ((List.perm_insertionSort _ _).mem_iff.mp hz)
    obtain rfl := List.inj_on_of_nodup_map hs.ids hx' (hin x hx) hid
    obtain rfl := List.inj_on_of_nodup_map hs.ids hy' (hin y hy) hid'
    exact hle
  prefills h := by simp at h
  decodes h := by simp at h
  unmixed h := by simp at h

/-- The write-backs that open a plan separate nothing and join nothing. -/
theorem Commits.separate (h : Commits order s ops s₁) (hc : Copying s) (hsep : Separate s) :
    Separate s₁.erased := by
  have hfound (x : Request) (hx : x ∈ s₁.erased.requests) (hst : x.state.isEarly = true) :
      x ∈ s.requests := by
    apply h.found hc (List.mem_filter.mp hx).1
    intro d n heq
    rw [heq] at hst
    cases hst
  intro r hr r' hr' hmay ⟨hst,T,hT,hlen⟩
  refine hsep r (hfound r hr hmay.isEarly) r' (hfound r' hr' (by rw [hst]; rfl)) hmay
    ⟨hst,T,?_,hlen⟩
  have hconfig : s₁.erased.config = s.config := h.config
  have htree : s₁.erased.kv.tree = s.kv.tree := h.tree_eq hc
  unfold Cached at hT
  rwa [hconfig,htree] at hT

/-- A plan with rows of both kinds. -/
def ExecutionPlan.Mixed (p : ExecutionPlan) : Prop :=
  (∃ op ∈ p.forward, op.isPrefill = true) ∧ ∃ op ∈ p.forward, op.isPrefill = false

theorem mem_forward_iff : op ∈ (planOf ops res).forward ↔ op ∈ res.1 := by
  have hforward : (planOf ops res).forward = res.1.filter ForwardOperation.isPrefill ++
      res.1.filter fun op => !op.isPrefill := by
    unfold planOf
    cases res.2 <;> rfl
  rw [hforward,List.mem_append,List.mem_filter,List.mem_filter]
  cases op.isPrefill <;> simp

theorem Planned.unmixed (h : Planned order s ops s₁ res s') (hs : Sound s) (hc : Copying s)
    (hnodup : order.Nodup) (hmixed : s.config.enableMixedPrefillDecode = false)
    (hsep : Separate s) : ¬(planOf ops res).Mixed := by
  have hsound : Sound s₁.erased := (erased_turn (h.commits.turn hs hc).sound).sound
  have hconfig : s₁.erased.config.enableMixedPrefillDecode = false := by
    rw [← hmixed]
    exact congrArg _ h.commits.config
  have hsep' := h.commits.separate hc hsep
  unfold ExecutionPlan.Mixed
  simp only [mem_forward_iff]
  cases h.forwards with
  | rows visits =>
    exact (visits.unmixed (unmixed_start hsound hnodup _) hsound hconfig hsep').unmixed
  | retract => simp

/-- A plan that comes back. -/
theorem Calls.planned (h : Calls s (.plan order) (.plan plan) s') (hs : Sound s) :
    ∃ ops s₁ res, order.Nodup ∧ Planned order s ops s₁ res s' ∧ planOf ops res = plan := by
  cases h with
  | returns ordered run =>
    have hids : ∀ id ∈ order, id ∈ s.requests.map Request.id := fun id hid =>
      ordered.mem_iff.mp hid
    have hplan := nextExecutionPlan_runs hs hids
    change ((nextExecutionPlan order >>= fun p => pure (Reply.plan p)) s) = _ at run
    simp only [bind,EStateM.bind] at run
    unfold Runs at hplan
    cases hrun : nextExecutionPlan order s with
    | error e s₂ =>
      rw [hrun] at run
      cases run
    | ok p s₂ =>
      rw [hrun] at run hplan
      injection run with hreply hstate
      injection hreply with hreply
      rw [← hstate,← hreply]
      obtain ⟨ops,s₁,res,hplanned,rfl⟩ := hplan
      exact ⟨ops,s₁,res,ordered.nodup_iff.mpr hs.ids,hplanned,rfl⟩

/-- No plan made while no request may be prefilled next to one with nothing to prefill is mixed. -/
theorem Calls.unmixed (h : Calls s (.plan order) (.plan plan) s') (hs : Sound s) (hc : Copying s)
    (hmixed : s.config.enableMixedPrefillDecode = false) (hsep : Separate s) : ¬plan.Mixed := by
  obtain ⟨ops,s₁,res,hnodup,hplanned,rfl⟩ := h.planned hs
  exact hplanned.unmixed hs hc hnodup hmixed hsep

/-- Without mixing enabled no plan of a run has both a prefill and a decode row, if none of them is
asked for while a request may be prefilled next to one with nothing to prefill. -/
theorem plans_unmixed (hmixed : config.enableMixedPrefillDecode = false)
    (h : RunWhere (fun s c => ∀ order, c = .plan order → Separate s) (Scheduler.new config clock)
      history s) :
    ∀ order plan, (.plan order,.plan plan) ∈ history → ¬plan.Mixed := by
  induction h with
  | nil =>
    intro order plan hmem
    cases hmem
  | @call later s₁ s₂ c reply run meets calls ih =>
    intro order plan hmem
    obtain hlast | hmem := List.mem_cons.mp hmem
    · injection hlast with hcall hreply
      have hreaches := Reaches.of_continues run.continues
      rw [← hcall,← hreply] at calls
      apply calls.unmixed hreaches.sound hreaches.copying ?_ (meets order hcall.symm)
      rw [hreaches.config_eq]
      exact hmixed
    · exact ih order plan hmem

theorem separate_of_single (h : s.requests.length ≤ 1) : Separate s := by
  intro r hr r' hr' _ _
  obtain ⟨n,hn,rfl⟩ := List.mem_iff_getElem.mp hr
  obtain ⟨m,hm,rfl⟩ := List.mem_iff_getElem.mp hr'
  obtain rfl : n = m := by omega
  rfl

/-- The plan of a lone prompt. -/
def prefillPlan : ExecutionPlan where
  forward := [.prefill
    { requestId := [1], requestPoolIndex := 1, inputLength := 2, occupiedPages := [8,7,6],
      start := 0, size := 3, prefillLength := 2 } [7,8] [8,-1] 0]

theorem plans_unmixed_single : ∃ history s,
    RunWhere (fun s c => ∀ order, c = .plan order → Separate s)
      (Scheduler.new (smallConfig 9 9) id) history s ∧
    (.plan [[1]],.plan prefillPlan) ∈ history ∧ ¬prefillPlan.Mixed := by
  obtain ⟨x,hx,hsubmit,hone,y,hy,hplan⟩ :
      ∃ x, replayCall ([],Scheduler.new (smallConfig 9 9) id)
          (.submit [{ requestId := [1], tokens := [7,8] }]) = some x ∧
        x.1 = [(.submit [{ requestId := [1], tokens := [7,8] }],.done)] ∧
        x.2.requests.length ≤ 1 ∧
        ∃ y, replayCall x (.plan [[1]]) = some y ∧
          y.1 = (.plan [[1]],.plan prefillPlan) :: x.1 := by
    decide +kernel
  have hsubmitted := calls_of_replayCall_eq hx hsubmit
  have hplanned := calls_of_replayCall_eq hy hplan
  have hrun : RunWhere (fun s c => ∀ order, c = .plan order → Separate s)
      (Scheduler.new (smallConfig 9 9) id) _ y.2 :=
    .call (.call .nil (fun order h => by cases h) hsubmitted)
      (fun order _ => separate_of_single hone) hplanned
  have hmem := List.mem_cons_self (a := ((.plan [[1]],.plan prefillPlan) : Call × Reply))
    (l := [(.submit [{ requestId := [1], tokens := [7,8] }],.done)])
  exact ⟨_,_,hrun,hmem,plans_unmixed rfl hrun [[1]] prefillPlan hmem⟩

/-- The plan of a prompt next to one that is shorter than a page. -/
def mixedPlan : ExecutionPlan where
  forward := [.prefill
      { requestId := [1], requestPoolIndex := 1, inputLength := 2, occupiedPages := [8,7,6],
        start := 0, size := 3, prefillLength := 2 } [7,8] [8,-1] 0,
    .decode
      { requestId := [2], requestPoolIndex := 2, inputLength := 1, occupiedPages := [5,4],
        start := 1, size := 1, prefillLength := 0 } (-1) (-1)]

/-- A prompt with nothing to prefill decodes in the plan that prefills another one. -/
theorem plan_mixed : ∃ history s s',
    Reaches (smallConfig 9 9) id history s ∧
    (smallConfig 9 9).enableMixedPrefillDecode = false ∧
    Calls s (.plan [[1],[2]]) (.plan mixedPlan) s' ∧ mixedPlan.Mixed := by
  obtain ⟨x,hx,y,hy,hplan⟩ :
      ∃ x, replay (smallConfig 9 9) id [.submit [{ requestId := [1], tokens := [7,8] },
          { requestId := [2], tokens := [5], prefillLength := 0 }]] = some x ∧
        ∃ y, replayCall x (.plan [[1],[2]]) = some y ∧
          y.1 = (.plan [[1],[2]],.plan mixedPlan) :: x.1 := by
    decide +kernel
  refine ⟨x.1,x.2,y.2,reaches_of_replay hx,rfl,calls_of_replayCall_eq hy hplan,?_,?_⟩
  · exact ⟨_,List.mem_cons_self,rfl⟩
  · exact ⟨_,List.mem_cons_of_mem _ List.mem_cons_self,rfl⟩

end Plan

end FluxServe
