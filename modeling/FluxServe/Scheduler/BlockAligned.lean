import FluxServe.Scheduler.AdvanceProof
import Mathlib.Algebra.BigOperators.Group.List.Basic

namespace FluxServe

open KVPrefixCache

variable {config : SchedulerConfig} {clock : Nat → Timestamp} {history : List (Call × Reply)}
  {s s₁ s' : Scheduler} {r x y : Request} {a a' : Forwarding} {ids rest order : List RequestId}
  {d : Int} {plan : ExecutionPlan} {nodes : List NodeId} {op : ForwardOperation}
  {specs : List RequestSpec} {reply : Reply} {f : ForwardState} {w : Window}

section Submit

/-- What the constructor of a request asks of a specification. -/
structure RequestSpec.Accepted (spec : RequestSpec) : Prop where
  least : -1 ≤ spec.prefillLength
  most : spec.prefillLength ≤ spec.tokens.length

theorem submitRequest_accepts (spec : RequestSpec) (s : Scheduler) :
    Runs (submitRequest spec) s
      (fun _ s' => s' = s ∨ spec.Accepted ∧ s' = { s with requests := s.requests ++ [spec.request] })
      (fun _ s' => s' = s) := by
  by_cases hlen : spec.prefillLength < -1 ∨ (spec.tokens.length : Int) < spec.prefillLength
  · unfold submitRequest
    rw [if_pos hlen]
    exact rfl
  · apply submitRequest_takes.imp
    · intro _ s' htakes
      obtain hsame | ⟨_,hnew⟩ := htakes
      · exact .inl hsame
      · exact .inr ⟨⟨by omega,by omega⟩,hnew⟩
    · intro _ s' hsame
      exact hsame

/-- The requests after a submission. -/
theorem Calls.mem_submitted (h : Calls s (.submit specs) reply s') (hx : x ∈ s'.requests) :
    x ∈ s.requests ∨ ∃ spec ∈ specs, spec.Accepted ∧ x = spec.request := by
  let I : Scheduler → Prop := fun s' =>
    ∀ x ∈ s'.requests, x ∈ s.requests ∨ ∃ spec ∈ specs, spec.Accepted ∧ x = spec.request
  have hloop : Runs (submitRequests specs) s (fun _ s' => I s') (fun _ s' => I s') := by
    have hone : ∀ spec rest s₁, (spec :: rest ⊆ specs ∧ I s₁) →
        Runs (submitRequest spec) s₁ (fun _ s' => rest ⊆ specs ∧ I s') (fun _ s' => I s') := by
      rintro spec rest s₁ ⟨hsub,hI⟩
      apply (submitRequest_accepts spec s₁).imp
      · intro _ s₂ haccepts
        refine ⟨fun y hy => hsub (List.mem_cons_of_mem _ hy),?_⟩
        obtain rfl | ⟨haccepted,rfl⟩ := haccepts
        · exact hI
        · intro x hx
          obtain hold | hnew := List.mem_append.mp hx
          · exact hI x hold
          · exact .inr ⟨spec,hsub List.mem_cons_self,haccepted,List.mem_singleton.mp hnew⟩
      · intro _ s₂ hsame
        rw [hsame]
        exact hI
    exact (runs_forM submitRequest (fun rest s' => rest ⊆ specs ∧ I s') hone specs
      ⟨fun _ hy => hy,fun x hx => .inl hx⟩).imp (fun _ _ hi => hi.2) fun _ _ hi => hi
  have hruns : Runs (runCall (.submit specs)) s (fun _ s' => I s') (fun _ s' => I s') :=
    hloop.bind fun _ _ hi => hi
  cases h with
  | returns _ run => exact hruns.of_ok run x hx
  | throws _ run => exact hruns.of_error run x hx

end Submit

section Aligned

/-- A request whose prompt, and what is scheduled of it, are whole blocks. -/
structure Request.Aligned (d : Int) (r : Request) : Prop where
  prefillSize : d ∣ r.prefillSize
  nonneg : 0 ≤ r.prefillSize
  window : ∀ f w, r.state = .prefilling f w →
    d ∣ w.start ∧ d ∣ w.size ∧ w.start+w.size < r.prefillSize

/-- Every request that is still to be prefilled is. -/
def Scheduler.Aligned (d : Int) (s : Scheduler) : Prop :=
  ∀ x ∈ s.requests, x.state.isEarly = true → x.Aligned d

/-- A prefill row of whole blocks, at least one. -/
def ForwardOperation.Aligned (d : Int) (op : ForwardOperation) : Prop :=
  op.isPrefill = true → d ∣ op.extendPrefixLen ∧ d ∣ op.base.inputLength ∧ 0 < op.base.inputLength

def inputLengths (ops : List ForwardOperation) : Int := (ops.map fun op => op.base.inputLength).sum

/-- What the loop over the candidates has collected: rows of whole blocks, which the budget has
paid for. -/
structure Forwarding.Aligned (d : Int) (budget : Int) (a : Forwarding) : Prop where
  rows : ∀ op ∈ a.ops, op.Aligned d
  divides : d ∣ a.tokenBudget
  nonneg : 0 ≤ a.tokenBudget
  paid : inputLengths a.ops + a.tokenBudget = budget

theorem aligned_chunk (h : d ∣ r.prefillSize) (hnonneg : 0 ≤ r.prefillSize) (hstart : d ∣ w.start)
    (hsize : d ∣ w.size) (hle : w.start+w.size ≤ r.prefillSize) (c : SchedulerConfig) :
    Request.Aligned d { r with state := firstChunkState c r f w } := by
  refine ⟨h,hnonneg,fun f' w' hst => ?_⟩
  dsimp only at hst
  unfold firstChunkState at hst
  split at hst
  · cases hst
  · next hne =>
    injection hst with _ hw
    subst hw
    exact ⟨hstart,hsize,by dsimp only; omega⟩

theorem Becomes.aligned (h : Becomes r x s s') (hs : s.Aligned d)
    (hx : x.state.isEarly = true → x.Aligned d) : s'.Aligned d := by
  intro y hy hearly
  obtain rfl | ⟨hold,_⟩ := h.cases hy
  · exact hx hearly
  · exact hs y hold hearly

theorem Scheduler.Aligned.congr (h : s.Aligned d) (hreq : s'.requests = s.requests) :
    s'.Aligned d := by
  unfold Scheduler.Aligned
  rw [hreq]
  exact h

/-- A row is charged to the budget. -/
theorem Forwarding.Aligned.push {budget : Int} (h : a.Aligned d budget) (hop : op.Aligned d)
    (hd : d ∣ op.base.inputLength) (hle : op.base.inputLength ≤ a.tokenBudget) :
    (a.push op).Aligned d budget := by
  refine ⟨fun op' hop' => ?_,(Int.dvd_sub h.divides hd),?_,?_⟩
  · obtain hold | hnew := List.mem_append.mp hop'
    · exact h.rows op' hold
    · rw [List.mem_singleton.mp hnew]
      exact hop
  · exact Int.sub_nonneg_of_le hle
  · have hpaid := h.paid
    simp only [inputLengths,Forwarding.push,List.map_append,List.sum_append,List.map_cons,
      List.map_nil,List.sum_cons,List.sum_nil] at hpaid ⊢
    omega

theorem LoadsBack.aligned {budget : Int} (h : LoadsBack a nodes s a' s') (ha : a.Aligned d budget) :
    a'.Aligned d budget := by
  cases h with
  | nothing => exact ha
  | operation => exact ⟨ha.rows,ha.divides,ha.nonneg,ha.paid⟩

/-- A decode step costs one block, which a positive budget of whole blocks can pay. -/
theorem Forwarding.Aligned.pushDecode {budget : Int} (h : a.Aligned d budget)
    (hpos : 0 < a.tokenBudget) (hop : op.isPrefill = false) (hlen : op.base.inputLength = d) :
    (a.push op).Aligned d budget := by
  apply h.push
  · intro hprefill
    rw [hop] at hprefill
    cases hprefill
  · rw [hlen]
  · rw [hlen]
    exact Int.le_of_dvd hpos h.divides

end Aligned

section Visits

variable {budget : Int} {num reserve : Int} {l l' : LocalKVAllocator}

theorem Decodes.becomes (h : Decodes s r f l reserve s₁ l' s') (hs : Sound s) :
    Becomes r { r with state := (.decoding { f with localKVAllocator := some l' }
      s.config.decodeInputTokens) } s s' := by
  have hroom := h.room.rests hs
  have hmove := h.move
  exact hroom.becomes (hmove.becomes hroom.sound)

theorem Chunks.becomes (h : Chunks s r f w num l s₁ l' s') (hs : Sound s) :
    Becomes r { r with state := (firstChunkState s.config r { f with localKVAllocator := some l' }
      ⟨w.start+w.size,num⟩) } s s' :=
  (h.room.rests hs).becomes (h.move.becomes (h.room.rests hs).sound)

theorem Recovers.becomes {h : NodeId} {ev : RecoverEvent} (hrec : Recovers s r h l s₁ ev f l' s')
    (hs : Sound s) :
    Becomes r { r with state := .decoding f s₁.config.decodeInputTokens } s s' :=
  (hrec.room.rests hs).becomes (hrec.recovered.move.becomes (hrec.room.rests hs).sound)

/-- The first chunk of a prompt that the cache has nothing of. -/
theorem Begins.aligned {ev : FirstChunkEvent} {s₂ : Scheduler}
    (h : Begins s r budget s₁ ev f w l s₂) (hs : Sound s) (hr : r ∈ s.requests) (hb : 0 < budget)
    (hoff : s.config.disablePrefixCache = true) (hd : d ∣ budget) (hall : s.Aligned d) :
    s₂.Aligned d ∧ d ∣ w.start ∧ d ∣ w.size ∧ w.size ≤ budget := by
  have hbegun := h.begun hs hr hb
  have hr_al := hall r hr (by rw [hbegun.before]; rfl)
  have hstart : w.start = 0 := by
    obtain hnil | ⟨hon,_⟩ := hbegun.cached
    · rw [hbegun.start,hnil]
      rfl
    · rw [hoff] at hon
      cases hon
  have hsize := hbegun.size
  rw [hstart,Int.sub_zero] at hsize
  have hsize_dvd : d ∣ w.size := by
    rw [hsize]
    obtain hmin | hmin := min_choice budget r.prefillSize <;> rw [hmin]
    · exact hd
    · exact hr_al.prefillSize
  have hstart_dvd : d ∣ w.start := by
    rw [hstart]
    exact Int.dvd_zero d
  refine ⟨?_,hstart_dvd,hsize_dvd,by omega⟩
  apply (h.becomes hs).aligned hall
  exact fun _ => aligned_chunk hr_al.prefillSize hr_al.nonneg hstart_dvd hsize_dvd (by omega) _

theorem FirstVisit.aligned (h : FirstVisit s a r a' s') (hs : Sound s) (hr : r ∈ s.requests)
    (hb : 0 < a.tokenBudget) (hoff : s.config.disablePrefixCache = true) (hall : s.Aligned d)
    (hd : d = s.config.decodeInputTokens) (ha : a.Aligned d budget) :
    s'.Aligned d ∧ a'.Aligned d budget := by
  cases h with
  | short room => exact ⟨hall.congr room.requests,ha⟩
  | row begins pos loads =>
    obtain ⟨hnext,hstart,hsize,hle⟩ := begins.aligned hs hr hb hoff ha.divides hall
    refine ⟨hnext.congr loads.fields.2.2,loads.aligned (ha.push ?_ hsize hle)⟩
    exact fun _ => ⟨hstart,hsize,pos⟩
  | decoded begins zero state decodes loads =>
    obtain ⟨hnext,_⟩ := begins.aligned hs hr hb hoff ha.divides hall
    have hbec := begins.becomes hs
    constructor
    · refine Scheduler.Aligned.congr ?_ loads.fields.2.2
      exact (decodes.becomes hbec.sound).aligned hnext fun hearly => by cases hearly
    · apply loads.aligned (ha.pushDecode hb rfl _)
      have hconf : _ = s.config := (decodes.becomes hbec.sound).config.trans hbec.config
      rw [hd,← hconf]
      rfl
  | stuck begins zero room loads =>
    obtain ⟨hnext,_⟩ := begins.aligned hs hr hb hoff ha.divides hall
    refine ⟨Scheduler.Aligned.congr ?_ loads.fields.2.2,loads.aligned ha⟩
    obtain rfl | room := room
    · exact hnext
    · exact hnext.congr room.move.requests

/-- A visit keeps all whole, and the budget pays for its row. -/
theorem Visit.aligned (h : Visit s a r (some a') s') (hs : Sound s) (hr : r ∈ s.requests)
    (hb : 0 < a.tokenBudget) (hoff : s.config.disablePrefixCache = true) (hall : s.Aligned d)
    (hd : d = s.config.decodeInputTokens) (ha : a.Aligned d budget) :
    s'.Aligned d ∧ a'.Aligned d budget := by
  cases h with
  | idle => exact ⟨hall,ha⟩
  | first _ visit => exact visit.aligned hs hr hb hoff hall hd ha
  | noChunk _ room => exact ⟨hall.congr room.move.requests,ha⟩
  | @chunk f w l l' s₁ _ chunks =>
    have hr_al := hall r hr (by rw [chunks.before]; rfl)
    obtain ⟨hstart,hsize,hlt⟩ := hr_al.window f w chunks.before
    have hnext : d ∣ w.start+w.size := Int.dvd_add hstart hsize
    have hleft : r.unscheduledPrefillSize w = r.prefillSize-(w.start+w.size) := rfl
    have hnum : d ∣ min a.tokenBudget (r.unscheduledPrefillSize w) := by
      obtain hmin | hmin := min_choice a.tokenBudget (r.unscheduledPrefillSize w) <;> rw [hmin]
      · exact ha.divides
      · exact Int.dvd_sub hr_al.prefillSize hnext
    have hpos : 0 < min a.tokenBudget (r.unscheduledPrefillSize w) := by omega
    have hfits : w.start+w.size+min a.tokenBudget (r.unscheduledPrefillSize w) ≤ r.prefillSize := by
      omega
    constructor
    · apply (chunks.becomes hs).aligned hall
      exact fun _ => aligned_chunk hr_al.prefillSize hr_al.nonneg hnext hnum hfits _
    · exact ha.push (fun _ => ⟨hnext,hnum,hpos⟩) hnum (min_le_left _ _)
  | noDecode _ _ room => exact ⟨hall.congr room.move.requests,ha⟩
  | decode _ _ _ decodes =>
    have hbec := decodes.becomes hs
    constructor
    · exact hbec.aligned hall fun hearly => by cases hearly
    · apply ha.pushDecode hb rfl _
      rw [hd,← hbec.config]
      rfl
  | recover _ _ visit =>
    cases visit with
    | short room => exact ⟨hall.congr room.requests,ha⟩
    | row recovers loads =>
      have hbec := recovers.becomes hs
      constructor
      · exact (hbec.aligned hall fun hearly => by cases hearly).congr loads.fields.2.2
      · apply loads.aligned (ha.pushDecode hb rfl _)
        rw [hd,← hbec.config]
        rfl

theorem Visits.aligned (h : Visits ids a s rest a' s') (hs : Sound s)
    (hoff : s.config.disablePrefixCache = true) (hall : s.Aligned d)
    (hd : d = s.config.decodeInputTokens) (ha : a.Aligned d budget) :
    s'.Aligned d ∧ a'.Aligned d budget := by
  induction h with
  | refl => exact ⟨hall,ha⟩
  | cons pays _ found visit _ ih =>
    obtain ⟨hall₁,ha₁⟩ := visit.aligned hs found pays hoff hall hd ha
    have hconfig := visit.proceeds.config
    exact ih (visit.proceeds.sound hs) (hconfig ▸ hoff) hall₁ (hconfig ▸ hd) ha₁

theorem Retired.aligned (h : Retired s r s') (hall : s.Aligned d) : s'.Aligned d := by
  cases h with
  | left becomes => exact becomes.aligned hall fun hearly => by cases hearly
  | kept _ _ after becomes =>
    apply becomes.aligned hall
    intro hearly
    obtain rfl | ⟨_,_,rfl⟩ := after <;> cases hearly

/-- With the prefix cache off nothing of a prompt is matched. -/
theorem Offered.matchedPages_eq {ev : FirstChunkEvent} (h : Offered s r budget s₁ ev) (hs : Sound s)
    (hoff : s.config.disablePrefixCache = true) :
    matchedPages s₁.config s₁.kv.tree ev.matchResult = 0 := by
  obtain ⟨kv₁,kvl,hw,_⟩ := h.weighed
  have hroot : nodeDepth s₁.kv.tree 0 = 0 := by
    obtain ⟨n,hn,_,_,hdepth⟩ := h.room.sound.kv.inv.tree.root
    rw [nodeDepth_of_read hn,hdepth]
  obtain ⟨_,hm⟩ | ⟨hon,_⟩ := hw.deepest
  · rw [matchedPages,hm,hroot]
    simp
  · exact absurd ⟨hs.disablePrefixCache.trans hoff,rfl⟩ hon

/-- Scheduling a request whose prompt is whole blocks throws only where nothing was done. -/
theorem Fails.eq_of_aligned {x : Exception} (h : Fails s budget r (.exception x) s') (hs : Sound s)
    (hr : r ∈ s.requests) (hb : 0 < budget) (hoff : s.config.disablePrefixCache = true)
    (hpos : 0 < s.config.decodeInputTokens) (hall : s.Aligned d) : s' = s := by
  obtain ⟨_,hu⟩ | ⟨hsame,_⟩ | hunfit := h
  · cases hu
  · exact hsame
  · cases hunfit with
    | decodeInputTokens neg => omega
    | @window f w before neg =>
      obtain ⟨_,_,hlt⟩ := (hall r hr (by rw [before]; rfl)).window f w before
      have hleft : r.unscheduledPrefillSize w = r.prefillSize-(w.start+w.size) := rfl
      omega
    | @matched s₁ ev before offered neg =>
      have hr_al := hall r hr (by rw [before]; rfl)
      have htokens := offered.offer.tokens
      rw [firstChunkTokens,offered.matchedPages_eq hs hoff] at htokens
      have hnonneg := hr_al.nonneg
      omega

end Visits

section Runs

theorem plan_replies (order : List RequestId) (s : Scheduler) :
    Runs (runCall (.plan order)) s (fun reply _ => ∃ plan, reply = .plan plan) (fun _ _ => True) := by
  change Runs (nextExecutionPlan order >>= fun p => pure (Reply.plan p)) s _ _
  exact (runs_trivial _ s).bind fun p s₁ _ => ⟨p,rfl⟩

/-- A plan that throws. -/
theorem Calls.planThrows {e : Exception} (h : Calls s (.plan order) (.threw e) s') (hs : Sound s) :
    ∃ ops s₁, Commits (if s.config.disableL2Cache then [] else order) s ops s₁ ∧
      PlanFails (candidateIds order s₁.erased) s₁.erased (.exception e) s' := by
  cases h with
  | returns ordered run =>
    obtain ⟨_,hreply⟩ := (plan_replies order s).of_ok run
    cases hreply
  | throws ordered run =>
    have hids : ∀ id ∈ order, id ∈ s.requests.map Request.id := fun id hid =>
      ordered.mem_iff.mp hid
    have hplan : Runs (runCall (.plan order)) s (fun _ _ => True) (fun e s' => ∃ ops s₁,
        Commits (if s.config.disableL2Cache then [] else order) s ops s₁ ∧
        PlanFails (candidateIds order s₁.erased) s₁.erased e s') := by
      change Runs (nextExecutionPlan order >>= fun p => pure (Reply.plan p)) s _ _
      apply Runs.bind ((nextExecutionPlan_runs hs hids).imp (fun _ _ _ => trivial) ?_)
      · intro p s₁ _
        trivial
      · rintro _ s₂ ⟨_,ops,s₁,hcommits,_,hfails⟩
        exact ⟨ops,s₁,hcommits,hfails⟩
    exact hplan.of_error run

theorem Scheduler.Aligned.erased (h : s.Aligned d) (hc : Copying s)
    {ops : List WriteBackOperation} (hcommits : Commits order s ops s₁) : s₁.erased.Aligned d := by
  intro x hx hearly
  exact h x (hcommits.found_inService hc hx (inService_of_isEarly hearly)) hearly

/-- The rows of a plan are whole blocks, and the budget pays for them. -/
structure RowsAligned (d : Int) (budget : Int) (ops : List ForwardOperation) : Prop where
  rows : ∀ op ∈ ops, op.Aligned d
  paid : inputLengths ops ≤ max 0 budget

theorem rowsAligned_nil (budget : Int) : RowsAligned d budget [] :=
  ⟨fun _ hop => (by cases hop),le_max_left 0 budget⟩

theorem Forwarding.Aligned.rowsAligned {budget : Int} (h : a.Aligned d budget) :
    RowsAligned d budget a.ops := by
  have hpaid := h.paid
  have hnonneg := h.nonneg
  exact ⟨h.rows,by omega⟩

theorem Visits.aligned_start {budget : Int} (h : Visits ids { tokenBudget := budget } s rest a' s')
    (hs : Sound s) (hoff : s.config.disablePrefixCache = true) (hall : s.Aligned d)
    (hd : d = s.config.decodeInputTokens) (hbudget : d ∣ budget) :
    s'.Aligned d ∧ RowsAligned d budget a'.ops := by
  by_cases hpos : 0 < budget
  · have hstart : Forwarding.Aligned d budget { tokenBudget := budget } :=
      ⟨fun _ hop => (by cases hop),hbudget,Int.le_of_lt hpos,Int.zero_add _⟩
    obtain ⟨hall',ha⟩ := h.aligned hs hoff hall hd hstart
    exact ⟨hall',ha.rowsAligned⟩
  · cases h with
    | refl => exact ⟨hall,rowsAligned_nil budget⟩
    | cons paying => exact absurd paying hpos

theorem Forwards.aligned {res : List ForwardOperation × CacheOperations} (h : Forwards ids s res s')
    (hs : Sound s) (hoff : s.config.disablePrefixCache = true) (hall : s.Aligned d)
    (hd : d = s.config.decodeInputTokens) (hbudget : d ∣ s.config.maxScheduledTokens) :
    s'.Aligned d ∧ RowsAligned d s.config.maxScheduledTokens res.1 := by
  cases h with
  | rows visits => exact visits.aligned_start hs hoff hall hd hbudget
  | retract visits _ _ _ run =>
    exact ⟨run.1.aligned (visits.aligned_start hs hoff hall hd hbudget).1,rowsAligned_nil _⟩

/-- What a plan leaves, and what it holds. -/
theorem Calls.plan_aligned (h : Calls s (.plan order) (.plan plan) s') (hs : Sound s)
    (hc : Copying s) (hoff : s.config.disablePrefixCache = true) (hall : s.Aligned d)
    (hd : d = s.config.decodeInputTokens) (hbudget : d ∣ s.config.maxScheduledTokens) :
    s'.Aligned d ∧ RowsAligned d s.config.maxScheduledTokens plan.forward := by
  obtain ⟨ops,s₁,res,hnodup,hplanned,rfl⟩ := h.planned hs
  have hsound : Sound s₁.erased := (erased_turn (hplanned.commits.turn hs hc).sound).sound
  have hconfig : s₁.erased.config = s.config := hplanned.commits.config
  obtain ⟨hall',hrows⟩ := hplanned.forwards.aligned hsound (by rw [hconfig]; exact hoff)
    (hall.erased hc hplanned.commits) (by rw [hconfig]; exact hd) (by rw [hconfig]; exact hbudget)
  rw [hconfig] at hrows
  refine ⟨hall',fun op hop => hrows.rows op (forward_perm.mem_iff.mp hop),?_⟩
  have hsum : inputLengths (planOf ops res).forward = inputLengths res.1 := by
    unfold inputLengths
    exact (forward_perm.map _).sum_eq
  rw [hsum]
  exact hrows.paid

/-- A plan that throws leaves no prompt cut within a block. -/
theorem Calls.plan_throws_aligned {e : Exception} (h : Calls s (.plan order) (.threw e) s')
    (hs : Sound s) (hc : Copying s) (hoff : s.config.disablePrefixCache = true)
    (hall : s.Aligned d) (hd : d = s.config.decodeInputTokens) (hpos : 0 < d)
    (hbudget : d ∣ s.config.maxScheduledTokens) : s'.Aligned d := by
  obtain ⟨ops,s₁,hcommits,hfails⟩ := h.planThrows hs
  have hsound : Sound s₁.erased := (erased_turn (hcommits.turn hs hc).sound).sound
  have hconfig : s₁.erased.config = s.config := hcommits.config
  obtain ⟨_,hu⟩ | ⟨rest,a₁,s₂,r,visits,hr,hpays,hfails⟩ := hfails
  · cases hu
  have hproceeds := visits.proceeds
  have hoff' : s₁.erased.config.disablePrefixCache = true := by rw [hconfig]; exact hoff
  obtain ⟨hall₂,_⟩ := visits.aligned_start hsound hoff' (hall.erased hc hcommits)
    (by rw [hconfig]; exact hd) (by rw [hconfig]; exact hbudget)
  rw [hfails.eq_of_aligned (hproceeds.sound hsound) hr hpays (by rw [hproceeds.config]; exact hoff')
    (by rw [hproceeds.config,hconfig,← hd]; exact hpos) hall₂]
  exact hall₂

theorem not_isEarly_of_isDecodable {st : RequestState} (h : st.isDecodable = true) :
    st.isEarly = false := by
  cases st with
  | submitted | prefilling => cases h
  | _ => rfl

theorem Answers.aligned {ev : Event} (h : Answers ev s s' x) (hall : s.Aligned d)
    (hearly : x.state.isEarly = true) : x.Aligned d := by
  cases h with
  | same found => exact hall x found hearly
  | left done =>
    rw [inService_of_isEarly hearly] at done
    cases done
  | extended _ _ before after =>
    rw [after] at hearly
    rw [not_isEarly_of_takesTokens before] at hearly
    cases hearly
  | reserved _ _ _ after | recoverable _ _ after =>
    rw [after] at hearly
    cases hearly
  | lost _ _ _ _ _ decodable =>
    rw [not_isEarly_of_isDecodable decodable] at hearly
    cases hearly

/-- A specification of whole blocks; `-1` stands for all its tokens. -/
def RequestSpec.Aligned (d : Int) (spec : RequestSpec) : Prop :=
  d ∣ spec.prefillLength ∨ spec.prefillLength = -1 ∧ d ∣ spec.tokens.length

theorem RequestSpec.Aligned.request {spec : RequestSpec} (h : spec.Aligned d)
    (haccepted : spec.Accepted) : spec.request.Aligned d := by
  have hleast := haccepted.least
  have hsize : spec.request.prefillSize =
      if spec.prefillLength < 0 then (spec.tokens.length : Int) else spec.prefillLength := rfl
  refine ⟨?_,?_,fun f w hst => by cases hst⟩
  · rw [hsize]
    split
    · next hneg =>
      have hall : spec.prefillLength = -1 := by omega
      obtain hdvd | ⟨_,hdvd⟩ := h
      · rw [hall,Int.dvd_neg] at hdvd
        exact hdvd.trans (Int.one_dvd _)
      · exact hdvd
    · next hnonneg =>
      obtain hdvd | ⟨hall,_⟩ := h
      · exact hdvd
      · omega
  · rw [hsize]
    split <;> omega

/-- A call that submits whole blocks only. -/
def Call.Aligned (d : Int) : Call → Prop
  | .submit specs => ∀ spec ∈ specs, spec.Aligned d
  | _ => True

theorem Calls.aligned {c : Call} (h : Calls s c reply s') (hs : Sound s) (hc : Copying s)
    (hcall : c.Aligned d) (hoff : s.config.disablePrefixCache = true) (hall : s.Aligned d)
    (hd : d = s.config.decodeInputTokens) (hpos : 0 < d)
    (hbudget : d ∣ s.config.maxScheduledTokens) : s'.Aligned d := by
  cases c with
  | submit specs =>
    intro x hx hearly
    obtain hold | ⟨spec,hspec,haccepted,rfl⟩ := h.mem_submitted hx
    · exact hall x hold hearly
    · exact (hcall spec hspec).request haccepted
  | advance events =>
    apply h.advance_invariant ?_ hs hall
    intro ev _ s₁ s₂ _ hall₁ hanswered x hx hearly
    exact (hanswered.answers x hx).aligned hall₁ hearly
  | plan order =>
    cases reply with
    | plan plan => exact (h.plan_aligned hs hc hoff hall hd hbudget).1
    | threw e => exact h.plan_throws_aligned hs hc hoff hall hd hpos hbudget
    | done =>
      cases h with
      | returns _ run =>
        obtain ⟨_,hreply⟩ := (plan_replies order s).of_ok run
        cases hreply

/-- In every plan of a run over prompts of whole blocks, with the prefix cache off, the prefill rows
are whole blocks, each request has one row at most, and the budget covers all rows. -/
theorem plans_blockAligned (hoff : config.disablePrefixCache = true)
    (hpos : 0 < config.decodeInputTokens)
    (hbudget : config.decodeInputTokens ∣ config.maxScheduledTokens)
    (h : RunWhere (fun _ c => c.Aligned config.decodeInputTokens) (Scheduler.new config clock)
      history s) :
    ∀ order plan, (.plan order,.plan plan) ∈ history →
      (∀ op ∈ plan.forward, op.isPrefill = true →
        config.decodeInputTokens ∣ op.extendPrefixLen ∧
        config.decodeInputTokens ∣ op.base.inputLength ∧ 0 < op.base.inputLength) ∧
      (plan.forward.map ForwardOperation.requestId).Nodup ∧
      (plan.forward.map fun op => op.base.inputLength).sum ≤ max 0 config.maxScheduledTokens := by
  have hall : ∀ {history s}, RunWhere (fun _ c => c.Aligned config.decodeInputTokens)
      (Scheduler.new config clock) history s → s.Aligned config.decodeInputTokens := by
    intro history s h
    induction h with
    | nil =>
      intro x hx
      cases hx
    | call run meets calls ih =>
      have hreaches := Reaches.of_continues run.continues
      have hconfig := hreaches.config_eq
      exact calls.aligned hreaches.sound hreaches.copying meets (by rw [hconfig]; exact hoff) ih
        (by rw [hconfig]) hpos (by rw [hconfig]; exact hbudget)
  induction h with
  | nil =>
    intro order plan hmem
    cases hmem
  | @call later s₁ s₂ c reply run meets calls ih =>
    intro order plan hmem
    obtain hlast | hmem := List.mem_cons.mp hmem
    · injection hlast with hcall hreply
      have hreaches := Reaches.of_continues run.continues
      have hconfig := hreaches.config_eq
      rw [← hcall,← hreply] at calls
      obtain ⟨_,hrows⟩ := calls.plan_aligned hreaches.sound hreaches.copying
        (by rw [hconfig]; exact hoff) (hall run) (by rw [hconfig])
        (by rw [hconfig]; exact hbudget)
      rw [hconfig] at hrows
      exact ⟨hrows.rows,calls.distinct hreaches.sound hreaches.copying,hrows.paid⟩
    · exact ih order plan hmem

/-- Blocks of two tokens. -/
def blockConfig (maxScheduledTokens : Int) : SchedulerConfig :=
  { pageSize := 2, pageSize_pos := Nat.two_pos, deviceTotalPages := 9, hostTotalPages := 9
    maxScheduledTokens, maxBatchSize := 2, decodeInputTokens := 2, disablePrefixCache := true }

def blockPrompt : Call :=
  .submit [{ requestId := [1], tokens := [1,2,3,4,5,6], prefillLength := 6 }]

/-- The second chunk of a prompt of three blocks. -/
def blockPlan : ExecutionPlan where
  forward := [.prefill
    { requestId := [1], requestPoolIndex := 1, inputLength := 2, occupiedPages := [8,7,6,5],
      start := 3, size := 1, prefillLength := 6 } [5,6] [6,-1] 4]

theorem plans_blockAligned_chunks : ∃ history s,
    RunWhere (fun _ c => c.Aligned 2) (Scheduler.new (blockConfig 4) id) history s ∧
    (.plan [[1]],.plan blockPlan) ∈ history ∧
    (∀ op ∈ blockPlan.forward, op.isPrefill = true →
      2 ∣ op.extendPrefixLen ∧ 2 ∣ op.base.inputLength ∧ 0 < op.base.inputLength) ∧
    (blockPlan.forward.map ForwardOperation.requestId).Nodup ∧
    (blockPlan.forward.map fun op => op.base.inputLength).sum ≤ max 0 4 := by
  obtain ⟨x,hx,hplan⟩ : ∃ x, replayFrom [blockPrompt,.plan [[1]],.plan [[1]]]
      ([],Scheduler.new (blockConfig 4) id) = some x ∧ (.plan [[1]],.plan blockPlan) ∈ x.1 := by
    decide +kernel
  have hcalls : ∀ c ∈ [blockPrompt,.plan [[1]],.plan [[1]]],
      ∀ _ : Scheduler, c.Aligned 2 := by
    intro c hc _
    obtain rfl | hc := List.mem_cons.mp hc
    · intro spec hspec
      rw [List.mem_singleton.mp hspec]
      exact .inl (by decide)
    · obtain rfl : c = .plan [[1]] := by simpa using hc
      trivial
  have hrun := runWhere_of_replayFrom hcalls .nil hx
  have hall := plans_blockAligned (show (blockConfig 4).disablePrefixCache = true from rfl)
    (by decide) (by decide) hrun _ _ hplan
  exact ⟨_,_,hrun,hplan,hall⟩

/-- A budget below zero is not even met by a plan with nothing in it. -/
theorem emptyPlan_exceeds : ∃ history s,
    RunWhere (fun _ c => c.Aligned 2) (Scheduler.new (blockConfig (-4)) id) history s ∧
    (2 : Int) ∣ (blockConfig (-4)).maxScheduledTokens ∧ 2 ∣ (blockConfig (-4)).pageSize ∧
    (.plan [],.plan {}) ∈ history ∧
    ¬ (({} : ExecutionPlan).forward.map fun op => op.base.inputLength).sum ≤
      (blockConfig (-4)).maxScheduledTokens := by
  obtain ⟨x,hx,hplan⟩ : ∃ x, replayFrom [.plan []] ([],Scheduler.new (blockConfig (-4)) id) = some x ∧
      (.plan [],.plan {}) ∈ x.1 := by
    decide
  have hcalls : ∀ c ∈ [Call.plan []], ∀ _ : Scheduler, c.Aligned 2 := by
    intro c hc _
    rw [List.mem_singleton.mp hc]
    trivial
  exact ⟨_,_,runWhere_of_replayFrom hcalls .nil hx,by decide,by decide,hplan,by decide⟩

end Runs

end FluxServe
