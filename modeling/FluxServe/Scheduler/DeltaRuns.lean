import FluxServe.Scheduler.PageDeltas
import FluxServe.Scheduler.Submissions

namespace FluxServe

open KVPrefixCache

variable {config : SchedulerConfig} {clock : Nat → Timestamp}
  {history later earlier : List (Call × Reply)}
  {s s₁ s₂ s' : Scheduler} {r x y : Request} {a a₁ a' : Forwarding} {id : RequestId}
  {ids rest order : List RequestId} {op : ForwardOperation} {ops rows : List ForwardOperation}
  {pages : List PageId} {c : Call} {reply : Reply} {plan : ExecutionPlan} {specs : List RequestSpec}

section Rows

/-- The rows of a request. -/
def rowsFor (id : RequestId) (ops : List ForwardOperation) : List ForwardOperation :=
  ops.filter fun op => op.requestId = id

theorem rowsFor_push (h : a'.ops = a.ops ++ [op]) :
    rowsFor id a'.ops = rowsFor id a.ops ++ rowsFor id [op] := by
  rw [rowsFor,h,List.filter_append]
  rfl

theorem rowsFor_own (h : op.requestId = id) : rowsFor id [op] = [op] := by
  simp [rowsFor,h]

theorem rowsFor_other (h : op.requestId ≠ id) : rowsFor id [op] = [] := by
  simp [rowsFor,h]

theorem rowsFor_others (h : ∀ op ∈ rows, op.requestId ≠ id) :
    rowsFor id (ops ++ rows) = rowsFor id ops := by
  have hnone : rowsFor id rows = [] := List.filter_eq_nil_iff.mpr (by simpa using h)
  have happend : rowsFor id (ops ++ rows) = rowsFor id ops ++ rowsFor id rows :=
    List.filter_append ..
  rw [happend,hnone,List.append_nil]

/-- With one row a request, the order of the rows does not matter to it. -/
theorem rowsFor_perm (hperm : ops.Perm rows) (hnodup : (ops.map ForwardOperation.requestId).Nodup) :
    rowsFor id ops = rowsFor id rows := by
  have hrows : (rowsFor id ops).Perm (rowsFor id rows) := hperm.filter _
  have hlen : (rowsFor id ops).length ≤ 1 := by
    have hsub : ((rowsFor id ops).map ForwardOperation.requestId).Nodup :=
      (List.filter_sublist.map _).nodup hnodup
    have hall : (rowsFor id ops).map ForwardOperation.requestId =
        List.replicate (rowsFor id ops).length id := by
      apply List.eq_replicate_iff.mpr
      refine ⟨List.length_map _,fun b hb => ?_⟩
      obtain ⟨op,hop,rfl⟩ := List.mem_map.mp hb
      simpa using (List.mem_filter.mp hop).2
    rw [hall] at hsub
    exact List.nodup_replicate.mp hsub
  cases hops : rowsFor id ops with
  | nil =>
    rw [hops] at hrows
    exact hrows.nil_eq
  | cons op ops' =>
    rw [hops] at hlen hrows
    obtain rfl : ops' = [] := by
      apply List.eq_nil_of_length_eq_zero
      rw [List.length_cons] at hlen
      omega
    exact List.singleton_perm.mp hrows

end Rows

section Candidates

/-- Where the rows of a plan do not tell all the pages: a first chunk that has no row, because the
cache has all there is to prefill, or a decode on whose reserve the plan throws. -/
inductive Dropping (s : Scheduler) (a : Forwarding) (r : Request) : Prop
  | covered {T : List Token} {ev : FirstChunkEvent} {s' : Scheduler} (before : r.state = .submitted)
      (offered : schedulePrefillFirstChunk r a.tokenBudget s = .ok (some ev) s')
      (reusable : Reusable s r T) (all : r.prefillSize ≤ T.length)
  | reserve {f : ForwardState} {n : Int} (before : r.state = .decoding f n)
      (goes : s.config.enableMixedPrefillDecode = true ∨ a.pushedPrefill = false) (neg : n < 0)

theorem Hazard.dropping (h : Hazard s a r) : Dropping s a r := by
  cases h with
  | covered before offered reusable exceeds => exact .covered before offered reusable exceeds.le
  | reserve before goes neg => exact .reserve before goes neg

/-- A call that drops no row; only a plan can. -/
def Call.Full (c : Call) (s : Scheduler) : Prop :=
  ∀ order, c = .plan order → ∀ id a s₁, Reached order s id a s₁ → ∀ r ∈ s₁.requests, r.id = id →
    ¬Dropping s₁ a r

theorem Call.Full.tame (h : c.Full s) : c.Tame s := by
  intro order hc id a s₁ hreached r hr hid hazard
  exact h order hc id a s₁ hreached r hr hid hazard.dropping

/-- A submitted request is left alone unless it is offered a first chunk. -/
theorem forwardCandidate_offers (hs : Sound s) (hy : y ∈ s.requests) (hst : y.state = .submitted)
    (h : forwardCandidate a y.id s = .ok (some a') s') :
    (∃ ev s₁, schedulePrefillFirstChunk y a.tokenBudget s = .ok (some ev) s₁) ∨
      a' = a ∧ s'.requests = s.requests := by
  obtain ⟨o,s₁,hrun,hroom,_⟩ := (schedulePrefillFirstChunk_returns hs y a.tokenBudget).exists
  cases o with
  | some ev => exact .inl ⟨ev,s₁,hrun⟩
  | none =>
    have hreturns : Returns (schedulePrefillFirstChunk y a.tokenBudget) s
        (fun o' s' => none = o' ∧ s₁ = s') := returns_of_ok hrun ⟨rfl,rfl⟩
    have hruns : Runs (forwardCandidate a y.id) s
        (fun o s' => o = some a ∧ s'.requests = s.requests) (fun _ _ => True) := by
      unfold forwardCandidate
      rw [runs_bind,runs_get]
      apply getRequest_bind hs.ids hy
      simp only [hst]
      unfold forwardFirstChunk
      rw [runs_bind]
      apply hreturns.bind
      rintro _ _ ⟨rfl,rfl⟩
      exact ⟨rfl,hroom.requests⟩
    obtain ⟨ha,hreq⟩ := hruns.of_ok h
    exact .inr ⟨Option.some.inj ha,hreq⟩

theorem recoverOperation_tokens {f : ForwardState} {l : LocalKVAllocator} (hs : Sound s)
    (hr : r ∈ s.requests) (hf : r.state.forward? = some f) (hl : f.localKVAllocator = some l) :
    Runs (recoverOperation r.id) s (fun _ _ => r.tokens ≠ []) (fun _ _ => True) := by
  unfold recoverOperation
  apply getRequest_bind hs.ids hr
  rw [getForward,hf,pure_bind]
  apply occupiedPages_bind hs hr hf hl
  cases htokens : r.tokens with
  | nil => trivial
  | cons x xs =>
    exact (runs_trivial _ _).imp (fun _ _ _ => List.cons_ne_nil x xs) fun _ _ _ => trivial

/-- A recovery reads the last token. -/
theorem forwardCandidate_tokens {n : NodeId} {l : LocalKVAllocator} (hs : Sound s)
    (hy : y ∈ s.requests) (hst : y.state = .retracted n l)
    (h : forwardCandidate a y.id s = .ok (some a') s') : a' = a ∨ y.tokens ≠ [] := by
  have hruns : Runs (forwardRetracted a y n l) s (fun a' _ => a' = a ∨ y.tokens ≠ [])
      (fun _ _ => True) := by
    unfold forwardRetracted
    apply (scheduleDecodeFromRetracted_returns hs y).bind
    rintro o s₁ ⟨hroom,_,_,hoffer,_⟩
    cases o with
    | none => exact .inl rfl
    | some ev =>
      have hy₁ : y ∈ s₁.requests := hroom.requests ▸ hy
      have happly := applyRecover_runs hroom.sound hy₁ hst (hoffer ev rfl)
      refine Runs.bind (happly.imp (fun _ _ hq => hq) fun _ _ _ => trivial) ?_
      rintro _ s₂ ⟨f,hrec⟩
      obtain ⟨l',_,hl,_⟩ := hrec.localAllocator
      apply (recoverOperation_tokens hrec.move.sound hrec.move.found' rfl hl).bind
      intro op s₃ hne
      exact (runs_trivial _ _).imp (fun _ _ _ => .inr hne) fun _ _ _ => trivial
  have hwhole : Runs (forwardCandidate a y.id) s (fun o _ => o = none ∨ o = some a ∨ y.tokens ≠ [])
      (fun _ _ => True) := by
    unfold forwardCandidate
    rw [runs_bind,runs_get]
    apply getRequest_bind hs.ids hy
    simp only [hst]
    split
    · exact .inl rfl
    · apply hruns.bind
      rintro a' s' (rfl | hne)
      · exact .inr (.inl rfl)
      · exact .inr (.inr hne)
  obtain hno | ha | hne := hwhole.of_ok h
  · cases hno
  · exact .inl (Option.some.inj ha)
  · exact .inr hne

end Candidates

section Followed

/-- The pages accumulated of the rows of an id are those its request occupies. -/
structure Followed (id : RequestId) (s : Scheduler) (ops : List ForwardOperation) : Prop where
  accumulates : Accumulates ops
  waiting : ∀ x ∈ s.requests, x.id = id → x.state = .submitted → ops = []
  occupied : ∀ x ∈ s.requests, x.id = id → ∀ pages, Occupies s x pages → accumulated ops = pages

theorem inService_of_occupies (h : Occupies s x pages) : x.state.inService = true := by
  obtain ⟨f,l,hf,_⟩ := h
  exact inService_of_forward hf

/-- Nothing changes for a request that is left alone or given up. -/
theorem Followed.frame (h : Followed id s ops)
    (hreq : ∀ x ∈ s'.requests, x.id = id → x.state.inService = true →
      x ∈ s.requests ∧ KeepsPaths x s.kv s'.kv) : Followed id s' ops := by
  refine ⟨h.accumulates,fun x hx hid hst => ?_,fun x hx hid pages hocc => ?_⟩
  · exact h.waiting x (hreq x hx hid (by rw [hst]; rfl)).1 hid hst
  · obtain ⟨hold,hpaths⟩ := hreq x hx hid (inService_of_occupies hocc)
    exact h.occupied x hold hid pages (hpaths.occupies_iff.mp hocc)

theorem Followed.rests (h : Followed id s ops) (hrests : Rests s s') : Followed id s' ops := by
  apply h.frame
  intro x hx _ _
  have hold : x ∈ s.requests := hrests.requests ▸ hx
  exact ⟨hold,hrests.paths x hold⟩

/-- Another request changes. -/
theorem Followed.other (h : Followed id s ops) (hbec : Becomes y x s s') (hid : y.id ≠ id) :
    Followed id s' ops := by
  refine h.frame fun z hz hz_id _ => ?_
  obtain rfl | ⟨hold,_,hpaths⟩ := hbec.cases hz
  · exact absurd (hbec.id.symm.trans hz_id) hid
  · exact ⟨hold,hpaths⟩

/-- A row with the new pages of its request. -/
theorem Followed.row (h : Followed id s ops) (hbec : Becomes y x s s') (hid : y.id = id)
    (hocc : Occupies s' x op.base.occupiedPages) (hdelta : Delta s y op)
    (htokens : ∀ n l, y.state = .retracted n l → y.tokens ≠ []) : Followed id s' (ops ++ [op]) := by
  have hacc : op.accumulate (accumulated ops) = op.base.occupiedPages := by
    unfold ForwardOperation.accumulate
    cases hdelta with
    | first before kind new =>
      rw [h.waiting y hbec.found hid before,if_neg (by rw [kind]; exact Bool.false_ne_true),new]
      rfl
    | next before kind new =>
      rw [h.occupied y hbec.found hid _ before,if_neg (by rw [kind]; exact Bool.false_ne_true),new]
    | recovered before kind new => rw [if_pos (kind (htokens _ _ before)),new]
  have hst : x.state ≠ .submitted := by
    intro hno
    obtain ⟨f,l,hf,_⟩ := hocc
    rw [hno] at hf
    cases hf
  refine ⟨h.accumulates.snoc hacc,fun z hz hz_id hz_st => ?_,fun z hz hz_id pages hz_occ => ?_⟩
  · obtain rfl | ⟨_,hne,_⟩ := hbec.cases hz
    · exact absurd hz_st hst
    · exact absurd (hz_id.trans hid.symm) hne
  · obtain rfl | ⟨_,hne,_⟩ := hbec.cases hz
    · rw [accumulated_snoc,hacc]
      exact hocc.unique hz_occ
    · exact absurd (hz_id.trans hid.symm) hne

/-- A visit to any request that drops no row of the one followed. -/
theorem Followed.candidate (h : Followed id s (ops ++ rowsFor id a.ops)) (hs : Sound s)
    (hy : y ∈ s.requests) (hb : 0 < a.tokenBudget)
    (hrun : forwardCandidate a y.id s = .ok (some a') s') (hfull : y.id = id → ¬Dropping s a y) :
    Followed id s' (ops ++ rowsFor id a'.ops) := by
  have hvisit := (forwardCandidate_runs hs hy a).of_ok hrun
  cases hvisit.delivers hs hy hb with
  | nothing rests hops =>
    rw [hops]
    exact h.rests rests
  | dropped becomes before matched changed hops own =>
    by_cases hid : y.id = id
    · exfalso
      obtain ⟨ev,s₁,hoffered⟩ | ⟨rfl,hreq⟩ := forwardCandidate_offers hs hy before hrun
      · obtain ⟨T,hT,hlen⟩ := matched.reached
        exact hfull hid (.covered before hoffered hT hlen.le)
      · obtain hne | hne := changed
        · exact hne rfl
        · exact hne hreq
    · rw [hops,rowsFor_others fun op hop heq => hid ((own op hop).symm.trans heq)]
      exact h.other becomes hid
  | @row x op becomes hops own occupies delta =>
    by_cases hid : y.id = id
    · rw [rowsFor_push hops,rowsFor_own (own.trans hid),← List.append_assoc]
      apply h.row becomes hid occupies delta
      intro n l hst
      obtain rfl | hne := forwardCandidate_tokens hs hy hst hrun
      · simp at hops
      · exact hne
    · rw [rowsFor_push hops,rowsFor_other (fun heq => hid (own.symm.trans heq)),List.append_nil]
      exact h.other becomes hid

/-- The loop over the candidates. -/
theorem Followed.walks (h : Walks ids a s rest a' s') (hs : Sound s)
    (hids : ∀ id ∈ ids, id ∈ s.requests.map Request.id)
    (hfull : ∀ a₁ s₁, Stands ids a s id a₁ s₁ → ∀ r ∈ s₁.requests, r.id = id → ¬Dropping s₁ a₁ r)
    (hf : Followed id s (ops ++ rowsFor id a.ops)) : Followed id s' (ops ++ rowsFor id a'.ops) := by
  induction h with
  | refl => exact hf
  | @cons i ids rest a a₁ a' s s₁ s' budget batch run walks ih =>
    obtain ⟨y,hy,rfl⟩ := List.mem_map.mp (hids _ List.mem_cons_self)
    have hproceeds := ((forwardCandidate_runs hs hy a).of_ok run).proceeds
    apply ih (hproceeds.sound hs)
    · intro id hid
      rw [hproceeds.ids]
      exact hids id (List.mem_cons_of_mem _ hid)
    · exact fun a₂ s₂ hstands => hfull a₂ s₂ (hstands.cons budget batch run)
    · apply hf.candidate hs hy budget run
      rintro rfl
      exact hfull a s ⟨⟨_,.refl⟩,budget,batch⟩ y hy rfl

/-- A victim of a retract occupies no pages of its own any more. -/
theorem Followed.retired (h : Followed id s ops) (hret : Retired s y s') : Followed id s' ops := by
  have hgone : ∀ x, Becomes y x s s' → x.state.forward? = none → x.state ≠ .submitted →
      Followed id s' ops := by
    intro x hbec hf hst
    refine ⟨h.accumulates,fun z hz hid hz_st => ?_,fun z hz hid pages hz_occ => ?_⟩
    · obtain rfl | ⟨hold,_⟩ := hbec.cases hz
      · exact absurd hz_st hst
      · exact h.waiting z hold hid hz_st
    · obtain rfl | ⟨hold,_,hpaths⟩ := hbec.cases hz
      · obtain ⟨f,l,hno,_⟩ := hz_occ
        rw [hf] at hno
        cases hno
      · exact h.occupied z hold hid pages (hpaths.occupies_iff.mp hz_occ)
  cases hret with
  | left becomes => exact hgone _ becomes rfl (by simp)
  | kept before localAllocator after becomes =>
    obtain rfl | ⟨_,_,rfl⟩ := after
    · exact hgone _ becomes rfl (by simp)
    · exact hgone _ becomes rfl (by simp)

/-- What serves when the loop of a plan begins, served before, on the same tree. -/
theorem Opens.found (h : Opens order s ids s₁) (hs : Sound s) (hc : Copying s)
    (hids : ∀ id ∈ order, id ∈ s.requests.map Request.id) (hx : x ∈ s₁.requests)
    (hin : x.state.inService = true) : x ∈ s.requests ∧ KeepsPaths x s.kv s₁.kv := by
  obtain ⟨⟨ops,s₀,hrun,rfl⟩,rfl⟩ := h
  have hcommits := Runs.of_ok (newWriteBackOperation_returns hs hids) hrun
  exact ⟨hcommits.found_inService hc hx hin,keepsPaths_of_tree x (hcommits.tree_eq hc)⟩

/-- A plan goes on with the rows of a request. -/
theorem Followed.ran (h : Ran order s plan s') (hs : Sound s) (hc : Copying s)
    (hids : ∀ id ∈ order, id ∈ s.requests.map Request.id)
    (hnodup : (plan.forward.map ForwardOperation.requestId).Nodup)
    (hfull : (Call.plan order).Full s) (hf : Followed id s ops) :
    Followed id s' (ops ++ rowsFor id plan.forward) := by
  obtain ⟨ids,s₁,rest,a,s₂,hopens,hwalks,hplan,hend⟩ := h
  obtain ⟨hs₁,_,hids₁,_⟩ := hopens.frame hs hc hids
  have hf₁ : Followed id s₁ (ops ++ rowsFor id []) := by
    rw [rowsFor,List.filter_nil,List.append_nil]
    exact hf.frame fun x hx _ hin => hopens.found hs hc hids hx hin
  have hf₂ := Followed.walks hwalks hs₁ hids₁
    (fun a₁ s₃ hstands => hfull order rfl id a₁ s₃ ⟨ids,s₁,hopens,hstands⟩) hf₁
  have hperm : plan.forward.Perm a.ops := by
    rw [hplan]
    exact List.filter_append_perm _ _
  rw [rowsFor_perm hperm hnodup]
  obtain rfl | ⟨y,_,hret⟩ := hend
  · exact hf₂
  · exact hf₂.retired hret

/-- An event changes no pages of a request that goes on. -/
theorem Followed.answered {ev : Event} (h : Followed id s ops) (ha : Answered ev s s') :
    Followed id s' ops := by
  refine ⟨h.accumulates,fun x hx hid hst => ?_,fun x hx hid pages hocc => ?_⟩
  · cases ha.answers x hx with
    | same found => exact h.waiting x found hid hst
    | left done =>
      rw [hst] at done
      cases done
    | extended _ _ before after =>
      subst after
      rw [hst] at before
      cases before
    | reserved _ _ _ after | recoverable _ _ after =>
      subst after
      cases hst
    | lost _ _ _ _ _ decodable =>
      rw [hst] at decodable
      cases decodable
  · obtain ⟨f,l,hf,hl,rfl⟩ := hocc
    cases ha.answers x hx with
    | same found paths => exact h.occupied x found hid _ (paths.occupies_iff.mp ⟨f,l,hf,hl,rfl⟩)
    | left done =>
      rw [inService_of_forward hf] at done
      cases done
    | extended _ found _ after paths =>
      have hocc := paths.occupies_iff.mp ⟨f,l,hf,hl,rfl⟩
      subst after
      exact h.occupied _ found hid _ hocc
    | @reserved y g n m _ found before after paths =>
      obtain ⟨g',l',hg,hl',hpages⟩ := paths.occupies_iff.mp ⟨f,l,hf,hl,rfl⟩
      subst after
      cases hg
      exact h.occupied y found hid _ ⟨g,l',by rw [before]; rfl,hl',hpages⟩
    | lost _ _ _ _ after =>
      rw [hf] at after
      cases after
      cases hl
    | recoverable _ _ after =>
      subst after
      cases hf

end Followed

section Runs

/-- The rows of a request in a reply. -/
def Reply.rowsFor (id : RequestId) : Reply → List ForwardOperation
  | .plan plan => FluxServe.rowsFor id plan.forward
  | _ => []

/-- The rows a run has delivered for an id, in order; the latest call comes first in a history. -/
def delivered (id : RequestId) : List (Call × Reply) → List ForwardOperation
  | [] => []
  | (_,reply) :: later => delivered id later ++ reply.rowsFor id

theorem Calls.rows_nil (h : Calls s c reply s') (hc : ∀ order, c ≠ .plan order) :
    reply.rowsFor id = [] := by
  have hdone : ∀ x : Sched Unit, Runs (x >>= fun _ => pure Reply.done) s
      (fun reply _ => reply = .done) (fun _ _ => True) := by
    intro x
    exact (runs_trivial x s).bind fun _ _ _ => rfl
  cases h with
  | throws => rfl
  | returns _ run =>
    cases c with
    | submit specs =>
      rw [(hdone (submitRequests specs)).of_ok run]
      rfl
    | advance events =>
      rw [(hdone (advance events)).of_ok run]
      rfl
    | plan order => exact absurd rfl (hc order)

/-- A submission leaves the tree alone. -/
theorem Calls.submit_tree (h : Calls s (.submit specs) reply s') : s'.kv = s.kv := by
  have hloop : Runs (submitRequests specs) s (fun _ s' => s'.kv = s.kv)
      (fun _ s' => s'.kv = s.kv) := by
    refine (runs_forM submitRequest (fun _ s' => s'.kv = s.kv) ?_ specs rfl).imp
      (fun _ _ hi => hi) fun _ _ hi => hi
    intro spec _ s₁ hkv
    apply (submitRequest_accepts spec s₁).imp
    · intro _ s₂ haccepts
      obtain rfl | ⟨_,rfl⟩ := haccepts
      · exact hkv
      · exact hkv
    · intro _ s₂ hsame
      rw [hsame]
      exact hkv
  have hruns : Runs (runCall (.submit specs)) s (fun _ s' => s'.kv = s.kv)
      (fun _ s' => s'.kv = s.kv) := hloop.bind fun _ _ hi => hi
  cases h with
  | returns _ run => exact hruns.of_ok run
  | throws _ run => exact hruns.of_error run

theorem Followed.calls (h : Calls s c reply s') (hs : Sound s) (hc : Copying s) (hw : Windowed s)
    (hdecode : 0 ≤ s.config.decodeInputTokens) (hfull : c.Full s)
    (hid : id ∈ s.requests.map Request.id) (hf : Followed id s ops) :
    Followed id s' (ops ++ reply.rowsFor id) := by
  cases c with
  | submit specs =>
    rw [h.rows_nil (by simp),List.append_nil]
    refine hf.frame fun x hx hx_id _ => ⟨h.submit_held hs hid hx hx_id,?_⟩
    exact keepsPaths_of_tree x (by rw [h.submit_tree])
  | advance events =>
    rw [h.rows_nil (by simp),List.append_nil]
    apply h.advance_invariant ?_ hs hf
    intro ev _ s₁ s₂ _ hf₁ ha
    exact hf₁.answered ha
  | plan order =>
    obtain ⟨hids,plan,rfl,hran⟩ := h.ran hs hc hw hdecode hfull.tame
    exact hf.ran hran hs hc hids (h.distinct hs hc) hfull

/-- A request that, with the cache off, has a row for all that a plan schedules of it. -/
def Request.regular (r : Request) : Bool :=
  decide (0 < r.prefillSize) &&
    match r.state with
    | .decoding _ n => decide (0 ≤ n)
    | _ => true

/-- The loop of a plan over a single request stands at it in the state it began in. -/
theorem reached_single {i : RequestId} (hs : Sound s) (hc : Copying s)
    (hid : id ∈ s.requests.map Request.id) (h : Reached [id] s i a s₂) (hr : r ∈ s₂.requests)
    (hin : r.state.inService = true) : r ∈ s.requests ∧ s₂.config = s.config := by
  obtain ⟨ids,s₁,hopens,⟨rest,hwalks⟩,_⟩ := h
  obtain ⟨_,hconfig,_,hreq⟩ := hopens.frame hs hc fun i hi => List.mem_singleton.mp hi ▸ hid
  have hlen : ids.length ≤ 1 := by
    rw [hopens.ids,candidateIds,List.length_map,sortCandidates,List.length_insertionSort]
    exact (List.length_filter_le _ _).trans (List.length_filterMap_le _ [id])
  cases hwalks with
  | refl => exact ⟨hreq r hr hin,hconfig⟩
  | @cons _ ids' _ _ _ _ _ _ _ _ _ _ walks =>
    have hpos := List.length_pos_of_mem (walks.rest_subset List.mem_cons_self)
    rw [List.length_cons] at hlen
    omega

theorem full_of_single (hs : Sound s) (hc : Copying s) (hoff : s.config.disablePrefixCache = true)
    (hid : id ∈ s.requests.map Request.id) (hregular : ∀ r ∈ s.requests, r.regular = true) :
    (Call.plan [id]).Full s := by
  rintro order ⟨⟩ i a s₂ hreached r hr _ hdropping
  have hin : r.state.inService = true := by
    cases hdropping with
    | covered before => rw [before]; rfl
    | reserve before => rw [before]; rfl
  obtain ⟨hold,hconfig⟩ := reached_single hs hc hid hreached hr hin
  have hr_regular := hregular r hold
  rw [Request.regular,Bool.and_eq_true,decide_eq_true_eq] at hr_regular
  cases hdropping with
  | covered before offered reusable all =>
    obtain rfl | ⟨hon,_⟩ := reusable
    · rw [List.length_nil] at all
      omega
    · rw [hconfig,hoff] at hon
      cases hon
  | @reserve f n before goes neg =>
    have hnonneg := hr_regular.2
    rw [before] at hnonneg
    have hle : 0 ≤ n := by simpa using hnonneg
    omega

/-- Plans for one request, each in a state whose requests are regular. -/
def planRegular (id : RequestId) : Nat → List (Call × Reply) × Scheduler →
    Option (List (Call × Reply) × Scheduler)
  | 0,x => some x
  | n+1,x =>
    if x.2.requests.all Request.regular ∧ id ∈ x.2.requests.map Request.id then
      (replayCall x (.plan [id])).bind (planRegular id n)
    else none

theorem runWhere_planRegular {n : Nat} {x : List (Call × Reply) × Scheduler} (hs : Sound s₁)
    (hc : Copying s₁) (hoff : s₁.config.disablePrefixCache = true)
    (h : RunWhere (fun s c => c.Full s ∧ id ∈ s.requests.map Request.id) s later s₁)
    (hx : planRegular id n (later,s₁) = some x) :
    RunWhere (fun s c => c.Full s ∧ id ∈ s.requests.map Request.id) s x.1 x.2 := by
  induction n generalizing later s₁ with
  | zero =>
    obtain rfl := Option.some.inj hx
    exact h
  | succ n ih =>
    unfold planRegular at hx
    split at hx
    · next hregular =>
      obtain ⟨⟨later₁,s₂⟩,hone,hrest⟩ := Option.bind_eq_some_iff.mp hx
      obtain ⟨reply,rfl,hcalls⟩ := calls_of_replayCall hone
      have hfull : (Call.plan [id]).Full s₁ :=
        full_of_single hs hc hoff hregular.2 (List.all_eq_true.mp hregular.1)
      obtain ⟨hs₂,hc₂,hconfig⟩ := hcalls.keeps hs hc
      exact ih hs₂ hc₂ (by rw [hconfig]; exact hoff) (.call h ⟨hfull,hregular.2⟩ hcalls) hrest
    · cases hx

/-- A prompt shorter than a page has nothing to prefill: its first row is a decode, and the page it
got before is in no row. -/
theorem pageDelta_lost : ∃ history s, Reaches (smallConfig 9 9) (fun n => n) history s ∧
    (delivered [2] history).map (fun op => (op.newPages,op.base.occupiedPages)) =
      [([7],[8,7])] := by
  obtain ⟨⟨history,s⟩,hx,hrows⟩ :
      ∃ x, replay (smallConfig 9 9) (fun n => n)
        [.submit [{ requestId := [2], tokens := [5], prefillLength := 0 }],.plan [[2]]] = some x ∧
        (delivered [2] x.1).map (fun op => (op.newPages,op.base.occupiedPages)) =
          [([7],[8,7])] := by
    decide +kernel
  exact ⟨history,s,reaches_of_replay hx,hrows⟩

end Runs

end FluxServe
