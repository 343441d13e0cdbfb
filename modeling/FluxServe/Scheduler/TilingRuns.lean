import FluxServe.Scheduler.PrefillTiling

namespace FluxServe

open KVPrefixCache

variable {config : SchedulerConfig} {clock : Nat → Timestamp}
  {history later earlier : List (Call × Reply)}
  {s s₁ s₂ s' : Scheduler} {r x y : Request} {a a₁ a' : Forwarding} {id : RequestId}
  {ids rest order : List RequestId} {budget m e : Int} {ev : FirstChunkEvent} {f : ForwardState}
  {w : Window} {ws : List Window} {op : ForwardOperation} {c : Call} {reply : Reply}
  {plan : ExecutionPlan} {B B' : Int → Prop} {specs : List RequestSpec} {events : List Event}

section Hazard

/-- What the loop throws on: a first chunk of a prompt of which the cache has more than is to be
prefilled, or a decode with a negative reserve. -/
inductive Hazard (s : Scheduler) (a : Forwarding) (r : Request) : Prop
  | covered {T : List Token} {ev : FirstChunkEvent} {s' : Scheduler} (before : r.state = .submitted)
      (offered : schedulePrefillFirstChunk r a.tokenBudget s = .ok (some ev) s')
      (reusable : Reusable s r T) (exceeds : r.prefillSize < T.length)
  | reserve {f : ForwardState} {n : Int} (before : r.state = .decoding f n)
      (goes : s.config.enableMixedPrefillDecode = true ∨ a.pushedPrefill = false) (neg : n < 0)

/-- A call that meets no hazard; only a plan can. -/
def Call.Tame (c : Call) (s : Scheduler) : Prop :=
  ∀ order, c = .plan order → ∀ id a s₁, Reached order s id a s₁ → ∀ r ∈ s₁.requests, r.id = id →
    ¬Hazard s₁ a r

/-- The tokens of a first chunk are what the matched prefix leaves, as far as the budget goes. -/
theorem schedulePrefillFirstChunk_tokens (hs : Sound s)
    (h : schedulePrefillFirstChunk r budget s = .ok (some ev) s') :
    ∃ m, MatchedPrefix s r m ∧ ev.tokensThisRound = min budget (r.prefillSize-m) := by
  obtain ⟨hroom,hages,_,hoffer,hnone,hweighed⟩ :=
    (schedulePrefillFirstChunk_returns hs r budget).of_ok h
  obtain ⟨m,kv₁,kvl,hw,hiff,hev⟩ := hweighed fun hfree => nomatch hnone hfree
  obtain ⟨rfl,hdepth⟩ := hev ev rfl
  have hoffered : Offered s r budget s' ev :=
    ⟨hroom,hages,hoffer ev rfl,kv₁,kvl,hw,hiff.mp rfl,hdepth⟩
  exact ⟨_,hoffered.matchedPrefix hs,(hoffer ev rfl).tokens⟩

/-- A first chunk is negative exactly where the cache has more than is to be prefilled. -/
theorem tokensThisRound_neg_iff (hs : Sound s) (hb : 0 < budget)
    (h : schedulePrefillFirstChunk r budget s = .ok (some ev) s') :
    ev.tokensThisRound < 0 ↔ ∃ T, Reusable s r T ∧ r.prefillSize < T.length := by
  obtain ⟨m,hm,htokens⟩ := schedulePrefillFirstChunk_tokens hs h
  constructor
  · intro hneg
    obtain ⟨T,hT,hlen⟩ := hm.reached
    exact ⟨T,hT,by omega⟩
  · rintro ⟨T,hT,hlen⟩
    have hlong := hm.longest T hT
    omega

/-- A submitted request on which the loop throws was offered a first chunk. -/
theorem forwardCandidate_offered (hs : Sound s) (hr : r ∈ s.requests) (hst : r.state = .submitted)
    {e : Fault} (h : forwardCandidate a r.id s = .error e s') :
    ∃ ev s₁, schedulePrefillFirstChunk r a.tokenBudget s = .ok (some ev) s₁ := by
  have hruns : Runs (forwardCandidate a r.id) s (fun _ _ => True)
      (fun _ _ => ∃ ev s₁, schedulePrefillFirstChunk r a.tokenBudget s = .ok (some ev) s₁) := by
    obtain ⟨o,s₁,hrun,_⟩ := (schedulePrefillFirstChunk_returns hs r a.tokenBudget).exists
    have hreturns : Returns (schedulePrefillFirstChunk r a.tokenBudget) s
        (fun o' s' => o = o' ∧ s₁ = s') := returns_of_ok hrun ⟨rfl,rfl⟩
    unfold forwardCandidate
    rw [runs_bind,runs_get]
    apply getRequest_bind hs.ids hr
    simp only [hst]
    unfold forwardFirstChunk
    rw [runs_bind]
    apply hreturns.bind
    rintro _ _ ⟨rfl,rfl⟩
    cases o with
    | none => exact trivial
    | some ev =>
      unfold Runs
      split
      · trivial
      · exact ⟨ev,s₁,hrun⟩
  exact hruns.of_error h

/-- A decode is left alone where the loop stops at it. -/
theorem forwardCandidate_stops {n : Int} (hs : Sound s) (hr : r ∈ s.requests)
    (hst : r.state = .decoding f n) (hmixed : s.config.enableMixedPrefillDecode = false)
    (hpushed : a.pushedPrefill = true) : Returns (forwardCandidate a r.id) s (fun _ _ => True) := by
  unfold Returns forwardCandidate
  rw [runs_bind,runs_get]
  apply getRequest_bind hs.ids hr
  simp only [hst]
  rw [if_pos ⟨by simp [hmixed],hpushed⟩]
  exact trivial

/-- A candidate that is no hazard does not throw. -/
theorem forwardCandidate_tame (hs : Sound s) (hr : r ∈ s.requests) (hb : 0 < a.tokenBudget)
    (hdecode : 0 ≤ s.config.decodeInputTokens) (hw : Windowed s) (htame : ¬Hazard s a r)
    {x : Exception} : forwardCandidate a r.id s ≠ .error (.exception x) s' := by
  intro h
  obtain ⟨_,_,⟨_,hu⟩ | ⟨_,f,n,hst,hneg⟩ | hunfit⟩ := (forwardCandidate_runs hs hr a).of_error h
  · cases hu
  · by_cases hgoes : s.config.enableMixedPrefillDecode = true ∨ a.pushedPrefill = false
    · exact htame (.reserve hst hgoes hneg)
    · rw [not_or,Bool.not_eq_true,Bool.not_eq_false] at hgoes
      have hreturns := forwardCandidate_stops hs hr hst hgoes.1 hgoes.2
      exact Runs.of_error hreturns h
  · cases hunfit with
    | decodeInputTokens neg => omega
    | @window f w before neg =>
      have hlt := hw r hr f w before
      have hleft : r.unscheduledPrefillSize w = r.prefillSize-(w.start+w.size) := rfl
      omega
    | @matched s₁ ev before offered neg =>
      obtain ⟨ev',s₂,hoffered⟩ := forwardCandidate_offered hs hr before h
      obtain ⟨T,hT,hlen⟩ := (offered.matchedPrefix hs).reached
      have htokens := offered.offer.tokens
      unfold firstChunkTokens at htokens
      exact htame (.covered before hoffered hT (by omega))

end Hazard

section Tiled

/-- Where a request of the prompt `r` stands once its windows reach up to `e`: it is prefilling while
something is left, and past it once nothing is, unless it was given up. -/
def UpTo (r : Request) (e : Int) (x : Request) : Prop :=
  (∃ f w, x.state = .prefilling f w ∧ w.start+w.size = e ∧ e < r.prefillSize ∧
    x.prefillSize = r.prefillSize) ∨
  x.state.isEarly = false ∧ (e = r.prefillSize ∨ x.state.inService = false)

/-- The windows issued for the prompt `r`, which begin where `B` says. -/
inductive Tiled (B : Int → Prop) (r : Request) (s : Scheduler) (ws : List Window) : Prop
  | waiting (none : ws = [])
      (requests : ∀ x ∈ s.requests, x.id = r.id → x = r ∨ x.state.inService = false)
  | begun {m e : Int} (start : B m) (tiles : Tiles m ws e) (le : e ≤ r.prefillSize)
      (requests : ∀ x ∈ s.requests, x.id = r.id → UpTo r e x)

theorem Tiled.mono (h : Tiled B r s ws) (hB : ∀ m, B m → B' m) : Tiled B' r s ws := by
  cases h with
  | waiting none requests => exact .waiting none requests
  | begun start tiles le requests => exact .begun (hB _ start) tiles le requests

theorem upTo_of_left (h : x.state.inService = false) : UpTo r e x := by
  refine .inr ⟨?_,.inr h⟩
  cases hearly : x.state.isEarly with
  | false => rfl
  | true =>
    rw [inService_of_isEarly hearly] at h
    cases h

/-- Nothing changes for a prompt whose request is left alone or given up. -/
theorem Tiled.frame (h : Tiled B r s ws)
    (hreq : ∀ x ∈ s'.requests, x.id = r.id → x.state.inService = true → x ∈ s.requests) :
    Tiled B r s' ws := by
  cases h with
  | waiting none requests =>
    refine .waiting none fun x hx hid => ?_
    cases hin : x.state.inService with
    | false => exact .inr rfl
    | true => exact (requests x (hreq x hx hid hin) hid).imp id fun hno => hin.symm.trans hno
  | begun start tiles le requests =>
    refine .begun start tiles le fun x hx hid => ?_
    cases hin : x.state.inService with
    | false => exact upTo_of_left hin
    | true => exact requests x (hreq x hx hid hin) hid

theorem upTo_chunk {c : SchedulerConfig} (hle : w.start+w.size ≤ r.prefillSize)
    (hsize : y.prefillSize = r.prefillSize) :
    UpTo r (w.start+w.size) { y with state := firstChunkState c y f w } := by
  by_cases hfull : w.start+w.size = y.prefillSize
  · refine .inr ⟨?_,.inl (hfull.trans hsize)⟩
    dsimp only
    rw [firstChunkState,if_pos hfull]
    rfl
  · refine .inl ⟨f,w,?_,rfl,by omega,hsize⟩
    dsimp only
    rw [firstChunkState,if_neg hfull]

/-- What a visit to the request of the prompt adds to its windows. -/
theorem Tiled.outcome (h : Tiled B r s (ws ++ windowsOf y.id a.ops)) (hr : r.state = .submitted)
    (hs : Sound s') (hy : y ∈ s.requests) (hid : y.id = r.id) (hx : x ∈ s'.requests)
    (hx_id : x.id = y.id) (hout : Outcome s a y a' x)
    (hB : y = r → ∀ m, MatchedPrefix s r m → B m) : Tiled B r s' (ws ++ windowsOf y.id a'.ops) := by
  have honly : ∀ z ∈ s'.requests, z.id = r.id → z = x := fun z hz hz_id =>
    List.inj_on_of_nodup_map hs.ids hz hx (hz_id.trans (hx_id.trans hid).symm)
  cases h with
  | waiting none requests =>
    have hy_cases := requests y hy hid
    have hsubmitted : y.state = .submitted → y = r := by
      intro hst
      refine hy_cases.resolve_right fun hno => ?_
      rw [hst] at hno
      cases hno
    cases hout with
    | same eq ops =>
      rw [show windowsOf y.id a'.ops = windowsOf y.id a.ops by rw [windowsOf,ops]; rfl]
      refine .waiting none fun z hz hz_id => ?_
      rw [honly z hz hz_id,eq]
      exact hy_cases
    | @began f w op before matched size le after ops row =>
      obtain rfl := hsubmitted before
      rw [windowsOf_push ops,row,← List.append_assoc,none]
      have htiles : Tiles w.start ([] ++ [w]) (w.start+w.size) := Tiles.nil.snoc rfl size
      refine .begun (hB rfl _ matched) htiles le fun z hz hz_id => ?_
      rw [honly z hz hz_id,after]
      exact upTo_chunk le rfl
    | covered before matched after windows =>
      obtain rfl := hsubmitted before
      rw [windows,none]
      refine .begun (hB rfl _ matched) .nil le_rfl fun z hz hz_id => ?_
      rw [honly z hz hz_id]
      exact .inr ⟨after,.inl rfl⟩
    | chunked before =>
      obtain rfl | hno := hy_cases
      · rw [hr] at before
        cases before
      · rw [before] at hno
        cases hno
    | late before =>
      obtain rfl | hno := hy_cases
      · rw [hr] at before
        cases before
      · rw [inService_of_isLate before] at hno
        cases hno
  | @begun m e start tiles le requests =>
    have hy_upTo := requests y hy hid
    have hnot : y.state ≠ .submitted := by
      intro hst
      obtain ⟨f,w,hpre,_⟩ | ⟨hlate,_⟩ := hy_upTo
      · rw [hst] at hpre
        cases hpre
      · rw [hst] at hlate
        cases hlate
    cases hout with
    | same eq ops =>
      rw [show windowsOf y.id a'.ops = windowsOf y.id a.ops by rw [windowsOf,ops]; rfl]
      refine .begun start tiles le fun z hz hz_id => ?_
      rw [honly z hz hz_id,eq]
      exact hy_upTo
    | began before | covered before => exact absurd before hnot
    | @chunked f f' w w' op before hstart size hfits after ops row =>
      obtain ⟨f₀,w₀,hpre,hend,_,hsize⟩ | ⟨hlate,_⟩ := hy_upTo
      · rw [hpre] at before
        injection before with _ hw
        subst hw
        rw [windowsOf_push ops,row,← List.append_assoc]
        have htiles := tiles.snoc (hstart.trans hend) size
        rw [← hend,← hstart] at htiles
        refine .begun start htiles (hsize ▸ hfits) fun z hz hz_id => ?_
        rw [honly z hz hz_id,after]
        exact upTo_chunk (hsize ▸ hfits) hsize
      · rw [before] at hlate
        cases hlate
    | late before after windows =>
      rw [windows]
      refine .begun start tiles le fun z hz hz_id => ?_
      rw [honly z hz hz_id]
      refine .inr ⟨after,.inl ?_⟩
      obtain ⟨f₀,w₀,hpre,_⟩ | ⟨_,hend | hno⟩ := hy_upTo
      · rw [hpre] at before
        cases before
      · exact hend
      · rw [inService_of_isLate before] at hno
        cases hno

/-- A visit to any request. -/
theorem Tiled.visit (h : Tiled B r s (ws ++ windowsOf r.id a.ops)) (hr : r.state = .submitted)
    (hv : Visit s a y (some a') s') (hs : Sound s) (hy : y ∈ s.requests) (hb : 0 < a.tokenBudget)
    (hw : Windowed s) (hB : y = r → ∀ m, MatchedPrefix s r m → B m) :
    Tiled B r s' (ws ++ windowsOf r.id a'.ops) := by
  by_cases hid : y.id = r.id
  · have hmem : y.id ∈ s'.requests.map Request.id := by
      rw [hv.proceeds.ids]
      exact List.mem_map_of_mem hy
    obtain ⟨x,hx,hx_id⟩ := List.mem_map.mp hmem
    have hout := hv.outcome hs hy hb hw hx hx_id
    rw [← hid] at h ⊢
    exact h.outcome hr (hv.proceeds.sound hs) hy hid hx hx_id hout hB
  · rw [hv.windowsOf_other hs hy hb hid]
    exact h.frame fun x hx hx_id _ => hv.mem_other hx fun heq => hid (heq.symm.trans hx_id)

theorem Walks.windowed (h : Walks ids a s rest a' s') (hs : Sound s)
    (hids : ∀ id ∈ ids, id ∈ s.requests.map Request.id) (hw : Windowed s) : Windowed s' := by
  have hvisits := h.visits hs hids
  clear h
  induction hvisits with
  | refl => exact hw
  | cons budget _ found visit _ ih =>
    have hproceeds := visit.proceeds
    apply ih (hproceeds.sound hs) ?_ (visit.windowed hs found budget hw)
    intro id hid
    rw [hproceeds.ids]
    exact hids id (List.mem_cons_of_mem _ hid)

/-- The loop over the candidates. -/
theorem Walks.tiled (h : Walks ids a s rest a' s') (hr : r.state = .submitted) (hs : Sound s)
    (hids : ∀ id ∈ ids, id ∈ s.requests.map Request.id) (hw : Windowed s)
    (hB : ∀ a₂ s₂, Stands ids a s r.id a₂ s₂ → r ∈ s₂.requests → ∀ m, MatchedPrefix s₂ r m → B m)
    (ht : Tiled B r s (ws ++ windowsOf r.id a.ops)) :
    Tiled B r s' (ws ++ windowsOf r.id a'.ops) := by
  induction h with
  | refl => exact ht
  | @cons id ids rest a a₁ a' s s₁ s' budget batch run walks ih =>
    obtain ⟨y,hy,rfl⟩ := List.mem_map.mp (hids _ List.mem_cons_self)
    have hvisit := (forwardCandidate_runs hs hy a).of_ok run
    have hproceeds := hvisit.proceeds
    apply ih (hproceeds.sound hs)
    · intro id hid
      rw [hproceeds.ids]
      exact hids id (List.mem_cons_of_mem _ hid)
    · exact hvisit.windowed hs hy budget hw
    · exact fun a₂ s₂ hstands => hB a₂ s₂ (hstands.cons budget batch run)
    · apply ht.visit hr hvisit hs hy budget hw
      rintro rfl m hm
      exact hB a s ⟨⟨ids,.refl⟩,budget,batch⟩ hy m hm

theorem windowsOf_forward (ops : List ForwardOperation) :
    windowsOf id (ops.filter ForwardOperation.isPrefill ++ ops.filter fun op => !op.isPrefill) =
      windowsOf id ops := by
  have hnone : (ops.filter fun op => !op.isPrefill).filterMap (windowOf id) = [] := by
    apply List.filterMap_eq_nil_iff.mpr
    intro op hop
    exact windowOf_decode (by simpa using (List.mem_filter.mp hop).2)
  rw [windowsOf,List.filterMap_append,hnone,List.append_nil,List.filterMap_filter,windowsOf]
  congr 1
  funext op
  cases hop : op.isPrefill <;> simp [windowOf,hop]

theorem Retired.windowed (h : Retired s y s') (hw : Windowed s) : Windowed s' := by
  intro x hx f w hst
  cases h with
  | left becomes =>
    obtain rfl | ⟨hold,_⟩ := becomes.cases hx
    · cases hst
    · exact hw x hold f w hst
  | kept _ _ after becomes =>
    obtain rfl | ⟨hold,_⟩ := becomes.cases hx
    · obtain rfl | ⟨_,_,rfl⟩ := after <;> cases hst
    · exact hw x hold f w hst

/-- A retract is of a request that is past its prompt. -/
theorem Tiled.retired (h : Tiled B r s ws) (hr : r.state = .submitted) (hret : Retired s y s')
    (hy : y.state.isDecodable = true) : Tiled B r s' ws := by
  cases hret with
  | left becomes =>
    apply h.frame
    intro x hx _ hin
    obtain rfl | ⟨hold,_⟩ := becomes.cases hx
    · cases hin
    · exact hold
  | @kept f l₀ l n st' before _ after becomes =>
    have hafter : st'.isEarly = false := by
      obtain rfl | ⟨_,_,rfl⟩ := after <;> rfl
    have hin := inService_of_forward before
    cases h with
    | waiting none requests =>
      refine .waiting none fun x hx hid => ?_
      obtain rfl | ⟨hold,_⟩ := becomes.cases hx
      · obtain rfl | hno := requests y becomes.found hid
        · rw [hr] at hy
          cases hy
        · rw [hin] at hno
          cases hno
      · exact requests x hold hid
    | begun start tiles le requests =>
      refine .begun start tiles le fun x hx hid => ?_
      obtain rfl | ⟨hold,_⟩ := becomes.cases hx
      · refine .inr ⟨hafter,.inl ?_⟩
        obtain ⟨_,_,hpre,_⟩ | ⟨_,hend | hno⟩ := requests y becomes.found hid
        · rw [hpre] at hy
          cases hy
        · exact hend
        · rw [hin] at hno
          cases hno
      · exact requests x hold hid

/-- The scheduler as the loop of a plan finds it. -/
theorem Opens.frame (h : Opens order s ids s₁) (hs : Sound s) (hc : Copying s)
    (hids : ∀ id ∈ order, id ∈ s.requests.map Request.id) :
    Sound s₁ ∧ s₁.config = s.config ∧ (∀ id ∈ ids, id ∈ s₁.requests.map Request.id) ∧
      ∀ x ∈ s₁.requests, x.state.inService = true → x ∈ s.requests := by
  obtain ⟨⟨ops,s₀,hrun,rfl⟩,rfl⟩ := h
  have hcommits := Runs.of_ok (newWriteBackOperation_returns hs hids) hrun
  refine ⟨(erased_turn (hcommits.turn hs hc).sound).sound,hcommits.config,?_,
    fun x hx hin => hcommits.found_inService hc hx hin⟩
  intro id hid
  obtain ⟨x,hx,rfl⟩ := List.mem_map.mp hid
  have hcand := (List.perm_insertionSort _ _).mem_iff.mp hx
  obtain ⟨id,_,hfind⟩ := List.mem_filterMap.mp (List.mem_filter.mp hcand).1
  exact List.mem_map_of_mem (findRequest_some hfind).1

theorem Windowed.frame (h : Windowed s)
    (hreq : ∀ x ∈ s'.requests, x.state.inService = true → x ∈ s.requests) : Windowed s' := by
  intro x hx f w hst
  exact h x (hreq x hx (by rw [hst]; rfl)) f w hst

theorem Ran.windowed (h : Ran order s plan s') (hs : Sound s) (hc : Copying s)
    (hids : ∀ id ∈ order, id ∈ s.requests.map Request.id) (hw : Windowed s) : Windowed s' := by
  obtain ⟨ids,s₁,rest,a,s₂,hopens,hwalks,_,hend⟩ := h
  obtain ⟨hs₁,_,hids₁,hreq⟩ := hopens.frame hs hc hids
  have hw₂ := hwalks.windowed hs₁ hids₁ (hw.frame hreq)
  obtain rfl | ⟨y,_,hret⟩ := hend
  · exact hw₂
  · exact hret.windowed hw₂

/-- A plan goes on with the windows of a prompt. -/
theorem Ran.tiled (h : Ran order s plan s') (hr : r.state = .submitted) (hs : Sound s)
    (hc : Copying s) (hids : ∀ id ∈ order, id ∈ s.requests.map Request.id) (hw : Windowed s)
    (hB : ∀ a s₂, Reached order s r.id a s₂ → r ∈ s₂.requests → ∀ m, MatchedPrefix s₂ r m → B m)
    (ht : Tiled B r s ws) : Tiled B r s' (ws ++ windowsOf r.id plan.forward) := by
  obtain ⟨ids,s₁,rest,a,s₂,hopens,hwalks,hplan,hend⟩ := h
  obtain ⟨hs₁,_,hids₁,hreq⟩ := hopens.frame hs hc hids
  have ht₁ : Tiled B r s₁ (ws ++ windowsOf r.id []) := by
    rw [windowsOf,List.filterMap_nil,List.append_nil]
    exact ht.frame fun x hx _ hin => hreq x hx hin
  have ht₂ := hwalks.tiled hr hs₁ hids₁ (hw.frame hreq)
    (fun a₂ s₂ hstands => hB a₂ s₂ ⟨ids,s₁,hopens,hstands⟩) ht₁
  rw [hplan,windowsOf_forward]
  obtain rfl | ⟨y,hy,hret⟩ := hend
  · exact ht₂
  · exact ht₂.retired hr hret hy

/-- Where the loop of a plan stands at a candidate, all is as before a plan. -/
theorem Reached.frame (h : Reached order s id a s₂) (hs : Sound s) (hc : Copying s)
    (hids : ∀ id ∈ order, id ∈ s.requests.map Request.id) (hw : Windowed s) :
    Sound s₂ ∧ s₂.config = s.config ∧ Windowed s₂ ∧ 0 < a.tokenBudget ∧
      ∃ r ∈ s₂.requests, r.id = id := by
  obtain ⟨ids,s₁,hopens,⟨rest,hwalks⟩,hb,_⟩ := h
  obtain ⟨hs₁,hconfig,hids₁,hreq⟩ := hopens.frame hs hc hids
  have hproceeds := (hwalks.visits hs₁ hids₁).proceeds
  refine ⟨hproceeds.sound hs₁,hproceeds.config.trans hconfig,
    hwalks.windowed hs₁ hids₁ (hw.frame hreq),hb,?_⟩
  have hmem : id ∈ s₂.requests.map Request.id := by
    rw [hproceeds.ids]
    exact hids₁ id (hwalks.rest_subset List.mem_cons_self)
  exact List.mem_map.mp hmem

/-- A plan that meets no hazard comes back. -/
theorem Calls.ran (h : Calls s (.plan order) reply s') (hs : Sound s) (hc : Copying s)
    (hw : Windowed s) (hdecode : 0 ≤ s.config.decodeInputTokens)
    (htame : (Call.plan order).Tame s) :
    (∀ id ∈ order, id ∈ s.requests.map Request.id) ∧
      ∃ plan, reply = .plan plan ∧ Ran order s plan s' := by
  have hruns : (∀ id ∈ order, id ∈ s.requests.map Request.id) →
      Runs (runCall (.plan order)) s (fun reply s' => ∃ plan, reply = .plan plan ∧ Ran order s plan s')
        (fun e _ => ∃ u, e = .undefined u) := by
    intro hids
    change Runs (nextExecutionPlan order >>= fun p => pure (Reply.plan p)) s _ _
    refine Runs.bind ((nextExecutionPlan_walks hs hids).imp (fun _ _ hq => hq) ?_)
      fun plan s₁ hran => ⟨plan,rfl,hran⟩
    rintro e s₁ (hu | ⟨id,a,s₂,hreached,hthrows⟩)
    · exact hu
    · obtain ⟨hs₂,hconfig,hw₂,hb,y,hy,rfl⟩ := hreached.frame hs hc hids hw
      cases e with
      | undefined u => exact ⟨u,rfl⟩
      | exception x =>
        have htame₂ := htame order rfl _ a s₂ hreached y hy rfl
        exact absurd hthrows (forwardCandidate_tame hs₂ hy hb (hconfig ▸ hdecode) hw₂ htame₂)
  cases h with
  | returns ordered run =>
    have hids : ∀ id ∈ order, id ∈ s.requests.map Request.id := fun id hid =>
      ordered.mem_iff.mp hid
    exact ⟨hids,(hruns hids).of_ok run⟩
  | throws ordered run =>
    have hids : ∀ id ∈ order, id ∈ s.requests.map Request.id := fun id hid =>
      ordered.mem_iff.mp hid
    obtain ⟨u,hu⟩ := (hruns hids).of_error run
    cases hu

end Tiled

section Runs

/-- An event leaves a prompt as it is, or is for a request that is past it. -/
theorem Tiled.answered {ev : Event} (h : Tiled B r s ws) (hr : r.state = .submitted)
    (ha : Answered ev s s') : Tiled B r s' ws := by
  have hcases : ∀ x ∈ s'.requests, x.state.inService = false ∨ x ∈ s.requests ∨
      ∃ y ∈ s.requests, y.id = x.id ∧ y.state.inService = true ∧ y.state.isEarly = false ∧
        x.state.isEarly = false := by
    intro x hx
    cases ha.answers x hx with
    | same found => exact .inr (.inl found)
    | left done => exact .inl done
    | @extended y tokens event found before after =>
      subst after
      exact .inr (.inr ⟨y,found,rfl,inService_of_takesTokens before,
        not_isEarly_of_takesTokens before,not_isEarly_of_takesTokens before⟩)
    | @reserved y f n k event found before after =>
      subst after
      refine .inr (.inr ⟨y,found,rfl,?_,?_,rfl⟩) <;> rw [before] <;> rfl
    | @lost y f event found before own after decodable served =>
      exact .inr (.inr ⟨y,found,own.symm,inService_of_forward before,
        not_isEarly_of_isDecodable served,not_isEarly_of_isDecodable decodable⟩)
    | @recoverable y d n l pairs found before after =>
      subst after
      refine .inr (.inr ⟨y,found,rfl,?_,?_,rfl⟩) <;> rw [before] <;> rfl
  cases h with
  | waiting none requests =>
    refine .waiting none fun x hx hid => ?_
    obtain hno | hold | ⟨y,hy,hy_id,hin,hlate,_⟩ := hcases x hx
    · exact .inr hno
    · exact requests x hold hid
    · obtain rfl | hno := requests y hy (hy_id.trans hid)
      · rw [hr] at hlate
        cases hlate
      · rw [hin] at hno
        cases hno
  | begun start tiles le requests =>
    refine .begun start tiles le fun x hx hid => ?_
    obtain hno | hold | ⟨y,hy,hy_id,hin,hlate,hlate'⟩ := hcases x hx
    · exact upTo_of_left hno
    · exact requests x hold hid
    · obtain ⟨_,_,hpre,_⟩ | ⟨_,hend | hno⟩ := requests y hy (hy_id.trans hid)
      · rw [hpre] at hlate
        cases hlate
      · exact .inr ⟨hlate',.inl hend⟩
      · rw [hin] at hno
        cases hno

theorem Windowed.answered {ev : Event} (h : Windowed s) (ha : Answered ev s s') : Windowed s' := by
  intro x hx f w hst
  cases ha.answers x hx with
  | same found => exact h x found f w hst
  | left done =>
    rw [hst] at done
    cases done
  | extended _ _ before after =>
    subst after
    rw [hst] at before
    cases before
  | reserved _ _ _ after | recoverable _ _ after =>
    subst after
    cases hst
  | lost _ _ _ _ _ decodable =>
    rw [hst] at decodable
    cases decodable

/-- A submission leaves the request of an id that is held. -/
theorem Calls.submit_held (h : Calls s (.submit specs) reply s') (hs : Sound s)
    (hid : id ∈ s.requests.map Request.id) (hx : x ∈ s'.requests) (hx_id : x.id = id) :
    x ∈ s.requests := by
  have hloop : Runs (submitRequests specs) s (fun _ s' => s.requests ⊆ s'.requests)
      (fun _ s' => s.requests ⊆ s'.requests) := by
    refine (runs_forM submitRequest (fun _ s' => s.requests ⊆ s'.requests) ?_ specs
      (List.Subset.refl _)).imp (fun _ _ hi => hi) fun _ _ hi => hi
    intro spec _ s₁ hsub
    apply (submitRequest_accepts spec s₁).imp
    · intro _ s₂ haccepts
      obtain rfl | ⟨_,rfl⟩ := haccepts
      · exact hsub
      · exact fun y hy => List.mem_append_left _ (hsub hy)
    · intro _ s₂ hsame
      rw [hsame]
      exact hsub
  have hruns : Runs (runCall (.submit specs)) s (fun _ s' => s.requests ⊆ s'.requests)
      (fun _ s' => s.requests ⊆ s'.requests) := hloop.bind fun _ _ hi => hi
  have hsub : s.requests ⊆ s'.requests := by
    cases h with
    | returns _ run => exact hruns.of_ok run
    | throws _ run => exact hruns.of_error run
  obtain ⟨_,hsteps,_⟩ := h.steps hs
  obtain ⟨y,hy,hy_id⟩ := List.mem_map.mp hid
  rw [List.inj_on_of_nodup_map (hsteps.sound hs).ids hx (hsub hy) (hx_id.trans hy_id.symm)]
  exact hy

theorem Calls.windowed (h : Calls s c reply s') (hs : Sound s) (hc : Copying s) (hw : Windowed s)
    (hdecode : 0 ≤ s.config.decodeInputTokens) (htame : c.Tame s) : Windowed s' := by
  cases c with
  | submit specs =>
    intro x hx f w hst
    obtain hold | ⟨spec,_,_,rfl⟩ := h.mem_submitted hx
    · exact hw x hold f w hst
    · cases hst
  | advance events =>
    apply h.advance_invariant ?_ hs hw
    intro ev _ s₁ s₂ _ hw₁ ha
    exact hw₁.answered ha
  | plan order =>
    obtain ⟨hids,plan,_,hran⟩ := h.ran hs hc hw hdecode htame
    exact hran.windowed hs hc hids hw

/-- The windows of a request that a reply issues. -/
def Reply.windows (id : RequestId) : Reply → List Window
  | .plan plan => windowsOf id plan.forward
  | _ => []

/-- The windows a run has issued for an id, in order; the latest call comes first in a history. -/
def prefillWindows (id : RequestId) : List (Call × Reply) → List Window
  | [] => []
  | (_,reply) :: later => prefillWindows id later ++ reply.windows id

theorem Calls.windows_nil (h : Calls s c reply s') (hc : ∀ order, c ≠ .plan order) :
    reply.windows id = [] := by
  have hdone : ∀ x : Sched Unit, Runs (x >>= fun _ => pure Reply.done) s
      (fun reply _ => reply = .done) (fun _ _ => True) := by
    intro x
    exact (runs_trivial x s).bind fun _ _ _ => rfl
  cases h with
  | throws => rfl
  | returns _ run =>
    have hruns : Runs (runCall c) s (fun reply _ => reply = .done) (fun _ _ => True) := by
      cases c with
      | submit specs => exact hdone (submitRequests specs)
      | advance events => exact hdone (advance events)
      | plan order => exact absurd rfl (hc order)
    rw [hruns.of_ok run]
    rfl

theorem Calls.tiled (h : Calls s c reply s') (hr : r.state = .submitted) (hs : Sound s)
    (hc : Copying s) (hw : Windowed s) (hdecode : 0 ≤ s.config.decodeInputTokens)
    (htame : c.Tame s) (hid : r.id ∈ s.requests.map Request.id)
    (hB : ∀ order, c = .plan order → ∀ a s₂, Reached order s r.id a s₂ → r ∈ s₂.requests →
      ∀ m, MatchedPrefix s₂ r m → B m)
    (ht : Tiled B r s ws) : Tiled B r s' (ws ++ reply.windows r.id) := by
  cases c with
  | submit specs =>
    rw [h.windows_nil (by simp),List.append_nil]
    exact ht.frame fun x hx hx_id _ => h.submit_held hs hid hx hx_id
  | advance events =>
    rw [h.windows_nil (by simp),List.append_nil]
    apply h.advance_invariant ?_ hs ht
    intro ev _ s₁ s₂ _ ht₁ ha
    exact ht₁.answered hr ha
  | plan order =>
    obtain ⟨hids,plan,rfl,hran⟩ := h.ran hs hc hw hdecode htame
    exact hran.tiled hr hs hc hids hw (hB order rfl) ht

/-- In the run that leads to a state, the loop of some plan stands at the request. -/
structure StandsAt (s : Scheduler) (later : List (Call × Reply)) (r : Request) (a : Forwarding)
    (s₂ : Scheduler) : Prop where
  visited : ∃ order reply earlier s₁, (.plan order,reply) :: earlier <:+ later ∧
    Continues s earlier s₁ ∧ Reached order s₁ r.id a s₂
  found : r ∈ s₂.requests

theorem StandsAt.mono {now : Call × Reply} (h : StandsAt s later r a s₂) :
    StandsAt s (now :: later) r a s₂ := by
  obtain ⟨order,reply,earlier,s₁,hsub,hrun⟩ := h.visited
  exact ⟨⟨order,reply,earlier,s₁,hsub.trans (List.suffix_cons _ _),hrun⟩,h.found⟩

/-- A run all of whose plans meet no hazard keeps what the loop needs. -/
theorem RunWhere.windowed {P : Scheduler → Call → Prop} (h : RunWhere P s later s') (hs : Sound s)
    (hc : Copying s) (hw : Windowed s) (hdecode : 0 ≤ s.config.decodeInputTokens)
    (hP : ∀ s c, P s c → c.Tame s) :
    Sound s' ∧ Copying s' ∧ Windowed s' ∧ s'.config = s.config := by
  induction h with
  | nil => exact ⟨hs,hc,hw,rfl⟩
  | call _ meets calls ih =>
    obtain ⟨hs₁,hc₁,hw₁,hconfig₁⟩ := ih
    obtain ⟨hs₂,hc₂,hconfig₂⟩ := calls.keeps hs₁ hc₁
    exact ⟨hs₂,hc₂,calls.windowed hs₁ hc₁ hw₁ (hconfig₁ ▸ hdecode) (hP _ _ meets),
      hconfig₂.trans hconfig₁⟩

/-- A call of a run, with the state it was made in. -/
theorem RunWhere.call_of_suffix {P : Scheduler → Call → Prop} (h : RunWhere P s later s')
    (hsub : (c,reply) :: earlier <:+ later) :
    ∃ s₁ s₂, RunWhere P s earlier s₁ ∧ P s₁ c ∧ Calls s₁ c reply s₂ := by
  induction h with
  | nil => cases List.suffix_nil.mp hsub
  | @call later s₁ s₂ c' reply' run meets calls ih =>
    obtain heq | hsub := List.suffix_cons_iff.mp hsub
    · injection heq with hcall hlater
      injection hcall with hc hreply
      subst hc hreply hlater
      exact ⟨s₁,s₂,run,meets,calls⟩
    · exact ih hsub

/-- In a run whose plans meet no hazard the first chunk of every prompt has no negative size, and the
windows of each prompt tile it from the matched prefix on: the request is prefilling while something
is left and past its prompt once nothing is. -/
theorem prefill_tiled (hdecode : 0 ≤ config.decodeInputTokens)
    (h : RunWhere (fun s c => c.Tame s) (Scheduler.new config clock) history s)
    (hr : r ∈ s.requests) (hst : r.state = .submitted)
    (hlater : RunWhere (fun s c => c.Tame s ∧ r.id ∈ s.requests.map Request.id) s later s') :
    (∀ a s₂, StandsAt s later r a s₂ → ∀ ev s₃,
      schedulePrefillFirstChunk r a.tokenBudget s₂ = .ok (some ev) s₃ → 0 ≤ ev.tokensThisRound) ∧
    Tiled (fun m => ∃ a s₂, StandsAt s later r a s₂ ∧ MatchedPrefix s₂ r m) r s'
      (prefillWindows r.id later) := by
  have hnew : Windowed (Scheduler.new config clock) := by
    intro x hx
    cases hx
  obtain ⟨hs,hc,hw,hconfig⟩ := h.windowed (sound_new config clock) (copying_new config clock) hnew
    hdecode fun _ _ ht => ht
  have hdecode' : 0 ≤ s.config.decodeInputTokens := by
    rw [hconfig]
    exact hdecode
  have hkept : ∀ {later s'}, RunWhere (fun s c => c.Tame s ∧ r.id ∈ s.requests.map Request.id) s
      later s' → Sound s' ∧ Copying s' ∧ Windowed s' ∧ s'.config = s.config :=
    fun h => h.windowed hs hc hw hdecode' fun _ _ ht => ht.1
  constructor
  · rintro a s₂ ⟨⟨order,reply,earlier,s₁,hsub,hcont,hreached⟩,hfound⟩ ev s₃ hoffered
    obtain ⟨s₁',_,hrun,⟨htame,_⟩,hcalls⟩ := hlater.call_of_suffix hsub
    obtain rfl := hrun.continues.unique hcont
    obtain ⟨hs₁,hc₁,hw₁,hconfig₁⟩ := hkept hrun
    obtain ⟨hids,_⟩ := hcalls.ran hs₁ hc₁ hw₁ (hconfig₁ ▸ hdecode') htame
    obtain ⟨hs₂,_,_,hb,_⟩ := hreached.frame hs₁ hc₁ hids hw₁
    by_contra hneg
    obtain ⟨T,hT,hlen⟩ := (tokensThisRound_neg_iff hs₂ hb hoffered).mp (not_le.mp hneg)
    exact htame order rfl _ a s₂ hreached r hfound rfl (.covered hst hoffered hT hlen)
  · induction hlater with
    | nil =>
      refine .waiting rfl fun x hx hid => .inl ?_
      exact List.inj_on_of_nodup_map hs.ids hx hr hid
    | @call later s₁ s₂ c reply run meets calls ih =>
      obtain ⟨hs₁,hc₁,hw₁,hconfig₁⟩ := hkept run
      have hmono : ∀ m, (∃ a s₃, StandsAt s later r a s₃ ∧ MatchedPrefix s₃ r m) →
          ∃ a s₃, StandsAt s ((c,reply) :: later) r a s₃ ∧ MatchedPrefix s₃ r m := by
        rintro m ⟨a,s₃,hstands,hm⟩
        exact ⟨a,s₃,hstands.mono,hm⟩
      apply calls.tiled hst hs₁ hc₁ hw₁ (hconfig₁ ▸ hdecode') meets.1 meets.2 ?_ (ih.mono hmono)
      rintro order rfl a s₃ hreached hfound m hm
      exact ⟨a,s₃,⟨⟨order,reply,later,s₁,List.suffix_refl _,run.continues,hreached⟩,hfound⟩,hm⟩

/-- With the cache off, a plan of a single request that is still to be prefilled meets no hazard. -/
theorem tame_of_early (hs : Sound s) (hc : Copying s) (hoff : s.config.disablePrefixCache = true)
    (hid : id ∈ s.requests.map Request.id)
    (hearly : ∀ r ∈ s.requests, 0 ≤ r.prefillSize ∧ r.state.isEarly = true) :
    (Call.plan [id]).Tame s := by
  rintro order ⟨⟩ id' a s₂ ⟨ids,s₁,hopens,⟨rest,hwalks⟩,_⟩ r hr _ hazard
  obtain ⟨_,hconfig,_,hreq⟩ := hopens.frame hs hc fun i hi => List.mem_singleton.mp hi ▸ hid
  have hlen : ids.length ≤ 1 := by
    rw [hopens.ids,candidateIds,List.length_map,sortCandidates,List.length_insertionSort]
    exact (List.length_filter_le _ _).trans (List.length_filterMap_le _ [id])
  have hsame : s₂ = s₁ := by
    cases hwalks with
    | refl => rfl
    | @cons _ ids' _ _ _ _ _ _ _ _ _ _ walks =>
      have hmem : id' ∈ ids' := walks.rest_subset List.mem_cons_self
      have hpos := List.length_pos_of_mem hmem
      rw [List.length_cons] at hlen
      omega
  rw [hsame] at hr hazard
  cases hazard with
  | @covered T ev s' before offered reusable exceeds =>
    have hin : r.state.inService = true := by
      rw [before]
      rfl
    have hnonneg := (hearly r (hreq r hr hin)).1
    obtain rfl | ⟨hon,_⟩ := reusable
    · rw [List.length_nil] at exceeds
      omega
    · rw [hconfig,hoff] at hon
      cases hon
  | @reserve f n before =>
    have hin : r.state.inService = true := by
      rw [before]
      rfl
    have hno := (hearly r (hreq r hr hin)).2
    rw [before] at hno
    cases hno

/-- A prompt of three blocks is prefilled in two windows. -/
theorem prefill_tiled_chunks : ∃ history s later s',
    RunWhere (fun s c => c.Tame s) (Scheduler.new (blockConfig 4) fun n => n) history s ∧
    prefillWindows [1] later = [⟨0,4⟩,⟨4,2⟩] ∧
    ∃ r ∈ s.requests, r.state = .submitted ∧
      (∀ a s₂, StandsAt s later r a s₂ → ∀ ev s₃,
        schedulePrefillFirstChunk r a.tokenBudget s₂ = .ok (some ev) s₃ → 0 ≤ ev.tokensThisRound) ∧
      Tiled (fun m => ∃ a s₂, StandsAt s later r a s₂ ∧ MatchedPrefix s₂ r m) r s'
        (prefillWindows r.id later) := by
  let early (s : Scheduler) : Bool := s.requests.all fun r =>
    decide (0 ≤ r.prefillSize) && r.state.isEarly
  obtain ⟨⟨h₁,s₁⟩,hx,hearly,hone,⟨h₂,s₂⟩,hy,hearly',hheld,⟨h₃,s₃⟩,hz,hwindows⟩ :
      ∃ x, replayCall ([],Scheduler.new (blockConfig 4) fun n => n) blockPrompt = some x ∧
        early x.2 = true ∧ x.2.requests.map (fun r => (r.id,r.state.name)) = [([1],.submitted)] ∧
        ∃ y, replayCall ([],x.2) (.plan [[1]]) = some y ∧
          early y.2 = true ∧ y.2.requests.map Request.id = [[1]] ∧
        ∃ z, replayCall y (.plan [[1]]) = some z ∧ prefillWindows [1] z.1 = [⟨0,4⟩,⟨4,2⟩] := by
    decide +kernel
  obtain ⟨reply₁,rfl,hcalls₁⟩ := calls_of_replayCall hx
  obtain ⟨reply₂,rfl,hcalls₂⟩ := calls_of_replayCall hy
  obtain ⟨reply₃,rfl,hcalls₃⟩ := calls_of_replayCall hz
  have hrun : RunWhere (fun s c => c.Tame s) (Scheduler.new (blockConfig 4) fun n => n) _ s₁ :=
    .call .nil (fun order h => by cases h) hcalls₁
  have hreaches₁ := Reaches.of_continues hrun.continues
  have hreaches₂ := hreaches₁.call hcalls₂
  obtain ⟨r,hrequests,hr⟩ := List.map_eq_singleton_iff.mp hone
  injection hr with hid hname
  have hmem : r ∈ s₁.requests := by
    rw [hrequests]
    exact List.mem_singleton_self r
  have hst : r.state = .submitted := by
    cases hst : r.state <;> rw [hst] at hname <;> first | rfl | cases hname
  have htame : ∀ {s}, Sound s → Copying s → s.config = blockConfig 4 → early s = true →
      [1] ∈ s.requests.map Request.id → (Call.plan [[1]]).Tame s := by
    intro s hs hc hconfig hearly hheld
    refine tame_of_early hs hc (by rw [hconfig]; rfl) hheld fun r hr => ?_
    have hr_early := List.all_eq_true.mp hearly r hr
    rw [Bool.and_eq_true,decide_eq_true_eq] at hr_early
    exact hr_early
  have hheld₁ : [1] ∈ s₁.requests.map Request.id := List.mem_map.mpr ⟨r,hmem,hid⟩
  have hheld₂ : [1] ∈ s₂.requests.map Request.id := by
    rw [hheld]
    exact List.mem_singleton_self _
  have htame₁ := htame hreaches₁.sound hreaches₁.copying hreaches₁.config_eq hearly hheld₁
  have htame₂ := htame hreaches₂.sound hreaches₂.copying hreaches₂.config_eq hearly' hheld₂
  have hlater : RunWhere (fun s c => c.Tame s ∧ r.id ∈ s.requests.map Request.id) s₁ _ s₃ :=
    .call (.call .nil ⟨htame₁,hid ▸ hheld₁⟩ hcalls₂) ⟨htame₂,hid ▸ hheld₂⟩ hcalls₃
  obtain ⟨hfirst,htiled⟩ := prefill_tiled (by decide) hrun hmem hst hlater
  exact ⟨_,s₁,_,s₃,hrun,hwindows,r,hmem,hst,hfirst,htiled⟩

/-- A request with a prompt of one token that the cache holds three tokens of. -/
def overcoveredCalls : List Call :=
  [.submit [{ requestId := [1], tokens := [7,8] }],.plan [[1]],.advance [.extendResult [1] [9]],
    .plan [[1]],.advance [.finish [1]],
    .submit [{ requestId := [2], tokens := [7,8,9], prefillLength := 1 }]]

/-- The cache has more of the prompt than is to be prefilled: the first chunk is negative, and the
plan throws instead of prefilling. -/
theorem firstChunk_negative : ∃ history s s' r e ev s₁,
    Reaches (smallConfig 9 9) (fun n => n) history s ∧ r ∈ s.requests ∧ r.state = .submitted ∧
    0 ≤ r.prefillSize ∧ r.prefillSize ≤ r.tokens.length ∧
    schedulePrefillFirstChunk r 8 s = .ok (some ev) s₁ ∧ ev.tokensThisRound < 0 ∧
    Calls s (.plan [[1],[2]]) (.threw e) s' := by
  obtain ⟨⟨history,s⟩,hreplay,r,hr,hst,hnonneg,hle,ev,hev,hneg,⟨later,s'⟩,hplan,hthrew⟩ :
      ∃ x, replay (smallConfig 9 9) (fun n => n) overcoveredCalls = some x ∧
        ∃ r ∈ x.2.requests, r.state = .submitted ∧ 0 ≤ r.prefillSize ∧
          r.prefillSize ≤ r.tokens.length ∧
        ∃ ev, (match schedulePrefillFirstChunk r 8 x.2 with
          | .ok o _ => o
          | .error _ _ => none) = some ev ∧ ev.tokensThisRound < 0 ∧
        ∃ y, replayCall x (.plan [[1],[2]]) = some y ∧
          y.1.head?.map Prod.snd = some (.threw .negativeWindow) := by
    decide +kernel
  have hreaches := reaches_of_replay hreplay
  obtain ⟨reply,rfl,hcalls⟩ := calls_of_replayCall hplan
  obtain rfl : reply = .threw .negativeWindow := by simpa using hthrew
  split at hev
  · next o s₁ hrun =>
    rw [hev] at hrun
    exact ⟨history,s,s',r,_,ev,s₁,hreaches,hr,hst,hnonneg,hle,hrun,hneg,hcalls⟩
  · cases hev

end Runs

end FluxServe
