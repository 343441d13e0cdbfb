import FluxServe.Engine.PlanLoop
import FluxServe.Nemotron.Seeds
import FluxServe.Scheduler.AdvanceProof

namespace FluxServe.Engine

open NemotronRunner

variable {M : NemotronModel} {K : PagedRunner M} {R : NemotronRunner M} {c : AdapterConfig}
  {args : ServerArgs} {encode : String → List Token} {s s' : Slot M} {w w' : Served M}
  {t t' : Service M} {x y : Request} {a a' : Adapter} {rids : List RequestId}
  {rid : RequestId} {state : RequestState} {results : List StepResult}

section Ready

/-- A request that is served, and its slot: when it is to decode, its seed is there; before that,
its last chunk reaches the end of the prompt that the engine holds. -/
structure ReadyAt (speculates : Bool) (x : Request) (s : Slot M) : Prop where
  prompted : x.Prompted
  late : x.state.isEarly = false → s.Seeded speculates
  fits : s.Seeded speculates ∨
    ∀ state, s.state = some state → (state.inputIds.length : Int) ≤ x.prefillSize

/-- The requests that the operation in flight ends. -/
def Inflight.ending (f : Inflight) : List RequestId :=
  match f.results with
  | none => f.known
  | some results => (results.filter StepResult.finished).map StepResult.rid

def Service.ending (t : Service M) : List RequestId := (t.inflight.map Inflight.ending).getD []

/-- Every request that is served is known to the engine, and ready unless it is about to end. -/
structure Readies (c : AdapterConfig) (speculates : Bool) (t : Service M) : Prop where
  sound : Sound t.adapter.scheduler
  copying : Copying t.adapter.scheduler
  config : t.adapter.scheduler.config = c.scheduler
  running : ∀ rid state, (t.served rid).state = some state → state.finished = false
  held : ∀ x ∈ t.adapter.scheduler.requests, x.state.inService = true →
    x.id ∈ t.adapter.active ∧ (t.served x.id).state.isSome = true
  ready : ∀ x ∈ t.adapter.scheduler.requests, x.state.inService = true → x.id ∉ t.ending →
    ReadyAt speculates x (t.served x.id)
  distinct : ∀ f results, t.inflight = some f → f.results = some results →
    (results.map StepResult.rid).Nodup

/-- A submission that cannot leave a request without its seed: a new request has a prompt, and a
prompt under an active id is not longer than the one that is still to be prefilled. -/
def Seedable (speculates : Bool) (t : Service M) (state : RequestState) : Prop :=
  (state.rid ∉ t.adapter.active → state.inputIds ≠ []) ∧
  ∀ x ∈ t.adapter.scheduler.requests, x.id = state.rid → x.state.isEarly = true →
    (t.served state.rid).Seeded speculates ∨ (state.inputIds.length : Int) ≤ x.prefillSize

theorem ReadyAt.kept {speculates : Bool} (h : ReadyAt speculates y s) (hkept : y.Kept x) :
    ReadyAt speculates x s :=
  ⟨hkept.prompted h.prompted,fun hlate => h.late (hkept.early.trans hlate),
    h.fits.imp_right fun hfits state hstate => hkept.prefillSize ▸ hfits state hstate⟩

/-- A slot with the same seed and the same prompt. -/
structure Slot.Agrees (s s' : Slot M) : Prop where
  seed : s'.requestSeed = s.requestSeed
  start : s'.requestPrefix = s.requestPrefix
  inputs : s'.state.map RequestState.inputIds = s.state.map RequestState.inputIds

theorem Slot.Agrees.seeded {speculates : Bool} (h : s.Agrees s') (hs : s.Seeded speculates) :
    s'.Seeded speculates :=
  ⟨by rw [h.seed]; exact hs.seed,fun hspec => by rw [h.start]; exact hs.start hspec⟩

theorem ReadyAt.agrees {speculates : Bool} (h : ReadyAt speculates x s) (hs : s.Agrees s') :
    ReadyAt speculates x s' := by
  refine ⟨h.prompted,fun hlate => hs.seeded (h.late hlate),?_⟩
  obtain hseeded | hfits := h.fits
  · exact .inl (hs.seeded hseeded)
  · refine .inr fun state hstate => ?_
    have hinputs := hs.inputs
    rw [hstate] at hinputs
    obtain ⟨state₀,hstate₀,heq⟩ := Option.map_eq_some_iff.mp hinputs.symm
    rw [← heq]
    exact hfits state₀ hstate₀

end Ready

section Submit

/-- A request comes in without any output. -/
theorem makeState_fresh {randbits : Nat} {item : RequestItem}
    (h : args.makeState encode randbits item = .ok state) :
    state.finished = false ∧ state.currentDecodeBlock = 0 ∧ state.outputIds = [] := by
  unfold ServerArgs.makeState at h
  cases hparams : args.resolveParams randbits (item.samplingParams.getD []) with
  | error e =>
    rw [hparams] at h
    cases h
  | ok params =>
    rw [hparams] at h
    simp only [bind,Except.bind] at h
    split at h
    · cases h
    split at h
    · cases h
    split at h
    · injection h with h
      rw [← h]
      exact ⟨rfl,rfl,rfl⟩
    · cases h

theorem makeState_running {randbits : Nat} {item : RequestItem}
    (h : args.makeState encode randbits item = .ok state) : state.finished = false :=
  (makeState_fresh h).1

theorem takeUp_single (c : AdapterConfig) (state : RequestState) (active : List RequestId) :
    c.takeUp [state] active =
      if state.rid ∈ active then (active,some [])
      else if c.maxModelLen < c.prefillLength state then (state.rid::active,none)
      else (state.rid::active,some [c.specOf state]) := by
  simp [AdapterConfig.takeUp]

theorem submits_single (h : a.Submits c [state] a') :
    state.rid ∈ a.active ∧ a' = a ∨ state.rid ∉ a.active ∧ a'.active = state.rid :: a.active ∧
      Takes (c.specOf state) a.scheduler a'.scheduler := by
  by_cases hactive : state.rid ∈ a.active
  · left
    refine ⟨hactive,?_⟩
    cases h with
    | raises loop => simp [takeUp_single,hactive] at loop
    | nothing loop =>
      simp only [takeUp_single,hactive,if_true,Prod.mk.injEq] at loop
      rw [← loop.1]
    | call loop some =>
      simp only [takeUp_single,hactive,if_true,Prod.mk.injEq,Option.some.injEq] at loop
      exact absurd loop.2.symm some
  · right
    refine ⟨hactive,?_⟩
    cases h with
    | raises loop =>
      rw [takeUp_single,if_neg hactive] at loop
      split at loop
      · injection loop with loop
        exact ⟨loop.symm,.inl rfl⟩
      · simp at loop
    | nothing loop =>
      rw [takeUp_single,if_neg hactive] at loop
      split at loop <;> simp at loop
    | call loop some calls =>
      rw [takeUp_single,if_neg hactive] at loop
      split at loop
      · simp at loop
      · injection loop with hactive' hspecs
        injection hspecs with hspecs
        subst hspecs
        exact ⟨hactive'.symm,calls.submitted⟩

theorem specOf_request (hfull : c.fullPromptPrefill = true) :
    (c.specOf state).request =
      { id := state.rid, tokens := state.inputIds, prefillSize := state.inputIds.length,
        state := .submitted } := by
  simp [RequestSpec.request,AdapterConfig.specOf,AdapterConfig.prefillLength,hfull]

theorem Adapter.Submits.keeps {requests : List RequestState} (h : a.Submits c requests a')
    (hs : Sound a.scheduler) (hc : Copying a.scheduler) : Sound a'.scheduler ∧
      Copying a'.scheduler ∧ a'.scheduler.config = a.scheduler.config := by
  cases h with
  | raises | nothing => exact ⟨hs,hc,rfl⟩
  | call _ _ calls => exact calls.keeps hs hc

/-- The slot of a submitted request. -/
def Slot.taken (state : RequestState) (s : Slot M) : Slot M := { s with state := some state }

theorem ReadyAt.taken (h : ReadyAt K.speculates x s)
    (hok : x.state.isEarly = true → s.Seeded K.speculates ∨
      (state.inputIds.length : Int) ≤ x.prefillSize) :
    ReadyAt K.speculates x (s.taken state) := by
  have hseeded (hs : s.Seeded K.speculates) : (s.taken state).Seeded K.speculates :=
    ⟨hs.seed,hs.start⟩
  refine ⟨h.prompted,fun hlate => hseeded (h.late hlate),?_⟩
  cases hearly : x.state.isEarly with
  | false => exact .inl (hseeded (h.late hearly))
  | true =>
    obtain hs | hle := hok hearly
    · exact .inl (hseeded hs)
    · refine .inr fun state' hstate => ?_
      injection hstate with hstate
      rw [← hstate]
      exact hle

theorem readyAt_new {speculates : Bool} (hfull : c.fullPromptPrefill = true)
    (hne : state.inputIds ≠ []) :
    ReadyAt speculates (c.specOf state).request (s.taken state) := by
  have hpos := List.length_pos_of_ne_nil hne
  rw [specOf_request hfull]
  refine ⟨⟨by simpa using hpos,Int.le_refl _⟩,(fun hlate => nomatch hlate),.inr ?_⟩
  intro state' hstate
  injection hstate with hstate
  rw [hstate]

theorem Readies.submit (h : Readies c K.speculates t) (hfull : c.fullPromptPrefill = true)
    (hrunning : state.finished = false) (hok : Seedable K.speculates t state)
    (takes : t.adapter.Submits c [state] a') :
    Readies c K.speculates { t with
      adapter := a'
      served := patch t.served [(state.rid,(t.served state.rid).taken state)] } := by
  obtain ⟨hsound,hcopying,hconfig⟩ := takes.keeps h.sound h.copying
  have hslot (rid : RequestId) : patch t.served [(state.rid,(t.served state.rid).taken state)] rid =
      if rid = state.rid then (t.served rid).taken state else t.served rid := by
    rw [patch_single]
    split
    · next heq => rw [heq]
    · rfl
  have hactive : state.rid ∈ a'.active ∧ ∀ rid ∈ t.adapter.active, rid ∈ a'.active := by
    obtain ⟨hin,rfl⟩ | ⟨_,hactive,_⟩ := submits_single takes
    · exact ⟨hin,fun _ h => h⟩
    · rw [hactive]
      exact ⟨List.mem_cons_self,fun _ h => List.mem_cons_of_mem _ h⟩
  have hmem : ∀ x ∈ a'.scheduler.requests, x ∈ t.adapter.scheduler.requests ∨
      x = (c.specOf state).request ∧ state.rid ∉ t.adapter.active := by
    intro x hx
    obtain ⟨_,rfl⟩ | ⟨hnew,_,htakes⟩ := submits_single takes
    · exact .inl hx
    · exact (htakes.mem hx).imp_right fun heq => ⟨heq,hnew⟩
  refine ⟨hsound,hcopying,hconfig.trans h.config,?_,?_,?_,h.distinct⟩
  · intro rid state' hstate
    dsimp only at hstate
    rw [hslot] at hstate
    split at hstate
    · injection hstate with hstate
      rw [← hstate]
      exact hrunning
    · exact h.running rid state' hstate
  · intro x hx hin
    dsimp only
    rw [hslot]
    obtain hold | ⟨rfl,_⟩ := hmem x hx
    · obtain ⟨hx_active,hx_state⟩ := h.held x hold hin
      refine ⟨hactive.2 x.id hx_active,?_⟩
      split
      · rfl
      · exact hx_state
    · rw [specOf_request hfull]
      exact ⟨hactive.1,by rw [if_pos rfl]; rfl⟩
  · intro x hx hin hnot
    dsimp only
    rw [hslot]
    obtain hold | ⟨rfl,hnew⟩ := hmem x hx
    · have hready := h.ready x hold hin hnot
      split
      · next hid =>
        apply hready.taken
        intro hearly
        rw [hid]
        exact hok.2 x hold hid hearly
      · exact hready
    · have hid : (c.specOf state).request.id = state.rid := by rw [specOf_request hfull]
      rw [if_pos hid]
      exact readyAt_new hfull (hok.1 hnew)

end Submit

section Plan

variable {order : List RequestId} {p : ExecutionPlan} {s₁ : Scheduler} {op : PlanOp} {fuel : Nat}
  {Ends : K.Row → K.Row → Prop}

theorem Service.ending_idle (h : t.inflight = none) : t.ending = [] := by
  rw [Service.ending,h]
  rfl

/-- What a plan leaves of the requests that are served. -/
theorem Readies.planned (h : Readies c K.speculates t) (idle : t.inflight = none)
    (plan : Calls t.adapter.scheduler (.plan order) (.plan p) s₁) :
    (∀ x ∈ s₁.requests, x.state.inService = true → ∃ y ∈ t.adapter.scheduler.requests,
      Passes p.forward y x ∧ ReadyAt K.speculates y (t.served y.id)) ∧
    ∀ op ∈ p.forward, ∃ r, RowOf t.adapter.scheduler op r := by
  have hoff : t.adapter.scheduler.config.disablePrefixCache = true := by
    rw [h.config]
    rfl
  have hready : ∀ y ∈ t.adapter.scheduler.requests, y.state.inService = true →
      ReadyAt K.speculates y (t.served y.id) := by
    intro y hy hin
    apply h.ready y hy hin
    rw [Service.ending_idle idle]
    exact List.not_mem_nil
  have hprompted : ∀ y ∈ t.adapter.scheduler.requests, y.state.inService = true → y.Prompted :=
    fun y hy hin => (hready y hy hin).prompted
  constructor
  · intro x hx hin
    obtain ⟨y,hy,hpasses⟩ := plan.passes h.sound h.copying hoff hprompted hx hin
    exact ⟨y,hy,hpasses,hready y hy hpasses.inService⟩
  · exact plan.rowsOf h.sound h.copying hoff hprompted

/-- The slots in which decode rows of a plan find their requests are seeded. -/
theorem Readies.decode_seeded (h : Readies c K.speculates t) (idle : t.inflight = none)
    (plan : Calls t.adapter.scheduler (.plan order) (.plan p) s₁) {op : ForwardOperation}
    (hop : op ∈ p.forward) (hdecode : op.isPrefill = false) :
    (t.served op.requestId).Seeded K.speculates := by
  obtain ⟨r,hr⟩ := (h.planned idle plan).2 op hop
  obtain ⟨hprefill,_⟩ | ⟨_,hlate⟩ := hr.kind
  · rw [hdecode] at hprefill
    cases hprefill
  · rw [hr.own]
    have hready := h.ready r hr.found hr.inService (by
      rw [Service.ending_idle idle]
      exact List.not_mem_nil)
    apply hready.late
    cases hst : r.state with
    | prefillDone | decoding | retracted => rfl
    | _ =>
      rw [hst] at hlate
      cases hlate

theorem ReadyAt.passes {speculates : Bool} {rows : List ForwardOperation}
    (h : ReadyAt speculates y s) (hpasses : Passes rows y x)
    (hseeded : s.Seeded speculates → s'.Seeded speculates)
    (hinputs : s'.state.map RequestState.inputIds = s.state.map RequestState.inputIds)
    (hrow : ∀ op ∈ rows, op.Completes x → s'.Seeded speculates) : ReadyAt speculates x s' := by
  refine ⟨hpasses.prompted h.prompted,fun hlate => ?_,?_⟩
  · obtain hlate | ⟨op,hop,hcompletes⟩ := hpasses.late hlate
    · exact hseeded (h.late hlate)
    · exact hrow op hop hcompletes
  · obtain hs | hfits := h.fits
    · exact .inl (hseeded hs)
    · refine .inr fun state hstate => ?_
      rw [hstate] at hinputs
      obtain ⟨state₀,hstate₀,heq⟩ := Option.map_eq_some_iff.mp hinputs.symm
      rw [← heq,← hpasses.prefillSize]
      exact hfits state₀ hstate₀

theorem PlanOp.OfPlan.mem_prefills (h : op.OfPlan p) {row : ForwardOperation}
    (hrow : row ∈ p.forward) (hprefill : row.isPrefill = true) :
    (⟨row.requestId,row.extendPrefixLen.toNat,row.inputIds⟩ : PrefillRow) ∈ op.prefills := by
  rw [h.prefills]
  exact List.mem_map.mpr ⟨row,List.mem_filter.mpr ⟨hrow,hprefill⟩,rfl⟩

theorem PlanOp.OfPlan.mem_decodes (h : op.OfPlan p) : rid ∈ op.decodes ↔
    ∃ row ∈ p.forward, row.isPrefill = false ∧ row.requestId = rid := by
  rw [h.decodes,ExecutionPlan.decodeIds,List.mem_map]
  constructor
  · rintro ⟨row,hrow,rfl⟩
    obtain ⟨hmem,hdecode⟩ := List.mem_filter.mp hrow
    exact ⟨row,hmem,by simpa using hdecode,rfl⟩
  · rintro ⟨row,hmem,hdecode,rfl⟩
    exact ⟨row,List.mem_filter.mpr ⟨hmem,by simpa using hdecode⟩,rfl⟩

theorem PlanOp.OfPlan.mem_requestIds (h : op.OfPlan p) : rid ∈ op.requestIds ↔
    ∃ row ∈ p.forward, row.requestId = rid := by
  rw [PlanOp.requestIds,List.mem_append,h.mem_decodes,h.prefills,ExecutionPlan.prefillRows,
    List.map_map,List.mem_map]
  constructor
  · rintro (⟨row,hrow,rfl⟩ | ⟨row,hmem,_,rfl⟩)
    · exact ⟨row,(List.mem_filter.mp hrow).1,rfl⟩
    · exact ⟨row,hmem,rfl⟩
  · rintro ⟨row,hmem,rfl⟩
    cases hkind : row.isPrefill with
    | true => exact .inl ⟨row,List.mem_filter.mpr ⟨hmem,hkind⟩,rfl⟩
    | false => exact .inr ⟨row,hmem,hkind,rfl⟩

/-- No plan brings a request to its decode without its seed. -/
theorem Readies.executePlan_noSeed (h : Readies c K.speculates t) (hk : Seeding K)
    (idle : t.inflight = none) (plan : Calls t.adapter.scheduler (.plan order) (.plan p) s₁)
    (ofPlan : op.OfPlan p) : K.executePlan R fuel op t.served ≠ some (.error (.noSeed rid)) := by
  apply FluxServe.Engine.executePlan_noSeed hk
  intro rid hrid state _ _
  obtain ⟨row,hmem,hdecode,rfl⟩ := ofPlan.mem_decodes.mp hrid
  exact h.decode_seeded idle plan hmem hdecode

section Executed

theorem sameState_of_state (h : s'.state = s.state) : SameState s s' := by
  rw [SameState,h]
  exact ⟨rfl,rfl⟩

theorem prefilled_sameState (R : NemotronRunner M) (p : PrefillRow) (speculates : Bool)
    (s : Slot M) : SameState s ((R.prefillSlot p s).prefilled speculates) := by
  have hslot := prefillSlot_state R p s
  cases hstate : s.state with
  | none =>
    rw [hstate] at hslot
    apply sameState_of_state
    rw [Slot.prefilled,hslot,hstate]
    exact hslot
  | some state =>
    rw [hstate] at hslot
    rw [prefilled_eq speculates hslot,SameState,hstate]
    exact ⟨rfl,rfl⟩

/-- An execution changes no prompt and finishes no state. -/
theorem Executed.sameState (hk : Rowwise K Ends) (h : Executed R K Ends op w w' results)
    (rid : RequestId) : SameState (w rid) (w' rid) := by
  by_cases hprefill : ∃ p ∈ op.prefills, p.rid = rid
  · obtain ⟨p,hp,rfl⟩ := hprefill
    rw [(h.prefills p hp).1]
    exact prefilled_sameState R p K.speculates _
  by_cases hdecode : rid ∈ op.decodes
  · by_cases hlive : ∃ state, (w rid).state = some state ∧ state.finished = false
    · obtain ⟨state,hstate,hfin⟩ := hlive
      obtain ⟨r,s',⟨_,row,_,_,rfl,_⟩,_,hw⟩ := h.decodes rid hdecode state hstate hfin
      apply sameState_of_state
      rw [hw]
      split
      · exact hk.settle_state row (w rid)
      · exact hk.settle_state row (w rid)
    · apply sameState_of_state
      rw [(h.idle rid hdecode ?_).1]
      intro state hstate
      cases hfin : state.finished with
      | true => rfl
      | false => exact absurd ⟨state,hstate,hfin⟩ hlive
  · apply sameState_of_state
    rw [(h.others rid ?_).1]
    intro hmem
    obtain hmem | hmem := List.mem_append.mp hmem
    · exact hprefill (List.mem_map.mp hmem)
    · exact hdecode hmem

theorem SameState.isSome (h : SameState s s') : s'.state.isSome = s.state.isSome := by
  have hmap := congrArg Option.isSome h.1
  rwa [Option.isSome_map,Option.isSome_map] at hmap

theorem SameState.running (h : SameState s s')
    (hs : ∀ state, s.state = some state → state.finished = false)
    (hstate : s'.state = some state) : state.finished = false := by
  have hmap := h.2
  rw [hstate] at hmap
  obtain ⟨state₀,hstate₀,heq⟩ := Option.map_eq_some_iff.mp hmap.symm
  rw [← heq]
  exact hs state₀ hstate₀

/-- An execution readies the requests for what comes after its plan. -/
theorem Executed.ready (hk : Rowwise K Ends) (hseeding : Seeding K)
    (h : Executed R K Ends op w w' results) (ofPlan : op.OfPlan p)
    (hready : ReadyAt K.speculates y (w y.id)) (hpasses : Passes p.forward y x)
    (hheld : ∃ state, (w x.id).state = some state ∧ state.finished = false)
    (hending : x.id ∉ (results.filter StepResult.finished).map StepResult.rid) :
    ReadyAt K.speculates x (w' x.id) := by
  rw [hpasses.id] at hready
  have hsame := (h.sameState hk x.id).1
  have hrows (hno : x.id ∉ op.prefills.map PrefillRow.rid) :
      ∀ op ∈ p.forward, ¬op.Completes x := by
    intro row hrow hcompletes
    apply hno
    rw [← hcompletes.own]
    exact List.mem_map.mpr ⟨_,ofPlan.mem_prefills hrow hcompletes.isPrefill,rfl⟩
  by_cases hprefill : x.id ∈ op.prefills.map PrefillRow.rid
  · obtain ⟨q,hq,hqid⟩ := List.mem_map.mp hprefill
    have hslot := (h.prefills q hq).1
    rw [hqid] at hslot
    apply hready.passes hpasses ?_ hsame
    · intro row hrow hcompletes
      have hmem := ofPlan.mem_prefills hrow hcompletes.isPrefill
      have heq : (⟨row.requestId,row.extendPrefixLen.toNat,row.inputIds⟩ : PrefillRow) = q := by
        apply List.inj_on_of_nodup_map (List.nodup_append.mp op.distinct).1 hmem hq
        rw [hqid]
        exact hcompletes.own
      rw [hslot]
      obtain hseeded | hfits := hready.fits
      · exact prefilled_seeded (prefillSlot_seeded hseeded)
      · obtain ⟨state,hstate,_⟩ := hheld
        apply prefill_seeded hstate
        have hle := hfits state hstate
        have hreaches := hcompletes.reaches
        rw [hpasses.prefillSize] at hle
        rw [← heq]
        dsimp only
        omega
    · intro hseeded
      rw [hslot]
      exact prefilled_seeded (prefillSlot_seeded hseeded)
  by_cases hdecode : x.id ∈ op.decodes
  · obtain ⟨state,hstate,hfin⟩ := hheld
    obtain ⟨r,s',⟨_,row,_,_,hs',_⟩,hof,hw⟩ := h.decodes x.id hdecode state hstate hfin
    have hgoes : r.finished = false := by
      cases hr : r.finished with
      | false => rfl
      | true =>
        have hmem : r ∈ results ∧ r.rid = x.id := by
          have hone : r ∈ resultsOf x.id results := by
            rw [hof]
            exact List.mem_singleton_self r
          simpa [resultsOf] using hone
        exact absurd (List.mem_map.mpr ⟨r,List.mem_filter.mpr ⟨hmem.1,hr⟩,hmem.2⟩) hending
    have hseeded : (w' x.id).Seeded K.speculates := by
      rw [hw,hgoes,if_neg Bool.false_ne_true,hs']
      exact hseeding.settle row _
    exact hready.passes hpasses (fun _ => hseeded) hsame fun _ _ _ => hseeded
  · have hw : w' x.id = w x.id := by
      apply (h.others x.id ?_).1
      intro hmem
      obtain hmem | hmem := List.mem_append.mp hmem
      · exact hprefill hmem
      · exact hdecode hmem
    apply hready.passes hpasses ?_ hsame
    · exact fun row hrow hcompletes => absurd hcompletes (hrows hprefill row hrow)
    · rw [hw]
      exact fun hseeded => hseeded

end Executed

section PlanSteps

/-- A plan and what is done with it. -/
theorem Readies.plan_step (h : Readies c K.speculates t) (idle : t.inflight = none)
    (plan : Calls t.adapter.scheduler (.plan order) (.plan p) s₁) {inflight : Option Inflight}
    (hsame : ∀ rid, SameState (t.served rid) (w' rid))
    (hready : ∀ x y, Passes p.forward y x → ReadyAt K.speculates y (t.served y.id) →
      (∃ state, (t.served x.id).state = some state ∧ state.finished = false) →
      x.id ∉ (inflight.map Inflight.ending).getD [] → ReadyAt K.speculates x (w' x.id))
    (hdistinct : ∀ f results, inflight = some f → f.results = some results →
      (results.map StepResult.rid).Nodup) :
    Readies c K.speculates
      { adapter := { t.adapter with scheduler := s₁ }, served := w', inflight } := by
  obtain ⟨hsound,hcopying,hconfig⟩ := plan.keeps h.sound h.copying
  obtain ⟨hpasses,_⟩ := h.planned idle plan
  refine ⟨hsound,hcopying,hconfig.trans h.config,?_,?_,?_,hdistinct⟩
  · intro rid state hstate
    exact (hsame rid).running (h.running rid) hstate
  · intro x hx hin
    obtain ⟨y,hy,hyx,_⟩ := hpasses x hx hin
    obtain ⟨hactive,hsome⟩ := h.held y hy hyx.inService
    rw [hyx.id] at hactive hsome
    exact ⟨hactive,by rw [(hsame x.id).isSome]; exact hsome⟩
  · intro x hx hin hnot
    obtain ⟨y,hy,hyx,hready'⟩ := hpasses x hx hin
    apply hready x y hyx hready' ?_ hnot
    obtain ⟨state,hstate⟩ := Option.isSome_iff_exists.mp (h.held y hy hyx.inService).2
    rw [hyx.id] at hstate
    exact ⟨state,hstate,h.running x.id state hstate⟩

theorem Readies.rests (h : Readies c K.speculates t) (idle : t.inflight = none)
    (plan : Calls t.adapter.scheduler (.plan order) (.plan p) s₁)
    (nothing : ∀ op ∈ p.forward, (t.served op.requestId).state = none) :
    Readies c K.speculates { t with adapter := { t.adapter with scheduler := s₁ } } := by
  have hnone : p.forward = [] := by
    apply List.eq_nil_iff_forall_not_mem.mpr
    intro op hop
    obtain ⟨r,hr⟩ := (h.planned idle plan).2 op hop
    have hsome := (h.held r hr.found hr.inService).2
    rw [← hr.own,nothing op hop] at hsome
    cases hsome
  apply h.plan_step idle plan
  · exact fun rid => sameState_of_state rfl
  · intro x y hpasses hready _ _
    rw [hpasses.id] at hready
    apply hready.passes hpasses (fun hs => hs) rfl
    rw [hnone]
    intro op hop
    cases hop
  · exact h.distinct

theorem Readies.executes (h : Readies c K.speculates t) (hk : Rowwise K Ends)
    (hseeding : Seeding K) (idle : t.inflight = none)
    (plan : Calls t.adapter.scheduler (.plan order) (.plan p) s₁) (ofPlan : op.OfPlan p)
    (run : K.executePlan R fuel op t.served = some (.ok (results,w'))) :
    Readies c K.speculates
      { adapter := { t.adapter with scheduler := s₁ }
        served := w'
        inflight := some ⟨op.known t.served,some results⟩ } := by
  have hdone := executePlan_ok hk run
  apply h.plan_step idle plan
  · exact fun rid => hdone.sameState hk rid
  · intro x y hpasses hready hheld hending
    exact hdone.ready hk hseeding ofPlan hready hpasses hheld hending
  · intro f results' hf hresults
    injection hf with hf
    subst hf
    injection hresults with hresults
    rw [← hresults]
    exact hdone.distinct

theorem Readies.raises (h : Readies c K.speculates t) (idle : t.inflight = none)
    (plan : Calls t.adapter.scheduler (.plan order) (.plan p) s₁) (ofPlan : op.OfPlan p)
    (kept : ∀ rid, SameState (t.served rid) (w' rid))
    (others : ∀ rid, rid ∉ op.requestIds → w' rid = t.served rid) :
    Readies c K.speculates
      { adapter := { t.adapter with scheduler := s₁ }
        served := w'
        inflight := some ⟨op.known t.served,none⟩ } := by
  apply h.plan_step idle plan kept
  · intro x y hpasses hready ⟨state,hstate,_⟩ hending
    have hnot : x.id ∉ op.requestIds := by
      intro hmem
      apply hending
      apply List.mem_filter.mpr ⟨hmem,?_⟩
      rw [hstate]
      rfl
    rw [hpasses.id] at hready
    rw [others x.id hnot]
    apply hready.passes hpasses (fun hs => hs) rfl
    intro row hrow hcompletes
    exact absurd (ofPlan.mem_requestIds.mpr ⟨row,hrow,hcompletes.own⟩) hnot
  · intro f results hf hresults
    injection hf with hf
    subst hf
    cases hresults

end PlanSteps

end Plan

section Endings

/-- What a call of the adapter leaves of the requests that are served. -/
structure Leaves (a : Adapter) (ended : List RequestId) (a' : Adapter) : Prop where
  sound : Sound a'.scheduler
  copying : Copying a'.scheduler
  config : a'.scheduler.config = a.scheduler.config
  kept : ∀ x ∈ a'.scheduler.requests, x.state.inService = true →
    ∃ y ∈ a.scheduler.requests, y.Kept x
  active : ∀ x ∈ a'.scheduler.requests, x.state.inService = true → x.id ∈ a.active →
    x.id ∉ ended ∧ x.id ∈ a'.active

theorem Leaves.refl (hs : Sound a.scheduler) (hc : Copying a.scheduler) : Leaves a [] a :=
  ⟨hs,hc,rfl,fun x hx hin => ⟨x,hx,.refl hin⟩,fun _ _ _ hactive => ⟨List.not_mem_nil,hactive⟩⟩

theorem Adapter.Aborts.leaves (h : a.Aborts rid .done a') (hs : Sound a.scheduler)
    (hc : Copying a.scheduler) : Leaves a [rid] a' := by
  cases h with
  | inactive gone =>
    refine ⟨hs,hc,rfl,fun x hx hin => ⟨x,hx,.refl hin⟩,fun x _ _ hactive => ⟨?_,hactive⟩⟩
    intro hmem
    rw [List.mem_singleton.mp hmem] at hactive
    exact gone hactive
  | @returns s₁ held calls =>
    obtain ⟨hsound,hcopying,hconfig⟩ := calls.keeps hs hc
    have hgone : Dismissed rid s₁ := calls.dismisses hs (.inr (List.mem_singleton_self _))
    have hne : ∀ x ∈ s₁.requests, x.state.inService = true → x.id ≠ rid := by
      intro x hx hin hid
      rw [hgone x hx hid] at hin
      cases hin
    refine ⟨hsound,hcopying,hconfig,fun x hx hin => ?_,fun x hx hin hactive => ⟨?_,?_⟩⟩
    · exact calls.kept hs hx hin (by simp)
    · simpa using hne x hx hin
    · exact List.mem_filter.mpr ⟨hactive,by simpa using hne x hx hin⟩

theorem Leaves.trans {a₁ : Adapter} {ended : List RequestId} (h : Leaves a [rid] a₁)
    (h' : Leaves a₁ ended a') : Leaves a (rid :: ended) a' where
  sound := h'.sound
  copying := h'.copying
  config := h'.config.trans h.config
  kept := by
    intro x hx hin
    obtain ⟨y,hy,hyx⟩ := h'.kept x hx hin
    obtain ⟨z,hz,hzy⟩ := h.kept y hy hyx.inService
    exact ⟨z,hz,hzy.trans hyx⟩
  active := by
    intro x hx hin hactive
    obtain ⟨y,hy,hyx⟩ := h'.kept x hx hin
    rw [← hyx.id] at hactive
    obtain ⟨hne,hactive₁⟩ := h.active y hy hyx.inService hactive
    rw [hyx.id] at hne hactive₁
    obtain ⟨hnot,hactive'⟩ := h'.active x hx hin hactive₁
    refine ⟨fun hmem => ?_,hactive'⟩
    obtain hmem | hmem := List.mem_cons.mp hmem
    · exact hne (List.mem_singleton.mpr hmem)
    · exact hnot hmem

theorem Adapter.AbortsAll.leaves (h : a.AbortsAll rids a') (hs : Sound a.scheduler)
    (hc : Copying a.scheduler) : Leaves a rids a' := by
  induction h with
  | nil => exact .refl hs hc
  | cons abort _ ih =>
    have hone := abort.leaves hs hc
    exact hone.trans (ih hone.sound hone.copying)

theorem Adapter.Advances.leaves {events : List Event} {finished : List RequestId}
    (h : a.Advances events finished .done a') (hs : Sound a.scheduler) (hc : Copying a.scheduler)
    (hfinished : ∀ rid, rid ∈ finished ↔ .finish rid ∈ events) : Leaves a finished a' := by
  cases h with
  | nothing none =>
    subst none
    have hnil : finished = [] := by
      apply List.eq_nil_iff_forall_not_mem.mpr
      intro rid hrid
      simpa using (hfinished rid).mp hrid
    rw [hnil]
    exact .refl hs hc
  | @call _ s₁ some calls =>
    obtain ⟨hsound,hcopying,hconfig⟩ := calls.keeps hs hc
    have hnot : ∀ x ∈ s₁.requests, x.state.inService = true → x.id ∉ finished := by
      intro x hx hin hmem
      have hgone := calls.dismisses hs (.inl ((hfinished x.id).mp hmem))
      rw [hgone x hx rfl] at hin
      cases hin
    refine ⟨hsound,hcopying,hconfig,fun x hx hin => ?_,fun x hx hin hactive => ⟨hnot x hx hin,?_⟩⟩
    · apply calls.kept hs hx hin
      intro hmem
      exact hnot x hx hin ((hfinished x.id).mpr hmem)
    · exact List.mem_filter.mpr ⟨hactive,by simpa using hnot x hx hin⟩

/-- What ends requests, with the slots after it. -/
theorem Readies.leave (h : Readies c K.speculates t) {ended : List RequestId}
    (hleaves : Leaves t.adapter ended a')
    (hrunning : ∀ rid state, (w' rid).state = some state → state.finished = false)
    (hslot : ∀ x ∈ a'.scheduler.requests, x.state.inService = true → x.id ∉ ended →
      (t.served x.id).state.isSome = true →
      x.id ∉ t.ending ∧ (t.served x.id).Agrees (w' x.id)) :
    Readies c K.speculates { adapter := a', served := w', inflight := none } := by
  have hkept : ∀ x ∈ a'.scheduler.requests, x.state.inService = true →
      x.id ∈ a'.active ∧ (t.served x.id).Agrees (w' x.id) ∧
        (t.served x.id).state.isSome = true ∧ ReadyAt K.speculates x (t.served x.id) := by
    intro x hx hin
    obtain ⟨y,hy,hyx⟩ := hleaves.kept x hx hin
    obtain ⟨hactive,hsome⟩ := h.held y hy hyx.inService
    have hready := h.ready y hy hyx.inService
    rw [hyx.id] at hactive hsome hready
    obtain ⟨hnot,hactive'⟩ := hleaves.active x hx hin hactive
    obtain ⟨hending,hagrees⟩ := hslot x hx hin hnot hsome
    exact ⟨hactive',hagrees,hsome,(hready hending).kept hyx⟩
  refine ⟨hleaves.sound,hleaves.copying,hleaves.config.trans h.config,hrunning,?_,?_,?_⟩
  · intro x hx hin
    obtain ⟨hactive,hagrees,hsome,_⟩ := hkept x hx hin
    refine ⟨hactive,?_⟩
    have hmap := congrArg Option.isSome hagrees.inputs
    rw [Option.isSome_map,Option.isSome_map] at hmap
    exact hmap.trans hsome
  · intro x hx hin _
    obtain ⟨_,hagrees,_,hready⟩ := hkept x hx hin
    exact hready.agrees hagrees
  · intro f results hf
    cases hf

theorem mem_liveIds : rid ∈ (liveRows w rids).map Prod.fst ↔
    rid ∈ rids ∧ ∃ state, (w rid).state = some state ∧ state.finished = false := by
  rw [List.mem_map]
  constructor
  · rintro ⟨⟨rid,state⟩,hmem,rfl⟩
    obtain ⟨hrid,hstate⟩ := mem_liveRows.mp hmem
    exact ⟨hrid,state,hstate⟩
  · rintro ⟨hrid,state,hstate⟩
    exact ⟨(rid,state),mem_liveRows.mpr ⟨hrid,hstate⟩,rfl⟩

theorem failStates_eq (w : Served M) (rids : List RequestId) (rid : RequestId) :
    failStates w rids rid =
      if rid ∈ (liveRows w rids).map Prod.fst then (w rid).fail else w rid := by
  have hkeys : (liveRows w rids).map (fun x => (x.1,(w x.1).fail)) =
      ((liveRows w rids).map Prod.fst).map fun k => (k,(w k).fail) := by
    rw [List.map_map]
    rfl
  rw [failStates,hkeys,patch_map]
  split <;> rfl

theorem Slot.Agrees.refl (s : Slot M) : s.Agrees s := ⟨rfl,rfl,rfl⟩

/-- The requests of an operation that raised are over. -/
theorem Readies.fails (h : Readies c K.speculates t) {known : List RequestId}
    (hinflight : t.inflight = some ⟨known,none⟩)
    (aborts : t.adapter.AbortsAll ((liveRows t.served known).map Prod.fst) a') :
    Readies c K.speculates
      { adapter := a', served := failStates t.served known, inflight := none } := by
  have hending : t.ending = known := by
    rw [Service.ending,hinflight]
    rfl
  apply h.leave (aborts.leaves h.sound h.copying)
  · intro rid state hstate
    rw [failStates_eq] at hstate
    split at hstate
    · next hmem =>
      obtain ⟨_,state₀,hstate₀,hfin⟩ := mem_liveIds.mp hmem
      rw [fail_running hstate₀ hfin] at hstate
      cases hstate
    · exact h.running rid state hstate
  · intro x hx hin hnot hsome
    constructor
    · rw [hending]
      intro hmem
      obtain ⟨state,hstate⟩ := Option.isSome_iff_exists.mp hsome
      exact hnot (mem_liveIds.mpr ⟨hmem,state,hstate,h.running x.id state hstate⟩)
    · rw [failStates_eq,if_neg hnot]
      exact .refl _

/-- Cache operations fail everything. -/
theorem Readies.failAll (h : Readies c K.speculates t) (idle : t.inflight = none)
    {order : List RequestId} {p : ExecutionPlan} {s₁ : Scheduler}
    (plan : Calls t.adapter.scheduler (.plan order) (.plan p) s₁)
    (all : ∀ rid, rid ∈ rids ↔ (t.served rid).state.isSome)
    (aborts : ({ t.adapter with scheduler := s₁ } : Adapter).AbortsAll
      ((liveRows t.served rids).map Prod.fst) a') :
    Readies c K.speculates
      { adapter := a', served := failStates t.served rids, inflight := none } := by
  have hplanned : Readies c K.speculates
      { adapter := { t.adapter with scheduler := s₁ }, served := t.served,
        inflight := some ⟨rids,none⟩ } := by
    apply h.plan_step idle plan
    · exact fun rid => sameState_of_state rfl
    · intro x y _ _ ⟨state,hstate,_⟩ hending
      apply absurd ((all x.id).mpr _) hending
      rw [hstate]
      rfl
    · intro f results hf hresults
      injection hf with hf
      subst hf
      cases hresults
  exact hplanned.fails rfl aborts

theorem mem_finishedIds : rid ∈ finishedIds w results ↔ .finish rid ∈ eventsOf w results := by
  simp [finishedIds,eventsOf]

theorem settleResults_eq (hnd : (results.map StepResult.rid).Nodup) (rid : RequestId) :
    (∀ r ∈ results, r.rid = rid → settleResults w results rid = (w rid).settleResult r) ∧
    (rid ∉ results.map StepResult.rid → settleResults w results rid = w rid) := by
  have hkeys : (results.map fun r => (r.rid,(w r.rid).settleResult r)).map Prod.fst =
      results.map StepResult.rid := by
    rw [List.map_map]
    rfl
  constructor
  · rintro r hr rfl
    apply patch_of_mem
    · rw [hkeys]
      exact hnd
    · exact List.mem_map.mpr ⟨r,hr,rfl⟩
  · intro hnot
    apply patch_of_notMem
    rw [hkeys]
    exact hnot

theorem settleResult_state (r : StepResult) (s : Slot M) :
    (s.settleResult r).state = (s.deliver r).state := by
  unfold Slot.settleResult
  split <;> rfl

/-- Results that are taken over end their requests or leave them as ready as they are. -/
theorem Readies.settles (h : Readies c K.speculates t) {known : List RequestId}
    (hinflight : t.inflight = some ⟨known,some results⟩)
    (advances : t.adapter.Advances (eventsOf t.served results) (finishedIds t.served results)
      .done a') :
    Readies c K.speculates
      { adapter := a', served := settleResults t.served results, inflight := none } := by
  have hending : t.ending = (results.filter StepResult.finished).map StepResult.rid := by
    rw [Service.ending,hinflight]
    rfl
  have hnd := h.distinct _ _ hinflight rfl
  apply h.leave (advances.leaves h.sound h.copying fun _ => mem_finishedIds)
  · intro rid state hstate
    by_cases hmem : rid ∈ results.map StepResult.rid
    · obtain ⟨r,hr,rfl⟩ := List.mem_map.mp hmem
      rw [(settleResults_eq hnd r.rid).1 r hr rfl,settleResult_state] at hstate
      exact deliver_unfinished (h.running r.rid) hstate
    · rw [(settleResults_eq hnd rid).2 hmem] at hstate
      exact h.running rid state hstate
  · intro x hx hin hnot hsome
    obtain ⟨state,hstate⟩ := Option.isSome_iff_exists.mp hsome
    have hfin := h.running x.id state hstate
    have hgoes : ∀ r ∈ results, r.rid = x.id → r.finished = false := by
      intro r hr hrid
      cases hr_fin : r.finished with
      | false => rfl
      | true =>
        have hlive : r ∈ liveResults t.served results := by
          apply List.mem_filter.mpr ⟨hr,?_⟩
          rw [hrid,hstate]
          simpa using hfin
        exact absurd (List.mem_map.mpr ⟨r,List.mem_filter.mpr ⟨hlive,hr_fin⟩,hrid⟩) hnot
    constructor
    · rw [hending]
      intro hmem
      obtain ⟨r,hr,hrid⟩ := List.mem_map.mp hmem
      obtain ⟨hr,hr_fin⟩ := List.mem_filter.mp hr
      rw [hgoes r hr hrid] at hr_fin
      cases hr_fin
    · by_cases hmem : x.id ∈ results.map StepResult.rid
      · obtain ⟨r,hr,hrid⟩ := List.mem_map.mp hmem
        have hr_fin := hgoes r hr hrid
        have hsettle : settleResults t.served results x.id = (t.served x.id).deliver r := by
          rw [(settleResults_eq hnd x.id).1 r hr hrid,Slot.settleResult,hr_fin]
          rfl
        rw [hsettle,deliver_running hstate hfin hr_fin]
        refine ⟨rfl,rfl,?_⟩
        rw [hstate]
        dsimp only [Option.map_some]
        split <;> rfl
      · rw [(settleResults_eq hnd x.id).2 hmem]
        exact .refl _

end Endings

section Run

variable {clock : Nat → Timestamp} {Ends : K.Row → K.Row → Prop} {submitted : Option RequestState}

theorem readies_start (c : AdapterConfig) (speculates : Bool) (clock : Nat → Timestamp) :
    Readies c speculates ({ adapter := Adapter.new c clock } : Service M) where
  sound := sound_new c.scheduler clock
  copying := copying_new c.scheduler clock
  config := rfl
  running _ _ hstate := by cases hstate
  held _ hx := by cases hx
  ready _ hx := by cases hx
  distinct _ _ hf := by cases hf

/-- One step of the service. -/
theorem Readies.step (h : Readies c K.speculates t) (hfull : c.fullPromptPrefill = true)
    (hk : Rowwise K Ends) (hseeding : Seeding K)
    (hstep : ServiceStep c args encode K R t submitted t')
    (hok : ∀ state, submitted = some state → Seedable K.speculates t state) :
    Readies c K.speculates t' := by
  cases hstep with
  | submit accepted takes =>
    exact h.submit hfull (makeState_running accepted) (hok _ rfl) takes
  | rests idle _ plan _ nothing => exact h.rests idle plan nothing
  | failAll idle _ plan _ all aborts =>
    simp only [idle]
    exact h.failAll idle plan all aborts
  | executes idle _ plan _ ofPlan _ run => exact h.executes hk hseeding idle plan ofPlan run
  | raises idle _ plan _ ofPlan _ kept others => exact h.raises idle plan ofPlan kept others
  | settles inflight advances => exact h.settles inflight advances
  | fails inflight aborts => exact h.fails inflight aborts

theorem ServiceRuns.readies (h : ServiceRuns c args encode K R (Seedable K.speculates) clock t)
    (hfull : c.fullPromptPrefill = true) (hk : Rowwise K Ends) (hseeding : Seeding K) :
    Readies c K.speculates t := by
  induction h with
  | start => exact readies_start c K.speculates clock
  | step _ step meets ih => exact ih.step hfull hk hseeding step meets

/-- In runs whose submissions have a prompt, and are not longer than a prompt under their id that is
still to be prefilled, a plan brings only requests to their decode that have their seed. -/
theorem decode_ready (hfull : c.fullPromptPrefill = true)
    (hK : K = R.speculation ∨ K = R.blockDiffusion)
    (h : ServiceRuns c args encode K R (Seedable K.speculates) clock t) (idle : t.inflight = none)
    {order : List RequestId} {p : ExecutionPlan} {s₁ : Scheduler}
    (plan : Calls t.adapter.scheduler (.plan order) (.plan p) s₁) :
    (∀ op ∈ p.forward, op.isPrefill = false → (t.served op.requestId).Seeded K.speculates) ∧
    ∀ op : PlanOp, op.OfPlan p → ∀ fuel rid,
      K.executePlan R fuel op t.served ≠ some (.error (.noSeed rid)) := by
  have hready : Readies c K.speculates t ∧ Seeding K := by
    obtain rfl | rfl := hK
    · exact ⟨h.readies hfull (R.speculation_rowwise) (speculation_seeding R),speculation_seeding R⟩
    · exact ⟨h.readies hfull (R.blockDiffusion_rowwise) (blockDiffusion_seeding R),
        blockDiffusion_seeding R⟩
  constructor
  · exact fun op hop hdecode => hready.1.decode_seeded idle plan hop hdecode
  · exact fun op ofPlan fuel rid => hready.1.executePlan_noSeed hready.2 idle plan ofPlan

/-- Pages and blocks of four. -/
def smallAdapter : AdapterConfig where
  maxBatchSize := 8
  maxScheduledTokens := 8
  pageSize := 4
  pageSize_pos := four_pos
  numDevicePages := 9
  maxModelLen := 64
  fullPromptPrefill := true

def smallItem (inputIds : List Token) : RequestItem where
  rid := [5]
  inputIds := some inputIds
  samplingParams := some [("max_tokens",.int 2)]

/-- What `make_state` makes of it. -/
def smallState (inputIds : List Token) : RequestState where
  rid := [5]
  inputIds
  maxNewTokens := 2
  samplingParams := [("max_tokens","2")]

def smallSpec (inputIds : List Token) : RequestSpec where
  requestId := [5]
  tokens := inputIds
  prefillLength := inputIds.length

/-- The plan of a prompt of one token. -/
def smallPrefill : ExecutionPlan where
  forward := [.prefill
    { requestId := [5], requestPoolIndex := 1, inputLength := 1, occupiedPages := [8,7],
      start := 0, size := 2, prefillLength := 1 } [5] [-1] 0]

def smallDecode (occupiedPages : List PageId) (start : Nat) (prefillLength : Nat) : ExecutionPlan where
  forward := [.decode
    { requestId := [5], requestPoolIndex := 1, inputLength := 4, occupiedPages, start, size := 1,
      prefillLength } (-1) (-1)]

/-- The service with that one request. -/
def smallService (scheduler : Scheduler) (inputIds : List Token) : Service steppingModel where
  adapter := ⟨scheduler,[[5]]⟩
  served := patch (fun _ => {}) [([5],{ state := some (smallState inputIds) })]

theorem smallService_runs (K : PagedRunner steppingModel) (inputIds : List Token)
    {ok : Service steppingModel → RequestState → Prop} {x : Scheduler}
    (hok : ok { adapter := Adapter.new smallAdapter id } (smallState inputIds))
    (accepted : ServerArgs.makeState {} (fun _ => []) 0 (smallItem inputIds) =
      .ok (smallState inputIds))
    (loop : smallAdapter.takeUp [smallState inputIds] [] = ([[5]],some [smallSpec inputIds]))
    (calls : Calls (Scheduler.new smallAdapter.scheduler id) (.submit [smallSpec inputIds]) .done x) :
    ServiceRuns smallAdapter {} (fun _ => []) K (steppingRunner {}) ok id
      (smallService x inputIds) := by
  apply ServiceRuns.step .start (.submit accepted (.call loop (List.cons_ne_nil _ _) calls))
  intro state hstate
  injection hstate with hstate
  rw [← hstate]
  exact hok

theorem smallService_held (x : Scheduler) (inputIds : List Token) :
    ∃ rid, ((smallService x inputIds).served rid).state.isSome = true := ⟨[5],rfl⟩

/-- A prompt of one token is prefilled, and decodes in the next plan. -/
theorem decode_ready_single : ∃ t p s₁,
    ServiceRuns smallAdapter {} (fun _ => []) (steppingRunner {}).speculation (steppingRunner {})
      (Seedable true) id t ∧
    t.inflight = none ∧ Calls t.adapter.scheduler (.plan [[5]]) (.plan p) s₁ ∧
    p.decodeIds = [[5]] ∧ (t.served [5]).Seeded true := by
  obtain ⟨x,hx,hsubmit,y,hy,hprefill,z,hz,hdecode⟩ :
      ∃ x, replayCall ([],Scheduler.new smallAdapter.scheduler id) (.submit [smallSpec [5]]) =
          some x ∧ x.1 = [(.submit [smallSpec [5]],.done)] ∧
        ∃ y, replayCall x (.plan [[5]]) = some y ∧ y.1 = (.plan [[5]],.plan smallPrefill) :: x.1 ∧
          ∃ z, replayCall y (.plan [[5]]) = some z ∧
            z.1 = (.plan [[5]],.plan (smallDecode [8,7,6] 2 1)) :: y.1 := by
    decide +kernel
  have hok : Seedable true { adapter := Adapter.new smallAdapter id : Service steppingModel }
      (smallState [5]) := ⟨fun _ => List.cons_ne_nil _ _,fun _ h => by cases h⟩
  have hstart := smallService_runs (steppingRunner {}).speculation [5] hok rfl rfl
    (calls_of_replayCall_eq hx hsubmit)
  have hknown : prefillFive.known (smallService x.2 [5]).served ≠ [] := List.cons_ne_nil _ _
  have hrun : (steppingRunner {}).speculation.executePlan (steppingRunner {}) 1 prefillFive
      (smallService x.2 [5]).served = some (.ok _) := rfl
  have hexecuted : ServiceRuns smallAdapter {} (fun _ => []) (steppingRunner {}).speculation
      (steppingRunner {}) (Seedable true) id _ :=
    .step hstart (.executes rfl (smallService_held _ _)
      (calls_of_replayCall_eq hy hprefill) ⟨rfl,rfl⟩ ⟨rfl,rfl⟩ hknown hrun)
      fun _ h => by cases h
  have hsettled : ServiceRuns smallAdapter {} (fun _ => []) (steppingRunner {}).speculation
      (steppingRunner {}) (Seedable true) id _ :=
    .step hexecuted (.settles rfl (.nothing rfl)) fun _ h => by cases h
  have hplan := calls_of_replayCall_eq hz hdecode
  refine ⟨_,_,_,hsettled,rfl,hplan,rfl,?_⟩
  exact (decode_ready rfl (.inl rfl) hsettled rfl hplan).1 _ (List.mem_singleton_self _) rfl

/-- A plan that decodes a request without a seed. -/
def Unready (K : PagedRunner steppingModel) : Prop := ∃ t p s₁,
  ServiceRuns smallAdapter {} (fun _ => []) K (steppingRunner {}) (fun _ _ => True) id t ∧
  t.inflight = none ∧ Calls t.adapter.scheduler (.plan [[5]]) (.plan p) s₁ ∧
  decodeFive.OfPlan p ∧ (t.served [5]).requestSeed = none ∧
  K.executePlan (steppingRunner {}) 1 decodeFive t.served = some (.error (.noSeed [5]))

/-- An empty prompt is accepted, and its request decodes at once. -/
theorem decode_unready :
    Unready (steppingRunner {}).speculation ∧ Unready (steppingRunner {}).blockDiffusion := by
  obtain ⟨x,hx,hsubmit,y,hy,hdecode⟩ :
      ∃ x, replayCall ([],Scheduler.new smallAdapter.scheduler id) (.submit [smallSpec []]) =
          some x ∧ x.1 = [(.submit [smallSpec []],.done)] ∧
        ∃ y, replayCall x (.plan [[5]]) = some y ∧
          y.1 = (.plan [[5]],.plan (smallDecode [8,7] 1 0)) :: x.1 := by
    decide +kernel
  have hruns (K : PagedRunner steppingModel) :
      ServiceRuns smallAdapter {} (fun _ => []) K (steppingRunner {}) (fun _ _ => True) id
        (smallService x.2 []) :=
    smallService_runs K [] trivial rfl rfl (calls_of_replayCall_eq hx hsubmit)
  have hplan := calls_of_replayCall_eq hy hdecode
  exact ⟨⟨_,_,_,hruns _,rfl,hplan,⟨rfl,rfl⟩,rfl,rfl⟩,⟨_,_,_,hruns _,rfl,hplan,⟨rfl,rfl⟩,rfl,rfl⟩⟩

end Run

end FluxServe.Engine
