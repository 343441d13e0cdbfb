import FluxServe.Engine.PagedAdapter
import FluxServe.Scheduler.Submissions

namespace FluxServe.Engine

variable {c : AdapterConfig} {clock : Nat → Timestamp} {a a' : Adapter} {log : List RequestState}
  {requests : List RequestState} {active active' : List RequestId} {rid : RequestId}
  {spec : RequestSpec} {specs : List RequestSpec} {reply : Reply} {s s' : Scheduler}

/-- What `advance_forward` is given. -/
structure ForwardResults where
  tokenResults : List (RequestId × List Token) := []
  finishedIds : List RequestId := []
  reserveTokens : List (RequestId × Int) := []

namespace ForwardResults

variable {x : ForwardResults}

/-- The events of `advance_forward`; results without tokens are left out. -/
def events (x : ForwardResults) : List Event :=
  ((x.tokenResults.filter fun e => e.2 ≠ []).map fun e => .extendResult e.1 e.2) ++
    (x.reserveTokens.map fun e => .updateReserveNumTokens e.1 e.2) ++ x.finishedIds.map .finish

theorem finish_mem_events : .finish rid ∈ x.events ↔ rid ∈ x.finishedIds := by
  simp [events]

theorem abort_notMem_events : .abort rid ∉ x.events := by
  simp [events]

end ForwardResults

/-- The calls of a `PagedSchedulerAdapter`. -/
inductive AdapterCall
  | submit (requests : List RequestState)
  | nextPlan (order : List RequestId)
  | advanceForward (results : ForwardResults)
  | abort (rid : RequestId)

/-- The requests a call submits, the latest first. -/
def AdapterCall.submitted : AdapterCall → List RequestState
  | .submit requests => requests.reverse
  | _ => []

/-- A call that comes back, with a result or with an exception. -/
inductive AdapterStep (c : AdapterConfig) (a : Adapter) : AdapterCall → Adapter → Prop
  | submit {requests : List RequestState} {a' : Adapter} (submits : a.Submits c requests a') :
      AdapterStep c a (.submit requests) a'
  | nextPlan {order : List RequestId} {reply : Reply} {s' : Scheduler}
      (calls : Calls a.scheduler (.plan order) reply s') :
      AdapterStep c a (.nextPlan order) { a with scheduler := s' }
  | advanceForward {results : ForwardResults} {reply : Reply} {a' : Adapter}
      (advances : a.Advances results.events results.finishedIds reply a') :
      AdapterStep c a (.advanceForward results) a'
  | abort {rid : RequestId} {reply : Reply} {a' : Adapter} (aborts : a.Aborts rid reply a') :
      AdapterStep c a (.abort rid) a'

/-- The states of an adapter under calls that meet a condition, with the submissions made, the
latest first. -/
inductive AdapterRun (c : AdapterConfig) (clock : Nat → Timestamp)
    (met : List RequestState → Adapter → AdapterCall → Prop) : List RequestState → Adapter → Prop
  | new : AdapterRun c clock met [] (Adapter.new c clock)
  | call {log : List RequestState} {a a' : Adapter} {x : AdapterCall}
      (run : AdapterRun c clock met log a) (ok : met log a x) (step : AdapterStep c a x a') :
      AdapterRun c clock met (x.submitted ++ log) a'

/-- The latest submission of an id. -/
def latest (log : List RequestState) (rid : RequestId) : Option RequestState :=
  log.find? fun r => r.rid = rid

/-- A native request in service carries the tokens of the latest submission of the id. -/
def Carries (c : AdapterConfig) (log : List RequestState) (s : Scheduler) (rid : RequestId) :
    Prop :=
  ∃ q ∈ latest log rid, ∃ r ∈ s.requests, r.id = rid ∧ r.state.inService = true ∧
    q.inputIds <+: r.tokens ∧ r.prefillSize = c.prefillLength q

/-- What keeps every submission: a prompt fits, its id has neither a native request left over nor
another prompt while it is active, and no plan gives an active request up. -/
def Safe (c : AdapterConfig) (log : List RequestState) (a : Adapter) : AdapterCall → Prop
  | .submit requests =>
      (∀ r ∈ requests, r.rid ∈ a.active → ∀ q ∈ latest log r.rid, q.inputIds = r.inputIds) ∧
      (∀ r ∈ requests, r.rid ∉ a.active → c.prefillLength r ≤ c.maxModelLen ∧
        ∀ x ∈ a.scheduler.requests, x.id ≠ r.rid) ∧
      ∀ r ∈ requests, ∀ r' ∈ requests, r.rid = r'.rid → r.inputIds = r'.inputIds
  | .nextPlan order => ∀ rid ∈ a.active, ∀ reply s', ¬GivesUp rid a.scheduler (.plan order) reply s'
  | _ => True

theorem prefillLength_le (c : AdapterConfig) (r : RequestState) :
    c.prefillLength r ≤ r.inputIds.length := by
  unfold AdapterConfig.prefillLength
  split
  · exact Nat.le_refl _
  · exact Nat.div_mul_le_self _ _

theorem prefillLength_congr {r r' : RequestState} (h : r.inputIds = r'.inputIds) :
    c.prefillLength r = c.prefillLength r' := by
  simp [AdapterConfig.prefillLength,RequestState.alignedPrefillLength,h]

/-- The constructor of a native request never objects to the adapter. -/
theorem specOf_accepted (r : RequestState) : (c.specOf r).Accepted := by
  have hle := prefillLength_le c r
  constructor
  · change -1 ≤ (c.prefillLength r : Int)
    omega
  · change (c.prefillLength r : Int) ≤ (r.inputIds.length : Int)
    omega

theorem specOf_prefillSize (r : RequestState) :
    (c.specOf r).request.prefillSize = c.prefillLength r := by
  have hnonneg : ¬(c.prefillLength r : Int) < 0 := by omega
  simp [RequestSpec.request,AdapterConfig.specOf,hnonneg]

/-- What the loop of `submit` makes of prompts that fit. -/
structure TakenUp (c : AdapterConfig) (requests : List RequestState)
    (active active' : List RequestId) (specs : List RequestSpec) : Prop where
  ids : ∀ rid, rid ∈ active' ↔ rid ∈ active ∨ ∃ r ∈ requests, r.rid = rid
  made : ∀ spec ∈ specs, ∃ r ∈ requests, spec = c.specOf r
  first : ∀ r ∈ requests, r.rid ∉ active → ∃ r₀ ∈ requests, r₀.rid = r.rid ∧
    specs.find? (fun spec => spec.requestId = r.rid) = some (c.specOf r₀)

theorem takeUp_fitting (hfit : ∀ r ∈ requests, r.rid ∉ active → c.prefillLength r ≤ c.maxModelLen) :
    ∃ active' specs, c.takeUp requests active = (active',some specs) ∧
      TakenUp c requests active active' specs := by
  induction requests generalizing active with
  | nil => exact ⟨active,[],rfl,⟨by simp,by simp,by simp⟩⟩
  | cons r requests ih =>
    unfold AdapterConfig.takeUp
    by_cases hactive : r.rid ∈ active
    · rw [if_pos hactive]
      obtain ⟨active',specs,hloop,htaken⟩ := ih fun x hx => hfit x (List.mem_cons_of_mem _ hx)
      refine ⟨active',specs,hloop,?_,?_,?_⟩
      · intro rid
        rw [htaken.ids]
        constructor
        · rintro (hold | ⟨x,hx,hid⟩)
          · exact .inl hold
          · exact .inr ⟨x,List.mem_cons_of_mem _ hx,hid⟩
        · rintro (hold | ⟨x,hx,hid⟩)
          · exact .inl hold
          · obtain rfl | hx := List.mem_cons.mp hx
            · exact .inl (hid ▸ hactive)
            · exact .inr ⟨x,hx,hid⟩
      · intro spec hspec
        obtain ⟨x,hx,heq⟩ := htaken.made spec hspec
        exact ⟨x,List.mem_cons_of_mem _ hx,heq⟩
      · intro x hx hfree
        obtain rfl | hx := List.mem_cons.mp hx
        · exact absurd hactive hfree
        · obtain ⟨x₀,hx₀,hid,hfirst⟩ := htaken.first x hx hfree
          exact ⟨x₀,List.mem_cons_of_mem _ hx₀,hid,hfirst⟩
    · have hle := hfit r List.mem_cons_self hactive
      have hrest : ∀ x ∈ requests, x.rid ∉ r.rid :: active → c.prefillLength x ≤ c.maxModelLen :=
        fun x hx hnot =>
          hfit x (List.mem_cons_of_mem _ hx) fun hmem => hnot (List.mem_cons_of_mem _ hmem)
      obtain ⟨active',specs,hloop,htaken⟩ := ih hrest
      rw [if_neg hactive,if_neg (by omega),hloop]
      refine ⟨active',c.specOf r :: specs,rfl,?_,?_,?_⟩
      · intro rid
        rw [htaken.ids,List.mem_cons]
        constructor
        · rintro ((hid | hold) | ⟨x,hx,hid⟩)
          · exact .inr ⟨r,List.mem_cons_self,hid.symm⟩
          · exact .inl hold
          · exact .inr ⟨x,List.mem_cons_of_mem _ hx,hid⟩
        · rintro (hold | ⟨x,hx,hid⟩)
          · exact .inl (.inr hold)
          · obtain rfl | hx := List.mem_cons.mp hx
            · exact .inl (.inl hid.symm)
            · exact .inr ⟨x,hx,hid⟩
      · intro spec hspec
        obtain rfl | hspec := List.mem_cons.mp hspec
        · exact ⟨r,List.mem_cons_self,rfl⟩
        · obtain ⟨x,hx,heq⟩ := htaken.made spec hspec
          exact ⟨x,List.mem_cons_of_mem _ hx,heq⟩
      · intro x hx hfree
        by_cases hid : r.rid = x.rid
        · refine ⟨r,List.mem_cons_self,hid,?_⟩
          rw [List.find?_cons_of_pos]
          exact decide_eq_true hid
        · obtain rfl | hx := List.mem_cons.mp hx
          · exact absurd rfl hid
          · obtain ⟨x₀,hx₀,hsame,hfirst⟩ := htaken.first x hx fun hmem => by
              obtain heq | hold := List.mem_cons.mp hmem
              · exact hid heq.symm
              · exact hfree hold
            refine ⟨x₀,List.mem_cons_of_mem _ hx₀,hsame,?_⟩
            rw [List.find?_cons_of_neg,hfirst]
            simp [AdapterConfig.specOf,hid]

theorem latest_submitted (requests log : List RequestState) (rid : RequestId) :
    (∃ r ∈ requests, r.rid = rid ∧ latest (requests.reverse ++ log) rid = some r) ∨
      (∀ r ∈ requests, r.rid ≠ rid) ∧ latest (requests.reverse ++ log) rid = latest log rid := by
  unfold latest
  rw [List.find?_append]
  cases hfind : requests.reverse.find? fun r => r.rid = rid with
  | some r =>
    refine .inl ⟨r,?_,?_,rfl⟩
    · exact List.mem_reverse.mp (List.mem_of_find?_eq_some hfind)
    · simpa using List.find?_some hfind
  | none =>
    refine .inr ⟨fun r hr => ?_,rfl⟩
    simpa using List.find?_eq_none.mp hfind r (List.mem_reverse.mpr hr)

theorem Carries.resubmitted (h : Carries c log s rid)
    (hsame : ∀ r ∈ requests, r.rid = rid → ∀ q ∈ latest log rid, q.inputIds = r.inputIds) :
    Carries c (requests.reverse ++ log) s rid := by
  obtain ⟨q,hq,r,hr,hid,hin,htokens,hsize⟩ := h
  obtain ⟨r',hr',hid',hlatest⟩ | ⟨_,hlatest⟩ :=
    latest_submitted requests log rid
  · have hinput := hsame r' hr' hid' q hq
    refine ⟨r',hlatest,r,hr,hid,hin,hinput ▸ htokens,?_⟩
    rw [hsize,prefillLength_congr hinput]
  · exact ⟨q,hlatest ▸ hq,r,hr,hid,hin,htokens,hsize⟩

theorem Carries.call {x : Call} (h : Carries c log s rid) (hs : Sound s)
    (calls : Calls s x reply s') (hends : ¬x.Ends rid) (hgives : ¬GivesUp rid s x reply s') :
    Carries c log s' rid := by
  obtain ⟨q,hq,r,hr,rfl,hin,htokens,hsize⟩ := h
  obtain ⟨r',hr',hon⟩ | hend | hgive := calls.onward hs hr hin
  · exact ⟨q,hq,r',hr',hon.id,hon.inService,htokens.trans hon.tokens,hon.prefillSize.trans hsize⟩
  · exact absurd hend hends
  · exact absurd hgive hgives

theorem Calls.abort_threw {x : Exception} (h : Calls s (.advance [.abort rid]) (.threw x) s')
    (hs : Sound s) : s' = s := by
  have hone : Runs (handleEvent (.abort rid)) s (fun _ _ => True) (fun _ s' => s' = s) :=
    onRequest_runs trivial fun r hr _ =>
      (abortEvent_runs hs hr).imp (fun _ _ _ => trivial) fun _ _ h => h.1
  have hall : Runs (advance [.abort rid]) s (fun _ _ => True) (fun _ s' => s' = s) :=
    hone.bind fun _ _ _ => trivial
  have hruns : Runs (runCall (.advance [.abort rid])) s (fun reply _ => reply = .done)
      (fun _ s' => s' = s) := hall.bind fun _ _ _ => rfl
  cases h with
  | returns _ run => cases hruns.of_ok run
  | throws _ run => exact hruns.of_error run

theorem carries_submit (hs : Sound a.scheduler) (ok : Safe c log a (.submit requests))
    (h : ∀ rid ∈ a.active, Carries c log a.scheduler rid) (submits : a.Submits c requests a') :
    ∀ rid ∈ a'.active, Carries c (requests.reverse ++ log) a'.scheduler rid := by
  obtain ⟨hagree,hfit,hone⟩ := ok
  obtain ⟨active',specs',hloop',htaken⟩ := takeUp_fitting fun r hr hfree => (hfit r hr hfree).1
  have hold (rid : RequestId) (hrid : rid ∈ a.active) :
      Carries c (requests.reverse ++ log) a.scheduler rid :=
    (h rid hrid).resubmitted fun r hr hid q hq => hagree r hr (hid ▸ hrid) q (hid ▸ hq)
  cases submits with
  | raises loop =>
    rw [hloop'] at loop
    cases loop
  | nothing loop =>
    rw [hloop'] at loop
    cases loop
    intro rid hrid
    by_cases hactive : rid ∈ a.active
    · exact hold rid hactive
    · obtain hin | ⟨r,hr,rfl⟩ := (htaken.ids rid).mp hrid
      · exact absurd hin hactive
      · obtain ⟨_,_,_,hfirst⟩ := htaken.first r hr hactive
        cases hfirst
  | call loop _ calls =>
    rw [hloop'] at loop
    cases loop
    have haccepted : ∀ spec ∈ specs', spec.Accepted := by
      intro spec hspec
      obtain ⟨r,_,rfl⟩ := htaken.made spec hspec
      exact specOf_accepted r
    obtain rfl := calls.submit_done haccepted
    intro rid hrid
    by_cases hactive : rid ∈ a.active
    · exact (hold rid hactive).call hs calls (fun hends => hends.elim) fun hgives => by
        obtain ⟨_,hplan⟩ := hgives.plan
        cases hplan
    · obtain hin | ⟨r,hr,rfl⟩ := (htaken.ids rid).mp hrid
      · exact absurd hin hactive
      · obtain ⟨r₀,hr₀,hid₀,hfirst⟩ := htaken.first r hr hactive
        have hmem : (c.specOf r₀).request ∈ (specs'.foldl enroll a.scheduler.requests) :=
          enrolled_first (hfit r hr hactive).2 hfirst
        obtain ⟨r',hr',hid',hlatest⟩ | ⟨hno,_⟩ :=
          latest_submitted requests log r.rid
        · have hinput := hone r' hr' r₀ hr₀ (hid'.trans hid₀.symm)
          refine ⟨r',hlatest,_,calls.enrolls ▸ hmem,hid₀,rfl,?_,?_⟩
          · rw [hinput]
            exact List.prefix_rfl
          · rw [specOf_prefillSize,prefillLength_congr hinput]
        · exact absurd rfl (hno r hr)

/-- A step that meets the condition. -/
theorem AdapterStep.carries {x : AdapterCall} (step : AdapterStep c a x a') (hs : Sound a.scheduler)
    (ok : Safe c log a x) (h : ∀ rid ∈ a.active, Carries c log a.scheduler rid) :
    ∀ rid ∈ a'.active, Carries c (x.submitted ++ log) a'.scheduler rid := by
  cases step with
  | submit submits => exact carries_submit hs ok h submits
  | nextPlan calls =>
    intro rid hrid
    exact (h rid hrid).call hs calls (fun hends => hends.elim) (ok rid hrid _ _)
  | advanceForward advances =>
    cases advances with
    | nothing => exact h
    | call _ calls =>
      intro rid hrid
      obtain ⟨hactive,hnot⟩ := List.mem_filter.mp hrid
      apply (h rid hactive).call hs calls
      · rintro (hfinish | habort)
        · exact of_decide_eq_true hnot (ForwardResults.finish_mem_events.mp hfinish)
        · exact ForwardResults.abort_notMem_events habort
      · intro hgives
        obtain ⟨_,hplan⟩ := hgives.plan
        cases hplan
  | abort aborts =>
    cases aborts with
    | inactive => exact h
    | returns _ calls =>
      intro rid hrid
      obtain ⟨hactive,hnot⟩ := List.mem_filter.mp hrid
      apply (h rid hactive).call hs calls
      · rintro (hfinish | habort)
        · simp at hfinish
        · exact of_decide_eq_true hnot (by simpa using habort)
      · intro hgives
        obtain ⟨_,hplan⟩ := hgives.plan
        cases hplan
    | raises _ calls =>
      rw [Calls.abort_threw calls hs]
      exact h

theorem Adapter.Submits.sound (h : a.Submits c requests a') (hs : Sound a.scheduler) :
    Sound a'.scheduler := by
  cases h with
  | raises | nothing => exact hs
  | call _ _ calls =>
    obtain ⟨_,hsteps,_⟩ := calls.steps hs
    exact hsteps.sound hs

theorem AdapterStep.sound {x : AdapterCall} (step : AdapterStep c a x a')
    (hs : Sound a.scheduler) : Sound a'.scheduler := by
  have hcalls {y : Call} {reply : Reply} {s' : Scheduler} (calls : Calls a.scheduler y reply s') :
      Sound s' := by
    obtain ⟨_,hsteps,_⟩ := calls.steps hs
    exact hsteps.sound hs
  cases step with
  | submit submits => exact submits.sound hs
  | nextPlan calls => exact hcalls calls
  | advanceForward advances =>
    cases advances with
    | nothing => exact hs
    | call _ calls => exact hcalls calls
  | abort aborts =>
    cases aborts with
    | inactive => exact hs
    | returns _ calls | raises _ calls => exact hcalls calls

theorem AdapterRun.sound {met : List RequestState → Adapter → AdapterCall → Prop}
    (h : AdapterRun c clock met log a) : Sound a.scheduler := by
  induction h with
  | new => exact sound_new _ _
  | call _ _ step ih => exact step.sound ih

theorem AdapterRun.carries (h : AdapterRun c clock (Safe c) log a) :
    ∀ rid ∈ a.active, Carries c log a.scheduler rid := by
  induction h with
  | new => exact fun _ hrid => (List.not_mem_nil hrid).elim
  | call run ok step ih => exact step.carries run.sound ok ih

/-- Pages of one token. -/
def tinyAdapter : AdapterConfig where
  maxBatchSize := 2
  maxScheduledTokens := 8
  pageSize := 1
  pageSize_pos := Nat.one_pos
  numDevicePages := 9
  maxModelLen := 8

def askedOne (inputIds : List Token) : RequestState := { rid := [1], inputIds, maxNewTokens := 2 }

theorem askedOne_submits {s' : Scheduler} {inputIds : List Token} (hlen : inputIds.length ≤ 8)
    (calls : Calls s (.submit [tinyAdapter.specOf (askedOne inputIds)]) .done s') :
    Adapter.Submits tinyAdapter ⟨s,[]⟩ [askedOne inputIds] ⟨s',[[1]]⟩ := by
  have hfit : ¬(8 : Int) < tinyAdapter.prefillLength (askedOne inputIds) := by
    have hle := prefillLength_le tinyAdapter (askedOne inputIds)
    have hle' : tinyAdapter.prefillLength (askedOne inputIds) ≤ 8 := Nat.le_trans hle hlen
    omega
  refine .call ?_ (List.cons_ne_nil _ _) calls
  simp [AdapterConfig.takeUp,show tinyAdapter.maxModelLen = 8 from rfl,hfit]
  rfl

/-- A prompt is aborted, and the id comes again before the next plan. -/
theorem resubmitted_replay :
    ∃ x, replayCall ([],Scheduler.new tinyAdapter.scheduler id)
        (.submit [tinyAdapter.specOf (askedOne [7,8])]) = some x ∧
      x.1 = [(.submit [tinyAdapter.specOf (askedOne [7,8])],.done)] ∧
      ∃ y, replayCall x (.advance [.abort [1]]) = some y ∧
        y.1 = (.advance [.abort [1]],.done) :: x.1 ∧ (∀ r ∈ y.2.requests, r.state = .finished) ∧
        ∃ z, replayCall y (.submit [tinyAdapter.specOf (askedOne [5,6])]) = some z ∧
          z.1 = (.submit [tinyAdapter.specOf (askedOne [5,6])],.done) :: y.1 ∧
          ∀ r ∈ z.2.requests, r.state = .finished := by
  decide

end FluxServe.Engine
