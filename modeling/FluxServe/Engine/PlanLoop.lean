import FluxServe.Engine.PagedAdapter
import FluxServe.Engine.Processor
import FluxServe.Nemotron.Plan
import FluxServe.Scheduler.PlanRows

namespace FluxServe

/-- The prefill rows of a plan as the runner reads them off the flat operation. -/
def ExecutionPlan.prefillRows (p : ExecutionPlan) : List Engine.PrefillRow :=
  (p.forward.filter ForwardOperation.isPrefill).map fun op =>
    ⟨op.requestId,op.extendPrefixLen.toNat,op.inputIds⟩

def ExecutionPlan.decodeIds (p : ExecutionPlan) : List RequestId :=
  (p.forward.filter fun op => !op.isPrefill).map ForwardOperation.requestId

namespace Engine

variable {M : NemotronModel}

/-- A forward operation that is executed. The runner has had its effect; its results are still to be
taken over, or it raised. `known` are the keys of `states_by_id`. -/
structure Inflight where
  known : List RequestId
  results : Option (List StepResult)

/-- `AsyncLLM` with a paged scheduler and the dictionaries of a Nemotron runner. -/
structure Service (M : NemotronModel) where
  adapter : Adapter
  served : Served M := fun _ => {}
  inflight : Option Inflight := none

/-- The results that find the state of an unfinished request. -/
def liveResults (w : Served M) (results : List StepResult) : List StepResult :=
  results.filter fun r => ((w r.rid).state.map RequestState.finished) = some false

/-- The events that `_execute_forward_op` passes on for its results. -/
def eventsOf (w : Served M) (results : List StepResult) : List Event :=
  let live := liveResults w results
  (live.filter fun r => !r.tokenIds.isEmpty).map (fun r => .extendResult r.rid r.tokenIds) ++
    (live.filter fun r => !r.finished && decide (0 < r.reserveTokens)).map
      (fun r => .updateReserveNumTokens r.rid r.reserveTokens) ++
    (live.filter StepResult.finished).map fun r => .finish r.rid

def finishedIds (w : Served M) (results : List StepResult) : List RequestId :=
  ((liveResults w results).filter StepResult.finished).map StepResult.rid

/-- A result is taken over; a finished request is released by the runner. -/
def Slot.settleResult (r : StepResult) (s : Slot M) : Slot M :=
  if r.finished && s.state.isSome then (s.deliver r).release else s.deliver r

/-- `_execute_forward_op` once the results are there. -/
def settleResults (w : Served M) (results : List StepResult) : Served M :=
  patch w (results.map fun r => (r.rid,(w r.rid).settleResult r))

/-- `_fail_states`, for the requests of these ids that are held and not finished. -/
def failStates (w : Served M) (rids : List RequestId) : Served M :=
  patch w ((liveRows w rids).map fun x => (x.1,(w x.1).fail))

/-- The requests of a plan's operation. -/
def PlanOp.known (op : PlanOp) (w : Served M) : List RequestId :=
  op.requestIds.filter fun rid => (w rid).state.isSome

/-- The forward operation of a plan. -/
structure PlanOp.OfPlan (op : PlanOp) (p : ExecutionPlan) : Prop where
  prefills : op.prefills = p.prefillRows
  decodes : op.decodes = p.decodeIds

/-- A state with the same prompt, finished or not as before. -/
def SameState (s s' : Slot M) : Prop :=
  s'.state.map RequestState.inputIds = s.state.map RequestState.inputIds ∧
    s'.state.map RequestState.finished = s.state.map RequestState.finished

section Steps

variable (c : AdapterConfig) (args : ServerArgs) (encode : String → List Token) (K : PagedRunner M)
  (R : NemotronRunner M)

/-- What happens in the service, without an abort by a client: a request is submitted, at any time;
the loop asks for a plan, executes it, and takes the results over or fails the requests. The label
is the request that is submitted. -/
inductive ServiceStep (t : Service M) : Option RequestState → Service M → Prop
  | submit {item : RequestItem} {randbits : Nat} {state : RequestState} {a' : Adapter}
      (accepted : args.makeState encode randbits item = .ok state)
      (takes : t.adapter.Submits c [state] a') :
      ServiceStep t (some state) { t with
        adapter := a'
        served := patch t.served [(state.rid,{ t.served state.rid with state := some state })] }
  | rests {order : List RequestId} {p : ExecutionPlan} {s' : Scheduler} (idle : t.inflight = none)
      (held : ∃ rid, (t.served rid).state.isSome)
      (plan : Calls t.adapter.scheduler (.plan order) (.plan p) s')
      (noCache : p.writeBack = [] ∧ p.loadBack = [])
      (nothing : ∀ op ∈ p.forward, (t.served op.requestId).state = none) :
      ServiceStep t none { t with adapter := { t.adapter with scheduler := s' } }
  | failAll {order : List RequestId} {p : ExecutionPlan} {s' : Scheduler} {rids : List RequestId}
      {a' : Adapter} (idle : t.inflight = none) (held : ∃ rid, (t.served rid).state.isSome)
      (plan : Calls t.adapter.scheduler (.plan order) (.plan p) s')
      (cache : p.writeBack ≠ [] ∨ p.loadBack ≠ [])
      (all : ∀ rid, rid ∈ rids ↔ (t.served rid).state.isSome)
      (aborts : ({ t.adapter with scheduler := s' } : Adapter).AbortsAll
        ((liveRows t.served rids).map Prod.fst) a') :
      ServiceStep t none { t with adapter := a', served := failStates t.served rids }
  | executes {order : List RequestId} {p : ExecutionPlan} {s' : Scheduler} {op : PlanOp}
      {fuel : Nat} {results : List StepResult} {w' : Served M} (idle : t.inflight = none)
      (held : ∃ rid, (t.served rid).state.isSome)
      (plan : Calls t.adapter.scheduler (.plan order) (.plan p) s')
      (noCache : p.writeBack = [] ∧ p.loadBack = []) (ofPlan : op.OfPlan p)
      (busy : op.known t.served ≠ [])
      (run : K.executePlan R fuel op t.served = some (.ok (results,w'))) :
      ServiceStep t none {
        adapter := { t.adapter with scheduler := s' }
        served := w'
        inflight := some ⟨op.known t.served,some results⟩ }
  | raises {order : List RequestId} {p : ExecutionPlan} {s' : Scheduler} {op : PlanOp}
      {w' : Served M} (idle : t.inflight = none) (held : ∃ rid, (t.served rid).state.isSome)
      (plan : Calls t.adapter.scheduler (.plan order) (.plan p) s')
      (noCache : p.writeBack = [] ∧ p.loadBack = []) (ofPlan : op.OfPlan p)
      (busy : op.known t.served ≠ [])
      (kept : ∀ rid, SameState (t.served rid) (w' rid))
      (others : ∀ rid, rid ∉ op.requestIds → w' rid = t.served rid) :
      ServiceStep t none {
        adapter := { t.adapter with scheduler := s' }
        served := w'
        inflight := some ⟨op.known t.served,none⟩ }
  | settles {known : List RequestId} {results : List StepResult} {a' : Adapter}
      (inflight : t.inflight = some ⟨known,some results⟩)
      (advances : t.adapter.Advances (eventsOf t.served results) (finishedIds t.served results)
        .done a') :
      ServiceStep t none {
        adapter := a'
        served := settleResults t.served results
        inflight := none }
  | fails {known : List RequestId} {a' : Adapter} (inflight : t.inflight = some ⟨known,none⟩)
      (aborts : t.adapter.AbortsAll ((liveRows t.served known).map Prod.fst) a') :
      ServiceStep t none {
        adapter := a'
        served := failStates t.served known
        inflight := none }

/-- The states of the service, in runs whose submissions all meet a condition. -/
inductive ServiceRuns (ok : Service M → RequestState → Prop) (clock : Nat → Timestamp) :
    Service M → Prop
  | start : ServiceRuns ok clock { adapter := Adapter.new c clock }
  | step {t t' : Service M} {submitted : Option RequestState} (run : ServiceRuns ok clock t)
      (step : ServiceStep c args encode K R t submitted t')
      (meets : ∀ state, submitted = some state → ok t state) : ServiceRuns ok clock t'

end Steps

end Engine

end FluxServe
