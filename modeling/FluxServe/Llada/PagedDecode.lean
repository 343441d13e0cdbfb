import FluxServe.Engine.PlanLoop
import FluxServe.Llada.BlockLoop

namespace FluxServe.Llada

open Engine

/-- A runner that serves plans. `maxBlockItersOverride` is the decoder's own bound, where it keeps a
state of the rows. -/
structure PagedLladaRunner (Logits Kv S : Type) extends LladaRunner Logits Kv S where
  maxNumSeqs : Nat
  maxPostSteps : Nat := 16
  maxBlockItersOverride : Option Nat := none
  needsEditingInputs : Bool := false
  makeRowState : S

/-- A decode row of a plan: the state of its request and its slot. -/
structure PlanRow where
  seqId : Nat
  state : Engine.RequestState

namespace PagedLladaRunner

variable {Logits Kv S : Type} (R : PagedLladaRunner Logits Kv S)

/-- `max_block_iters` of the edit budget. -/
def maxBlockIters : Nat :=
  R.maxBlockItersOverride.getD (R.blockLength+R.maxPostSteps+1)

/-- The passes a plan's block may take. -/
def maxDecodeIters : Nat :=
  if R.mode = .fa4 ∨ R.needsEditingInputs then R.maxBlockIters
  else R.maxBlockItersOverride.getD (R.blockLength+1)

section Rows

variable (state : Engine.RequestState)

/-- Where the next block of a request starts. -/
def blockStart : Nat :=
  state.alignedPrefillLength R.blockLength + state.currentDecodeBlock.toNat*R.blockLength

/-- The token row of a request: all its tokens, then masks. -/
def tokenRow (p : Nat) : Token := ((state.inputIds ++ state.outputIds)[p]?).getD R.maskId

/-- The tokens that a decoded row adds to the request, before they are cut at a stop token. The
first block may start inside the prompt. -/
def generated (row : Nat → Token) : List Token :=
  let generatedStart := max (R.blockStart state) state.inputIds.length
  let raw :=
    (List.range' generatedStart (R.blockStart state + R.blockLength-generatedStart)).map row
  raw.take (state.maxNewTokens-state.outputIds.length)

/-- The result of a decoded row. -/
def decodeResult (rid : RequestId) (row : Nat → Token) : Engine.StepResult :=
  let generated := R.generated state row
  let stops := !state.ignoreEos && generated.any fun t => decide (t ∈ R.eosIds)
  let generated := if stops then generated.takeWhile fun t => t ∉ R.eosIds else generated
  let tokenIds := generated.filter fun t => t ≠ R.maskId ∧ (state.ignoreEos ∨ t ∉ R.eosIds)
  let finished := stops || decide (state.maxNewTokens ≤ state.outputIds.length+tokenIds.length)
  { rid, tokenIds, finished
    finishReason := if stops then some "stop" else if finished then some "length" else none
    reserveTokens := if finished then 0 else R.blockLength
    decodeBlockCompleted := true }

end Rows

section Decode

variable (rows : List PlanRow) (kv : Nat → Nat → Option Kv)

def rowOf (r : Nat) : Option Engine.RequestState :=
  (rows.find? fun x => x.seqId == r).map PlanRow.state

/-- `max_total_len`. -/
def planWidth : Nat := (rows.map fun x => R.blockStart x.state + R.blockLength).max?.getD 0

def planCall : DecodeCall where
  numRows := R.maxNumSeqs
  width := R.planWidth rows
  totalLength := R.planWidth rows
  promptLengths r := ((rowOf rows r).map fun state => state.inputIds.length).getD 0

/-- The token array of a plan, each row at its block. -/
def planLoop : DecodeLoop Kv S where
  x r := ((rowOf rows r).map R.tokenRow).getD fun _ => R.maskId
  decodingStart r := ((rowOf rows r).map R.blockStart).getD 0
  kv
  editBudget := { maxPostSteps := R.maxPostSteps, maxBlockIters := R.maxBlockIters }
  rowState := R.makeRowState

/-- `_decode_selected_batch`: an irregular batch is run part by part. -/
def decodeSelected (σ : DecodeLoop Kv S) (seqIds : List Nat) :
    Except LoopFault (DecodeLoop Kv S) :=
  (R.components seqIds).foldlM
    (fun σ part => R.decodeBatch (R.planCall rows) σ part (R.reach σ part)) σ

/-- The loop of `_execute_paged_decode` over the rows whose block is not finished. -/
def decodeUntil : Nat → List Nat → DecodeLoop Kv S → Except LoopFault (DecodeLoop Kv S)
  | 0,pending,_ => throw (.unfinished pending)
  | n+1,pending,σ => do
    let σ' ← R.decodeSelected rows σ pending
    let unfinished := pending.filter fun r => σ'.decodingStart r == σ.decodingStart r
    if unfinished.isEmpty then return σ'
    else decodeUntil n unfinished σ'

/-- `_execute_paged_decode` up to the results; a row longer than the array does not fit in. -/
def pagedDecode : Except LoopFault (DecodeLoop Kv S) :=
  if rows.any fun x =>
      decide (R.planWidth rows < x.state.inputIds.length+x.state.outputIds.length) then
    throw .tooLong
  else R.decodeUntil rows R.maxDecodeIters (rows.map PlanRow.seqId) (R.planLoop rows kv)

end Decode

/-- The results of the decode rows of a plan. -/
def executePagedDecode (rows : List (RequestId × PlanRow)) (kv : Nat → Nat → Option Kv) :
    Except LoopFault (List Engine.StepResult) :=
  if rows.isEmpty then pure []
  else do
    let σ ← R.pagedDecode (rows.map Prod.snd) kv
    return rows.map fun x => R.decodeResult x.2.state x.1 (σ.x x.2.seqId)

end PagedLladaRunner

/-- The states that the engine holds, by request. -/
abbrev States := RequestId → Option Engine.RequestState

namespace States

variable (w : States)

/-- Whether a state is held that is not finished. -/
def live (rid : RequestId) : Bool := (w rid).any fun state => !state.finished

/-- A state that is held is dropped, unless it is finished. -/
def drop (rids : List RequestId) : States :=
  fun rid => if rid ∈ rids ∧ w.live rid then none else w rid

/-- What `_execute_forward_op` does with a result of a state that is held. -/
def deliver (r : Engine.StepResult) (state : Engine.RequestState) : Option Engine.RequestState :=
  if r.finished then none
  else
    let state := { state with outputIds := state.outputIds ++ r.tokenIds }
    some (if r.decodeBlockCompleted then state.markDecodeBlockDone else state)

/-- The results that find the state of an unfinished request. -/
def liveResults (results : List Engine.StepResult) : List Engine.StepResult :=
  results.filter fun r => w.live r.rid

def settle (results : List Engine.StepResult) : States :=
  patch w ((w.liveResults results).map fun r => (r.rid,(w r.rid).bind (deliver r)))

/-- The events that are passed on for the results. -/
def eventsOf (results : List Engine.StepResult) : List Event :=
  let live := w.liveResults results
  (live.filter fun r => !r.tokenIds.isEmpty).map (fun r => .extendResult r.rid r.tokenIds) ++
    (live.filter fun r => !r.finished && decide (0 < r.reserveTokens)).map
      (fun r => .updateReserveNumTokens r.rid r.reserveTokens) ++
    (live.filter Engine.StepResult.finished).map fun r => .finish r.rid

def finishedIds (results : List Engine.StepResult) : List RequestId :=
  ((w.liveResults results).filter Engine.StepResult.finished).map Engine.StepResult.rid

end States

/-- `AsyncLLM` with a paged scheduler and a LLaDA runner. `aborting` are the `_abort` tasks that
have not run yet. -/
structure LladaService where
  adapter : Adapter
  states : States := fun _ => none
  inflight : Option Inflight := none
  aborting : List RequestId := []

section Steps

variable {Logits Kv S : Type} (c : AdapterConfig) (args : ServerArgs)
  (encode : String → List Token) (R : PagedLladaRunner Logits Kv S)

/-- The decode rows of a plan that are executed: requests that are held, in their slots. One that is
aborted before the runner looks at it is left out. -/
structure PlanRows (w : States) (op : PlanOp) (rows : List (RequestId × PlanRow)) : Prop where
  sub : (rows.map Prod.fst).Sublist op.decodes
  held : ∀ x ∈ rows, w x.1 = some x.2.state
  slots : (rows.map fun x => x.2.seqId).Nodup

/-- What happens in the service: requests are submitted and aborted at any time; the loop asks for a
plan, executes it, and takes the results over or fails the requests. What the pages hold when a plan
is executed may be anything. The label is the request that is submitted. -/
inductive ServiceStep (t : LladaService) : Option Engine.RequestState → LladaService → Prop
  | submit {item : RequestItem} {randbits : Nat} {state : Engine.RequestState} {a' : Adapter}
      (accepted : args.makeState encode randbits item = .ok state)
      (takes : t.adapter.Submits c [state] a') :
      ServiceStep t (some state)
        { t with adapter := a', states := patch t.states [(state.rid,some state)] }
  | aborts {rid : RequestId} {a' : Adapter} (abort : t.adapter.Aborts rid .done a') :
      ServiceStep t none { t with adapter := a', aborting := rid :: t.aborting }
  | abortRaises {rid : RequestId} {x : Exception} {a' : Adapter}
      (abort : t.adapter.Aborts rid (.threw x) a') : ServiceStep t none { t with adapter := a' }
  | drops {rid : RequestId} (pending : rid ∈ t.aborting) :
      ServiceStep t none
        { t with states := t.states.drop [rid], aborting := t.aborting.erase rid }
  | rests {order : List RequestId} {p : ExecutionPlan} {s' : Scheduler} (idle : t.inflight = none)
      (held : ∃ rid, (t.states rid).isSome)
      (plan : Calls t.adapter.scheduler (.plan order) (.plan p) s')
      (noCache : p.writeBack = [] ∧ p.loadBack = [])
      (nothing : ∀ op ∈ p.forward, t.states op.requestId = none) :
      ServiceStep t none { t with adapter := { t.adapter with scheduler := s' } }
  | failAll {order : List RequestId} {p : ExecutionPlan} {s' : Scheduler} {rids : List RequestId}
      {a' : Adapter} (idle : t.inflight = none)
      (held : ∃ rid, (t.states rid).isSome)
      (plan : Calls t.adapter.scheduler (.plan order) (.plan p) s')
      (cache : p.writeBack ≠ [] ∨ p.loadBack ≠ [])
      (all : ∀ rid, rid ∈ rids ↔ t.states.live rid = true)
      (aborts : ({ t.adapter with scheduler := s' } : Adapter).AbortsAll rids a') :
      ServiceStep t none { t with adapter := a', states := t.states.drop rids }
  | executes {order : List RequestId} {p : ExecutionPlan} {s' : Scheduler} {op : PlanOp}
      {rows : List (RequestId × PlanRow)} {kv : Nat → Nat → Option Kv}
      {results : List Engine.StepResult} (idle : t.inflight = none)
      (held : ∃ rid, (t.states rid).isSome)
      (plan : Calls t.adapter.scheduler (.plan order) (.plan p) s')
      (noCache : p.writeBack = [] ∧ p.loadBack = []) (ofPlan : op.OfPlan p)
      (busy : ∃ rid ∈ op.requestIds, (t.states rid).isSome)
      (read : PlanRows t.states op rows) (run : R.executePagedDecode rows kv = .ok results) :
      ServiceStep t none { t with
        adapter := { t.adapter with scheduler := s' }
        inflight := some
          { known := op.requestIds.filter fun rid => (t.states rid).isSome
            results := some (((op.prefills.map PrefillRow.rid).filter fun rid =>
              (t.states rid).isSome).map (fun rid => { rid }) ++ results) } }
  | raises {order : List RequestId} {p : ExecutionPlan} {s' : Scheduler} {op : PlanOp}
      (idle : t.inflight = none)
      (held : ∃ rid, (t.states rid).isSome)
      (plan : Calls t.adapter.scheduler (.plan order) (.plan p) s')
      (noCache : p.writeBack = [] ∧ p.loadBack = []) (ofPlan : op.OfPlan p)
      (busy : ∃ rid ∈ op.requestIds, (t.states rid).isSome) :
      ServiceStep t none { t with
        adapter := { t.adapter with scheduler := s' }
        inflight := some
          { known := op.requestIds.filter fun rid => (t.states rid).isSome, results := none } }
  | settles {known : List RequestId} {results : List Engine.StepResult} {a' : Adapter}
      (inflight : t.inflight = some ⟨known,some results⟩)
      (advances : t.adapter.Advances (t.states.eventsOf results) (t.states.finishedIds results)
        .done a') :
      ServiceStep t none
        { t with adapter := a', states := t.states.settle results, inflight := none }
  | fails {known rids : List RequestId} {a' : Adapter}
      (inflight : t.inflight = some ⟨known,none⟩) (unfinished : rids.Sublist known)
      (aborts : t.adapter.AbortsAll rids a') :
      ServiceStep t none
        { t with adapter := a', states := t.states.drop rids, inflight := none }

/-- The states of the service, in runs whose submissions all meet a condition. -/
inductive ServiceRuns (ok : LladaService → Engine.RequestState → Prop)
    (clock : Nat → Timestamp) : LladaService → Prop
  | start : ServiceRuns ok clock { adapter := Adapter.new c clock }
  | step {t t' : LladaService} {submitted : Option Engine.RequestState}
      (run : ServiceRuns ok clock t) (step : ServiceStep c args encode R t submitted t')
      (meets : ∀ state, submitted = some state → ok t state) : ServiceRuns ok clock t'

end Steps

end FluxServe.Llada
