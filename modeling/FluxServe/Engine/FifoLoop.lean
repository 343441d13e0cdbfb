import FluxServe.Engine.Executor
import FluxServe.Engine.Request
import Mathlib.Logic.Function.Basic

namespace FluxServe.Engine

/-- `_active` is a set; its order is of no use. -/
structure DefaultSchedulerAdapter where
  maxBatchSize : Nat
  queue : List RequestId := []
  active : List RequestId := []

namespace DefaultSchedulerAdapter

variable (a : DefaultSchedulerAdapter)

def submit (requests : List RequestState) : DefaultSchedulerAdapter :=
  requests.foldl (fun a r => if r.rid ∈ a.active then a else
    { a with active := r.rid :: a.active, queue := a.queue ++ [r.rid] }) a

def nextBatch : Option (List RequestId × DefaultSchedulerAdapter) :=
  if a.queue = [] then none
  else some (a.queue.take a.maxBatchSize,{ a with queue := a.queue.drop a.maxBatchSize })

def finish (rid : RequestId) : DefaultSchedulerAdapter :=
  { a with
    active := a.active.filter fun x => x ≠ rid
    queue := a.queue.filter fun x => x ≠ rid }

def abort (rid : RequestId) : DefaultSchedulerAdapter :=
  { a.finish rid with queue := (a.finish rid).queue.filter fun x => x ≠ rid }

end DefaultSchedulerAdapter

/-- `AsyncLLM` with `_run_fifo_loop`. The states of requests are numbered as they are made; `states`
is the dictionary of those that are registered, `executing` the batch the executor has, and
`aborting` the ids whose `_abort` has not yet run. -/
structure FifoLoop where
  adapter : DefaultSchedulerAdapter
  made : Nat := 0
  state : Nat → RequestState := fun _ => { rid := [], inputIds := [], maxNewTokens := 0 }
  states : RequestId → Option Nat := fun _ => none
  executing : Option (List Nat) := none
  aborting : List RequestId := []

/-- What happens between two points where the event loop may switch tasks. -/
inductive FifoCall
  | submit (request : RequestState)
  | abort (rid : RequestId)
  | cleanup (rid : RequestId) (reason : String)
  | nextBatch
  | results (results : List ExecutionResult)
  | raises (error : String)

namespace FifoLoop

variable (t : FifoLoop)

/-- The part of `generate_request` before it waits for its output. -/
def generateRequest (r : RequestState) : FifoLoop :=
  { t with
    adapter := t.adapter.submit [r]
    made := t.made+1
    state := Function.update t.state t.made r
    states := Function.update t.states r.rid (some t.made) }

/-- `_abort`. -/
def cleanup (rid : RequestId) (reason : String) : FifoLoop :=
  match t.states rid with
  | some i =>
    if (t.state i).finished then t
    else
      let (output,r) := makeAbortOutput (t.state i) reason
      { t with
        state := Function.update t.state i (r.put output)
        states := Function.update t.states r.rid none }
  | none => t

/-- An output is put into the queue of its request, which is then let go. -/
def settle (i : Nat) (x : Output × RequestState) : FifoLoop :=
  { t with
    adapter := t.adapter.finish x.2.rid
    state := Function.update t.state i (x.2.put x.1)
    states := Function.update t.states x.2.rid none }

/-- `states_by_id.get`, in a dictionary where a later state displaces an earlier one. -/
def byId (ids : List Nat) (rid : RequestId) : Option Nat :=
  (ids.filter fun i => (t.state i).rid = rid).getLast?

def takeOver (ids : List Nat) (r : ExecutionResult) : FifoLoop :=
  match t.byId ids r.rid with
  | some i =>
    if t.states (t.state i).rid ≠ some i ∨ (t.state i).finished then t
    else t.settle i (makeOutput (t.state i) r.tokenIds r.text (some r.finishReason))
  | none => t

def fail (error : String) (i : Nat) : FifoLoop :=
  t.settle i (makeErrorOutput (t.state i) error)

def step : FifoCall → Option FifoLoop
  | .submit r => some (t.generateRequest r)
  | .abort rid =>
    some { t with adapter := t.adapter.abort rid, aborting := rid :: t.aborting }
  | .cleanup rid reason =>
    if rid ∈ t.aborting then
      some ({ t with aborting := t.aborting.erase rid }.cleanup rid reason)
    else none
  | .nextBatch =>
    match t.executing,t.adapter.nextBatch with
    | none,some (rids,adapter) =>
      let ids := rids.filterMap t.states
      if ids = [] then some { t with adapter }
      else some { t with
        adapter
        state := fun i => if i ∈ ids then (t.state i).markScheduled else t.state i
        executing := some ids }
    | _,_ => none
  | .results results =>
    t.executing.map fun ids =>
      { results.foldl (fun t r => t.takeOver ids r) t with executing := none }
  | .raises error =>
    t.executing.map fun ids => { ids.foldl (fun t i => t.fail error i) t with executing := none }

end FifoLoop

/-- The states of a loop whose calls all meet a condition. -/
inductive FifoRuns (ok : FifoLoop → FifoCall → Prop) (maxBatchSize : Nat) : FifoLoop → Prop
  | start : FifoRuns ok maxBatchSize { adapter := { maxBatchSize } }
  | step {t t' : FifoLoop} {call : FifoCall} (run : FifoRuns ok maxBatchSize t)
      (step : t.step call = some t') (meets : ok t call) : FifoRuns ok maxBatchSize t'

end FluxServe.Engine
