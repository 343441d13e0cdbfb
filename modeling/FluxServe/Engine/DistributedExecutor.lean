import FluxServe.Engine.Request

namespace FluxServe.Engine

/-- A forward plan as it goes over the wire, `ForwardPlanPayload`. -/
structure ForwardPlan where
  requestIds : List RequestId
  inputIds : List Token
  inputLengths : List Int
  extendPrefixLens : List Int
  occupiedPages : List (List Int)
  numExtends : Int
  deriving DecidableEq, Repr

/-- What a request sends to the workers. -/
structure StatePayload where
  rid : RequestId
  inputIds : List Token
  maxNewTokens : Nat
  ignoreEos : Bool
  promptText : String
  samplingParams : List (String × String)
  outputIds : List Token
  decodedText : String
  planPrefillDone : Bool
  currentDecodeBlock : Int
  deriving DecidableEq, Repr

def stateToPayload (r : RequestState) : StatePayload :=
  ⟨r.rid,r.inputIds,r.maxNewTokens,r.ignoreEos,r.promptText,r.samplingParams,r.outputIds,
    r.decodedText,r.planPrefillDone,r.currentDecodeBlock⟩

def stateFromPayload (p : StatePayload) : RequestState :=
  { rid := p.rid, inputIds := p.inputIds, maxNewTokens := p.maxNewTokens,
    ignoreEos := p.ignoreEos, promptText := p.promptText, samplingParams := p.samplingParams,
    outputIds := p.outputIds, decodedText := p.decodedText,
    planPrefillDone := p.planPrefillDone, currentDecodeBlock := p.currentDecodeBlock }

/-- The commands rank 0 broadcasts. -/
inductive Command
  | startup
  | generate (requests : List StatePayload)
  | forwardPlan (plan : ForwardPlan) (requests : List StatePayload)
  | releaseRequests (requestIds : List RequestId)
  | shutdown
  deriving DecidableEq, Repr

/-- What the executors raise. -/
inductive Raised
  | keyError (rid : RequestId)
  | valueError (message : String)
  | runtimeError (message : String)
  deriving DecidableEq, Repr

/-- The calls `DistributedGenerationExecutor` gets on rank 0, and passes on to its base executor. -/
inductive ExecutorCall
  | startup
  | executeBatch (requests : List RequestState)
  | executeForwardPlan (op : ForwardPlan) (statesById : List (RequestId × RequestState))
  | releaseRequests (requestIds : List RequestId)
  | shutdown
  deriving DecidableEq, Repr

def makeGenerateCommand (requests : List RequestState) : Command :=
  .generate (requests.map stateToPayload)

/-- `_make_forward_plan_command`; a row whose request is not known raises a `KeyError`. -/
def makeForwardPlanCommand (op : ForwardPlan) (statesById : List (RequestId × RequestState)) :
    Except Raised Command := do
  let states ← op.requestIds.mapM fun rid =>
    match statesById.lookup rid with
    | some state => pure (stateToPayload state)
    | none => throw (.keyError rid)
  return .forwardPlan op states

/-- What a call on rank 0 broadcasts before it runs; nothing for an empty release. -/
def commandOf : ExecutorCall → Except Raised (Option Command)
  | .startup => return some .startup
  | .executeBatch requests => return some (makeGenerateCommand requests)
  | .executeForwardPlan op statesById => return some (← makeForwardPlanCommand op statesById)
  | .releaseRequests requestIds =>
    if requestIds.isEmpty then return none else return some (.releaseRequests requestIds)
  | .shutdown => return some .shutdown

/-- `_forward_plan_from_payload`. -/
def forwardPlanFromPayload (plan : ForwardPlan) : Except Raised ForwardPlan := do
  if plan.occupiedPages.length ≠ plan.requestIds.length ∨
      plan.inputLengths.length ≠ plan.requestIds.length then
    throw (.valueError "Forward plan row metadata must match request_ids length.")
  if plan.numExtends < 0 ∨ (plan.requestIds.length : Int) < plan.numExtends then
    throw (.valueError "Forward plan num_extends is out of range.")
  return plan

/-- The call a worker makes for a command it received. Later states win in a Python dictionary. -/
def callOf : Command → Except Raised ExecutorCall
  | .startup => return .startup
  | .generate requests => return .executeBatch (requests.map stateFromPayload)
  | .forwardPlan plan requests => do
    let op ← forwardPlanFromPayload plan
    let states := requests.map stateFromPayload
    return .executeForwardPlan op (states.reverse.map fun state => (state.rid,state))
  | .releaseRequests requestIds => return .releaseRequests requestIds
  | .shutdown => return .shutdown

/-- The base executor of one rank: what a call does to it, and the exception it raises if any. -/
structure BaseExecutor where
  State : Type
  run : ExecutorCall → State → Option Raised × State

/-- A worker in `run_worker_loop`: the broadcasts it has not received, the commands it has handed
to its base executor, and whether it is still in its loop. -/
structure Worker (σ : Type) where
  base : σ
  inbox : List Command := []
  processed : List Command := []
  listening : Bool := true

/-- One turn of `run_worker_loop`: an exception of the decoding or of the base executor leaves the
loop, and so does a shutdown. -/
def Worker.turn (e : BaseExecutor) (w : Worker e.State) (c : Command) (rest : List Command) :
    Worker e.State :=
  match callOf c with
  | .error _ => { w with inbox := rest, listening := false }
  | .ok call =>
    let (raised,base) := e.run call w.base
    { base, inbox := rest, processed := w.processed ++ [c],
      listening := raised.isNone && c ≠ .shutdown }

/-- Rank 0 and its workers. Rank 0 has the commands `todo` still to broadcast; `raised` holds what
its own executions raised, which the engine turns into error outputs before it goes on. -/
structure World (leader : BaseExecutor) (n : Nat) (workers : Fin n → BaseExecutor) where
  todo : List ExecutorCall
  base : leader.State
  raised : List Raised := []
  sent : List Command := []
  workers : (i : Fin n) → Worker (workers i).State

section World

variable {leader : BaseExecutor} {n : Nat} {workers : Fin n → BaseExecutor}

/-- Rank 0 makes a call: broadcast the command, if it makes one, then run it. -/
def World.issue (w : World leader n workers) (call : ExecutorCall) (rest : List ExecutorCall) :
    World leader n workers :=
  match commandOf call with
  | .error e => { w with todo := rest, raised := w.raised ++ [e] }
  | .ok none => { w with todo := rest }
  | .ok (some command) =>
    let (raised,base) := leader.run call w.base
    { todo := if call = .shutdown then [] else rest
      base
      raised := w.raised ++ raised.toList
      sent := w.sent ++ [command]
      workers := fun i => { w.workers i with inbox := (w.workers i).inbox ++ [command] } }

def World.receive (w : World leader n workers) (i : Fin n) (c : Command) (rest : List Command) :
    World leader n workers :=
  { w with workers := Function.update w.workers i (Worker.turn (workers i) (w.workers i) c rest) }

/-- A step of some rank. A broadcast may complete at most `slack` commands ahead of a worker;
without slack it is a rendezvous. -/
inductive WorldStep (slack : Nat) : World leader n workers → World leader n workers → Prop
  | issue {w : World leader n workers} {call : ExecutorCall} {rest : List ExecutorCall}
      (todo : w.todo = call :: rest) (ready : ∀ i, (w.workers i).inbox.length ≤ slack) :
      WorldStep slack w (w.issue call rest)
  | receive {w : World leader n workers} {i : Fin n} {c : Command} {rest : List Command}
      (listening : (w.workers i).listening = true) (inbox : (w.workers i).inbox = c :: rest) :
      WorldStep slack w (w.receive i c rest)

end World

end FluxServe.Engine
