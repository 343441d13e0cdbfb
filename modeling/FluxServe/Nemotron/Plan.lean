import FluxServe.Engine.Request
import FluxServe.Framework.AssocList
import FluxServe.Nemotron.Paged

namespace FluxServe.Engine

/-- A prefill row of a forward operation, with its slice of the input ids. -/
structure PrefillRow where
  rid : RequestId
  offset : Nat
  tokens : List Token
  deriving DecidableEq, Repr

/-- A forward operation as the Nemotron runners read it. A request has one row of it at most. -/
structure PlanOp where
  prefills : List PrefillRow := []
  decodes : List RequestId := []
  distinct : (prefills.map PrefillRow.rid ++ decodes).Nodup

def PlanOp.requestIds (op : PlanOp) : List RequestId :=
  op.prefills.map PrefillRow.rid ++ op.decodes

/-- `ForwardStepResult`, without its text. -/
structure StepResult where
  rid : RequestId
  tokenIds : List Token := []
  finished : Bool := false
  finishReason : Option String := none
  reserveTokens : Nat := 0
  decodeBlockCompleted : Bool := false
  deriving DecidableEq, Repr

/-- What is held for one request: its state by the engine, its seed and its prefix by the runner,
and the KV in its pages. -/
structure Slot (M : NemotronModel) where
  state : Option RequestState := none
  requestSeed : Option Token := none
  requestPrefix : Option Nat := none
  cache : List M.Kv := []

/-- The dictionaries of the engine and the runner, by request. -/
abbrev Served (M : NemotronModel) := RequestId → Slot M

variable {M : NemotronModel}

namespace Slot

/-- `_release_paged_slot`. -/
def release (s : Slot M) : Slot M := { s with requestSeed := none, requestPrefix := none }

/-- What `_execute_forward_op` does with a result. -/
def deliver (r : StepResult) (s : Slot M) : Slot M :=
  match s.state with
  | none => s
  | some state =>
    if state.finished then s
    else if r.finished then { s with state := none }
    else
      let state := { state with outputIds := state.outputIds ++ r.tokenIds }
      { s with
        state := some (if r.decodeBlockCompleted then state.markDecodeBlockDone else state) }

/-- A request whose forward operation raised: the runner releases it and the engine drops it. -/
def fail (s : Slot M) : Slot M :=
  match s.state with
  | some state => if state.finished then s.release else { s.release with state := none }
  | none => s.release

/-- The mark on a prefilled request, and for self-speculation where its first block starts. -/
def prefilled (speculates : Bool) (s : Slot M) : Slot M :=
  match s.state with
  | none => s
  | some state =>
    let s := { s with state := some { state with planPrefillDone := true } }
    if speculates && s.requestSeed.isSome then
      { s with requestPrefix := some state.inputIds.length }
    else s

end Slot

/-- What a Nemotron paged runner does of its own in `execute_paged_forward_plan`: whether its
prefill fixes a prefix, and how decode rows are entered, run as a batch, kept and reported. -/
structure PagedRunner (M : NemotronModel) where
  Row : Type
  speculates : Bool
  enter : RequestId → RequestState → Slot M → Except NemotronFault Row
  run : Nat → List Row → Option (Except NemotronFault (List Row))
  settle : Row → Slot M → Slot M
  result : RequestId → RequestState → Slot M → Row → StepResult

namespace NemotronRunner

variable (R : NemotronRunner M)

/-- One row of `_plan_prefill`; only the chunk that reaches the end of the prompt gives a seed. -/
def prefillSlot (p : PrefillRow) (s : Slot M) : Slot M :=
  let (logits,cache) := commit false true p.tokens p.offset s.cache
  let s := { s with cache }
  match s.state with
  | none => s
  | some state =>
    if p.offset+p.tokens.length < state.inputIds.length then s
    else { s with requestSeed := some (R.seedFrom logits) }

def planPrefill (prefills : List PrefillRow) (w : Served M) :
    Except NemotronFault (Served M) :=
  if prefills.any fun p => p.tokens.isEmpty then throw .prefillLengths
  else pure (patch w (prefills.map fun p => (p.rid,R.prefillSlot p (w p.rid))))

/-- The tokens a decode row returns of what it generated, and whether it met an end of sequence. -/
def returned (state : RequestState) (generated : List Token) : List Token × Bool :=
  let generated := generated.take (state.maxNewTokens-state.outputIds.length)
  let stops := !state.ignoreEos && generated.any R.decoder.isEos
  let generated := if stops then generated.takeWhile fun t => !R.decoder.isEos t else generated
  (generated.filter fun t => t ≠ R.maskId ∧ (state.ignoreEos ∨ ¬R.decoder.isEos t),stops)

/-- The result of a decode row that would reserve so many tokens. -/
def stepResult (rid : RequestId) (state : RequestState) (generated : List Token) (reserve : Nat)
    (decodeBlockCompleted : Bool) : StepResult :=
  let (tokenIds,stops) := R.returned state generated
  let finished :=
    stops || decide (state.maxNewTokens ≤ state.outputIds.length+tokenIds.length)
  { rid, tokenIds, finished, decodeBlockCompleted
    finishReason := if stops then some "stop" else if finished then some "length" else none
    reserveTokens := if finished then 0 else reserve }

section SelfSpec

/-- Whether a request decodes for the first time, so that the seed of its prefill is still to be
emitted. -/
def decodesFirst (state : RequestState) (prefixLength : Nat) : Bool :=
  decide (prefixLength = state.inputIds.length) && state.outputIds.isEmpty

/-- The `SpecRow` of a decode row, around its block and how much of that is forced. -/
def planSpecRow (state : RequestState) (cache : List M.Kv) (seed : Token) (prefixLength : Nat)
    (x : List Token × Nat) : SpecRow M :=
  let first := decodesFirst state prefixLength
  let generationLength := max 1 (state.maxNewTokens-state.outputIds.length)
  let terminal := first && !state.ignoreEos && R.decoder.isEos seed
  { generationLength
    prefixLength
    block := x.1
    seed
    state := if first && (terminal || decide (generationLength ≤ 1)) then .done else .draft
    maxIterations := some 1
    terminal
    emitted := if first then [seed] else []
    stopOnEos := !state.ignoreEos
    forced := x.2
    cache }

/-- A row of `_plan_speculate`. -/
def enterSpecRow (rid : RequestId) (state : RequestState) (s : Slot M) :
    Except NemotronFault (SpecRow M) :=
  match s.requestSeed,s.requestPrefix with
  | some seed,some prefixLength => do
    let produced := if decodesFirst state prefixLength then [seed] else state.outputIds
    let x ← R.speculativeBlock seed (R.thinkingBudget.due produced)
    return R.planSpecRow state s.cache seed prefixLength x
  | _,_ => throw (.noSeed rid)

/-- The settings of `NemotronSelfSpecPagedRunner._plan_speculate`. -/
def speculation : PagedRunner M where
  Row := SpecRow M
  speculates := true
  enter := R.enterSpecRow
  run := R.runSpeculation
  settle r s :=
    { s with requestSeed := some r.seed, requestPrefix := some r.prefixLength, cache := r.cache }
  result rid state s r :=
    R.stepResult rid state r.emitted (r.prefixLength-s.requestPrefix.getD 0) false

end SelfSpec

section Diffusion

/-- A row of `_plan_decode`: one block at the place that the decode counter tells. -/
def enterPlanBlock (rid : RequestId) (state : RequestState) (s : Slot M) :
    Except NemotronFault (BlockRow M) :=
  match s.requestSeed with
  | none => throw (.noSeed rid)
  | some seed =>
    let r : BlockRow M := {
      generationLength := state.maxNewTokens
      prefixLength := state.inputIds.length+state.currentDecodeBlock.toNat*R.blockLength
      blockBudget := 1
      block := R.thinkingBudget.apply (R.maskedBlock seed) state.outputIds
      seed
      stopOnEos := !state.ignoreEos
      cache := s.cache }
    pure (if R.endsAtOnce r then { r with terminal := true, state := .commit } else r)

/-- The settings of `NemotronFA4DiffusionRunner._plan_decode`. -/
def blockDiffusion : PagedRunner M where
  Row := BlockRow M
  speculates := false
  enter := R.enterPlanBlock
  run := R.runBlockLoop
  settle r s := { s with requestSeed := some r.seed, cache := r.cache }
  result rid state _ r := R.stepResult rid state (r.emitted.headD []) R.blockLength true

end Diffusion

end NemotronRunner

/-- The requests of the decode rows that are known and not finished. -/
def liveRows (w : Served M) (rids : List RequestId) : List (RequestId × RequestState) :=
  rids.filterMap fun rid =>
    match (w rid).state with
    | some state => if state.finished then none else some (rid,state)
    | none => none

namespace PagedRunner

variable (K : PagedRunner M)

/-- The frame of `_plan_decode` and of `_plan_speculate`. -/
def planRows (fuel : Nat) (rids : List RequestId) (w : Served M) :
    Option (Except NemotronFault (List StepResult × Served M)) :=
  match (liveRows w rids).mapM fun x => K.enter x.1 x.2 (w x.1) with
  | .error e => some (throw e)
  | .ok rows => do
    let r ← K.run fuel rows
    return r >>= fun rows => do
      let done := (liveRows w rids).zip rows
      return (done.map fun x => K.result x.1.1 x.1.2 (w x.1.1) x.2,
        patch w (done.map fun x => (x.1.1,K.settle x.2 (w x.1.1))))

/-- The empty results of the prefill rows. -/
def prefillResults (w : Served M) (prefills : List PrefillRow) : List StepResult :=
  (prefills.filter fun p => (w p.rid).state.isSome).map fun p => { rid := p.rid }

def releaseFinished (results : List StepResult) (w : Served M) : Served M :=
  patch w ((results.filter StepResult.finished).map fun r => (r.rid,(w r.rid).release))

/-- `execute_paged_forward_plan`. -/
def executePlan (R : NemotronRunner M) (fuel : Nat) (op : PlanOp) (w : Served M) :
    Option (Except NemotronFault (List StepResult × Served M)) :=
  match R.planPrefill op.prefills w with
  | .error e => some (throw e)
  | .ok w' => do
    let w' := patch w' (op.prefills.map fun p => (p.rid,(w' p.rid).prefilled K.speculates))
    let r ← K.planRows fuel op.decodes w'
    return r >>= fun x => do
      let results := prefillResults w op.prefills ++ x.1
      return (results,releaseFinished results x.2)

/-- `AsyncLLM._execute_forward_op`: the results that reach it, and what is held afterwards. -/
def executeForwardOp (R : NemotronRunner M) (fuel : Nat) (op : PlanOp) (w : Served M) :
    Option (List StepResult × Served M) :=
  if op.requestIds.all fun rid => (w rid).state.isNone then some ([],w)
  else do
    match ← K.executePlan R fuel op w with
    | .error _ => return ([],patch w (op.requestIds.map fun rid => (rid,(w rid).fail)))
    | .ok (results,w') =>
      return (results,patch w' (results.map fun r => (r.rid,(w' r.rid).deliver r)))

end PagedRunner

end FluxServe.Engine
