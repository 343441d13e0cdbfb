import FluxServe.Engine.BlockDiffusion

namespace FluxServe.Engine

structure ExecutionResult where
  rid : RequestId
  tokenIds : List Token
  text : String
  finishReason : String
  deriving DecidableEq, Repr

def RequestState.promptIds (r : RequestState) : List Token := r.inputIds ++ r.outputIds

variable (c : RunnerConfig)

/-- The slice of an output row that `execute_batch` reads as generated. -/
def generatedAt (offset : Nat) (r : RequestState) (row : List Token) : List Token :=
  (row.drop offset).take r.maxNewTokens

/-- What `execute_batch` makes of the generated tokens of a request. -/
def resultOf (decode : List Token → String) (r : RequestState) (generated : List Token) :
    ExecutionResult :=
  let firstEos := generated.findIdx? fun t => t ∈ c.eosIds
  let stops := !r.ignoreEos && firstEos.isSome
  let generated := if stops then generated.take (firstEos.getD 0) else generated
  let tokens := generated.filter fun t => t ≠ c.maskId ∧ (r.ignoreEos ∨ t ∉ c.eosIds)
  ⟨r.rid,tokens,decode tokens,if stops then "stop" else "length"⟩

/-- The runner's settings while a batch runs: the longest generation, and no early stop when some
request ignores the stop tokens. -/
def batchConfig (requests : List RequestState) : RunnerConfig :=
  { c with
    genLength := (requests.map RequestState.maxNewTokens).max?.getD 0
    earlyStop := if requests.any RequestState.ignoreEos then false else c.earlyStop }

/-- The prompts of a batch, padded with masks to the longest. -/
def paddedPrompts (requests : List RequestState) : List (List Token) :=
  let prompts := requests.map RequestState.promptIds
  prompts.map fun p => p ++ List.replicate (promptWidth prompts-p.length) c.maskId

/-- `BlockDiffusionExecutor.execute_batch`, which hands no prompt lengths to the LLaDA runner. -/
def executeBatch (model : RowModel c.maskId) (decode : List Token → String) (fuel : Nat)
    (requests : List RequestState) : Option (List ExecutionResult × RunnerConfig) :=
  if requests.isEmpty then some ([],c)
  else do
    let (output,runner) ← generate (batchConfig c requests) model fuel (paddedPrompts c requests)
    let maxPrompt := promptWidth (requests.map RequestState.promptIds)
    return (List.zipWith (fun r row => resultOf c decode r (generatedAt maxPrompt r row)) requests
        output,
      { runner with genLength := c.genLength, earlyStop := c.earlyStop })

end FluxServe.Engine
