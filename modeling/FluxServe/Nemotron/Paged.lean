import FluxServe.Nemotron.Dense

namespace FluxServe.Engine

/-- One row of an offline batch. -/
structure OfflineRow where
  prompt : List Token
  generationLength : Nat
  stopOnEos : Bool
  deriving DecidableEq, Repr

inductive SpecPhase
  | draft
  | verify
  | done
  deriving DecidableEq, Repr

/-- `SpecRow`, with the KV in the pages of its slot. -/
structure SpecRow (M : NemotronModel) where
  generationLength : Nat
  prefixLength : Nat
  block : List Token
  seed : Token
  state : SpecPhase := .draft
  draftSteps : Nat := 0
  /-- No bound stands for "until the budget or the end of sequence". -/
  maxIterations : Option Nat := none
  terminal : Bool := false
  emitted : List Token := []
  iterations : Nat := 0
  stopOnEos : Bool := true
  forced : Nat := 0
  cache : List M.Kv

inductive BlockPhase
  | denoise
  | commit
  | done
  deriving DecidableEq, Repr

/-- `RowState` of the block loop, with the KV in the pages of its slot. -/
structure BlockRow (M : NemotronModel) where
  generationLength : Nat
  prefixLength : Nat
  blockBudget : Nat
  block : List Token
  seed : Token
  state : BlockPhase := .denoise
  denoiseSteps : Nat := 0
  terminal : Bool := false
  emitted : List (List Token) := []
  stopOnEos : Bool := true
  cache : List M.Kv

def SpecRow.active {M : NemotronModel} (r : SpecRow M) : Bool := r.state ≠ .done

def BlockRow.active {M : NemotronModel} (r : BlockRow M) : Bool := r.state ≠ .done

namespace NemotronRunner

variable {M : NemotronModel} (R : NemotronRunner M)

section SelfSpec

/-- The draft forward of one row, whose KV lands behind the prefix, and the step on its block. -/
def draftRow (r : SpecRow M) : Except NemotronFault (SpecRow M) :=
  let (logits,cache) := commit true false r.block r.prefixLength r.cache
  let block := R.draftStep logits r.block
  let draftSteps := r.draftSteps+1
  if !R.draftDecoder.hasMasks block then pure { r with block, draftSteps, cache, state := .verify }
  else if R.maxDenoiseSteps ≤ draftSteps then
    throw (.draftLeftMasks (block.count R.maskId) draftSteps r.prefixLength)
  else pure { r with block, draftSteps, cache }

/-- The verification of one row, the roll back and the next block. -/
def verifyRow (r : SpecRow M) : Except NemotronFault (SpecRow M) := do
  let (logits,cache) := commit false true r.block r.prefixLength r.cache
  let tokens := acceptedTokens (sampleTokens logits) r.block r.forced
  let (emitted,ends) := R.emit r.stopOnEos tokens
  let iterations := r.iterations+1
  let r := { r with
    cache
    forced := 0
    iterations
    draftSteps := 0
    prefixLength := r.prefixLength+tokens.length
    seed := tokens.getLastD r.seed
    emitted := r.emitted ++ emitted
    terminal := r.terminal || ends }
  if r.terminal || decide (r.generationLength ≤ r.emitted.length) ||
      r.maxIterations.any (fun n => decide (n ≤ iterations)) then
    return { r with state := .done }
  else
    let (block,forced) ← R.speculativeBlock r.seed (R.thinkingBudget.due r.emitted)
    return { r with block, forced, state := .draft }

/-- One turn of the loop of `_run_speculation`. -/
def speculationTurn (rows : List (SpecRow M)) : Except NemotronFault (List (SpecRow M)) :=
  twoPasses (fun r => r.state = .draft) (fun r => r.state = .verify) R.draftRow R.verifyRow rows

def runSpeculation (fuel : Nat) (rows : List (SpecRow M)) :
    Option (Except NemotronFault (List (SpecRow M))) :=
  tryLoop (moreRows SpecRow.active) R.speculationTurn fuel rows

/-- A row of `_prefill_spec_rows`; its slot holds nothing yet. -/
def prefillSpecRow (row : OfflineRow) : Except NemotronFault (SpecRow M) := do
  let (logits,cache) ← R.prefill row.prompt []
  let seed := R.seedFrom logits
  let terminal := row.stopOnEos && R.decoder.isEos seed
  return {
    generationLength := row.generationLength
    prefixLength := row.prompt.length
    block := R.maskedBlock seed
    seed
    stopOnEos := row.stopOnEos
    emitted := [seed]
    terminal
    state := if terminal || decide (row.generationLength ≤ 1) then .done else .draft
    cache }

/-- The positions that a batch may reach. -/
def specPositions (rows : List OfflineRow) : Nat :=
  (rows.map fun row => R.specLength row.prompt.length row.generationLength).max?.getD 0

/-- The generated tokens of a finished row. -/
def specOutput (r : SpecRow M) : Except NemotronFault (List Token) :=
  R.cutAtEos r.stopOnEos (r.emitted.take r.generationLength)

def startSpecRows (rows : List OfflineRow) : Except NemotronFault (List (SpecRow M)) := do
  R.checkContext (R.specPositions rows)
  rows.mapM R.prefillSpecRow

/-- `NemotronSelfSpecPagedRunner.generate`, up to the layout of its output. -/
def specGenerate (fuel : Nat) (rows : List OfflineRow) :
    Option (Except NemotronFault (List (List Token))) :=
  match R.startSpecRows rows with
  | .error e => some (throw e)
  | .ok rows => do
    let r ← R.runSpeculation fuel rows
    return r >>= fun rows => rows.mapM R.specOutput

end SelfSpec

section Diffusion

/-- Whether the block of a row ends its sequence before it is denoised. -/
def endsAtOnce (r : BlockRow M) : Bool := r.stopOnEos && R.decoder.eosIsTerminal r.block

/-- The next block of a row: it goes straight to its commit if it ends the sequence. -/
def enterBlock (r : BlockRow M) : BlockRow M :=
  let r := { r with block := R.thinkingBudget.apply (R.maskedBlock r.seed) r.emitted.flatten }
  if R.endsAtOnce r then { r with terminal := true, state := .commit }
  else { r with state := .denoise }

/-- The denoising forward of one row, whose KV lands behind the prefix, and the step. -/
def denoiseRow (r : BlockRow M) : Except NemotronFault (BlockRow M) :=
  let (logits,cache) := commit false false r.block r.prefixLength r.cache
  let block := R.decoder.step M.argmax M.confidence logits r.block
  let denoiseSteps := r.denoiseSteps+1
  let terminal := r.stopOnEos && R.decoder.eosIsTerminal block
  if !R.decoder.hasMasks block || terminal then
    pure { r with block, denoiseSteps, cache, terminal, state := .commit }
  else if R.maxDenoiseSteps ≤ denoiseSteps then
    throw (.blockBudgetExceeded (block.count R.maskId) R.maxDenoiseSteps r.prefixLength)
  else pure { r with block, denoiseSteps, cache }

/-- The commit of one row and its next block. -/
def commitRow (r : BlockRow M) : Except NemotronFault (BlockRow M) :=
  let (logits,cache) := commit false true r.block r.prefixLength r.cache
  let r := { r with
    cache
    emitted := r.emitted ++ [r.block]
    prefixLength := r.prefixLength+R.blockLength
    seed := R.seedFrom logits
    denoiseSteps := 0 }
  if r.terminal || decide (r.blockBudget ≤ r.emitted.length) then pure { r with state := .done }
  else pure (R.enterBlock r)

/-- One turn of the loop of `_run_block_loop`. -/
def blockTurn (rows : List (BlockRow M)) : Except NemotronFault (List (BlockRow M)) :=
  twoPasses (fun r => r.state = .denoise) (fun r => r.state = .commit) R.denoiseRow R.commitRow
    rows

def runBlockLoop (fuel : Nat) (rows : List (BlockRow M)) :
    Option (Except NemotronFault (List (BlockRow M))) :=
  tryLoop (moreRows BlockRow.active) R.blockTurn fuel rows

/-- A row of `_prefill_rows`; its slot holds nothing yet. -/
def prefillBlockRow (row : OfflineRow) : Except NemotronFault (BlockRow M) := do
  let (logits,cache) ← R.prefill row.prompt []
  let seed := R.seedFrom logits
  let padded := R.paddedGeneration row.generationLength
  let r : BlockRow M := {
    generationLength := row.generationLength
    prefixLength := row.prompt.length
    blockBudget := padded/R.blockLength
    block := R.thinkingBudget.apply (R.maskedBlock seed) []
    seed
    stopOnEos := row.stopOnEos
    cache }
  return if padded = 0 then { r with state := .done } else R.enterBlock r

/-- The positions that a batch may reach. -/
def blockPositions (rows : List OfflineRow) : Nat :=
  (rows.map fun row => row.prompt.length+R.paddedGeneration row.generationLength).max?.getD 0

/-- What `_assemble` takes of a finished row. -/
def blockOutput (r : BlockRow M) : Except NemotronFault (List Token) :=
  R.cutAtEos r.stopOnEos (r.emitted.flatten.take r.generationLength)

def startBlockRows (rows : List OfflineRow) : Except NemotronFault (List (BlockRow M)) := do
  R.checkContext (R.blockPositions rows)
  rows.mapM R.prefillBlockRow

/-- `NemotronFA4DiffusionRunner.generate`, up to the layout of its output. -/
def diffusionGenerate (fuel : Nat) (rows : List OfflineRow) :
    Option (Except NemotronFault (List (List Token))) :=
  match R.startBlockRows rows with
  | .error e => some (throw e)
  | .ok rows => do
    let r ← R.runBlockLoop fuel rows
    return r >>= fun rows => rows.mapM R.blockOutput

end Diffusion

end NemotronRunner

end FluxServe.Engine
