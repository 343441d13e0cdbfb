import FluxServe.Nemotron.PlanProof

namespace FluxServe.Engine

/-- `NemotronSampling`: what is drawn for the logits of some positions, in whatever state the
generator of a request is, and the confidence of a drawn token, which a draft scales by the
temperature. -/
structure NemotronSampling (M : NemotronModel) where
  Generator : Type
  categorical : Generator → List M.Logits → List Token × Generator
  diffusion : Generator → List M.Logits → List Token × Generator
  confidence : Generator → (draft : Bool) → M.Logits → Token → M.Confidence

namespace NemotronSampling

open NemotronRunner (denoise commit acceptedTokens)

variable {M : NemotronModel} (S : NemotronSampling M) (R : NemotronRunner M)

/-- `select` of a decoder or of a draft decoder, up to the transfer: the token at each position and
its confidence. -/
def select (draft : Bool) (g : S.Generator) (logits : List M.Logits) :
    List (Token × M.Confidence) × S.Generator :=
  let (predicted,g') := if draft then S.categorical g logits else S.diffusion g logits
  (List.zipWith (fun l t => (t,S.confidence g draft l t)) logits predicted,g')

/-- `step` of the decoder with sampling. -/
def step (g : S.Generator) (logits : List M.Logits) (block : List Token) :
    List Token × S.Generator :=
  let (drawn,g) := S.select false g logits
  (R.decoder.step Prod.fst Prod.snd drawn block,g)

/-- `step` of the draft decoder with sampling. -/
def draftStep (g : S.Generator) (logits : List M.Logits) (block : List Token) :
    List Token × S.Generator :=
  let (drawn,g) := S.select true g logits
  (R.draftDecoder.step Prod.fst Prod.snd drawn block,g)

/-- `_seed_from` with sampling. -/
def seedFrom (g : S.Generator) (logits : List M.Logits) : Token × S.Generator :=
  let (tokens,g) := S.categorical g logits.getLast?.toList
  (tokens.headD R.maskId,g)

section Dense

def denoiseSteps (stop : Bool) (prefixLength : Nat) (cache : List M.Kv) :
    Nat → List Token → S.Generator → List Token × S.Generator
  | 0,block,g => (block,g)
  | n+1,block,g =>
    if R.decoder.hasMasks block then
      let (block,g) := S.step R g (denoise false block prefixLength cache) block
      if !R.decoder.hasMasks block || (stop && R.decoder.eosIsTerminal block) then (block,g)
      else denoiseSteps stop prefixLength cache n block g
    else (block,g)

def denoiseBlock (stop : Bool) (block : List Token) (prefixLength : Nat) (cache : List M.Kv)
    (g : S.Generator) : Except NemotronFault (List Token × S.Generator) :=
  let (block,g) := S.denoiseSteps R stop prefixLength cache R.maxDenoiseSteps block g
  if R.decoder.hasMasks block && !(stop && R.decoder.eosIsTerminal block) then
    throw (.blockBudgetExceeded (block.count R.maskId) R.maxDenoiseSteps prefixLength)
  else pure (block,g)

/-- One block of `NemotronDiffusionRunner._generate_one`. -/
def generateBlock (stop : Bool) (x : NemotronRunner.BlockState M × S.Generator) :
    Except NemotronFault (NemotronRunner.BlockState M × S.Generator) := do
  let (s,g) := x
  let block := R.thinkingBudget.apply (R.maskedBlock s.seed) s.emitted.flatten
  let (block,terminal,g) ←
    if stop && R.decoder.eosIsTerminal block then pure (block,true,g)
    else do
      let (block,g) ← S.denoiseBlock R stop block s.prefixLength s.cache g
      pure (block,R.decoder.eosIsTerminal block,g)
  let (logits,cache) := commit false true block s.prefixLength s.cache
  let (seed,g) := S.seedFrom R g logits
  return ({
    cache
    prefixLength := s.prefixLength+R.blockLength
    seed
    emitted := s.emitted ++ [block]
    left := stop && terminal },g)

def startBlocks (prompt : List Token) (generationLength : Nat) (g : S.Generator) :
    Except NemotronFault (NemotronRunner.BlockState M × S.Generator) := do
  let totalLength := prompt.length+R.paddedGeneration generationLength
  R.checkContext totalLength
  let (logits,cache) ← R.prefill prompt (List.replicate totalLength M.zero)
  let (seed,g) := S.seedFrom R g logits
  return ({ cache, prefixLength := prompt.length, seed },g)

/-- `NemotronDiffusionRunner._generate_one`; `stop` is its `early_stop`. -/
def diffusionGenerateOne (fuel : Nat) (stop : Bool) (prompt : List Token)
    (generationLength : Nat) (g : S.Generator) : Option (Except NemotronFault (List Token)) :=
  if generationLength = 0 then some (pure [])
  else
    match S.startBlocks R prompt generationLength g with
    | .error e => some (throw e)
    | .ok x => do
      let r ← tryLoop (fun x => R.blocksRemain generationLength x.1) (S.generateBlock R stop) fuel x
      return r >>= fun x => R.cutAtEos stop (x.1.emitted.flatten.take generationLength)

def draftSteps (prefixLength : Nat) (cache : List M.Kv) :
    Nat → List Token → S.Generator → List Token × S.Generator
  | 0,block,g => (block,g)
  | n+1,block,g =>
    if R.draftDecoder.hasMasks block then
      let (block,g) := S.draftStep R g (denoise true block prefixLength cache) block
      draftSteps prefixLength cache n block g
    else (block,g)

def draftBlock (block : List Token) (prefixLength : Nat) (cache : List M.Kv) (g : S.Generator) :
    Except NemotronFault (List Token × S.Generator) :=
  let (block,g) := S.draftSteps R prefixLength cache R.maxDenoiseSteps block g
  if R.draftDecoder.hasMasks block then
    throw (.draftLeftMasks (block.count R.maskId) R.maxDenoiseSteps prefixLength)
  else pure (block,g)

/-- One turn of the loop of `NemotronSelfSpecRunner._generate_one`. -/
def speculate (stop : Bool) (generationLength : Nat)
    (x : NemotronRunner.SpecState M × S.Generator) :
    Except NemotronFault (NemotronRunner.SpecState M × S.Generator) := do
  let (s,g) := x
  let (block,forced) ← R.speculativeBlock s.nextToken s.marker
  let (drafted,g) ← S.draftBlock R block s.prefixLength s.cache g
  let (logits,cache) := commit false true drafted s.prefixLength s.cache
  let (verified,g) := S.categorical g logits
  let accepted := acceptedTokens verified drafted forced
  let (tokens,terminal) := R.emit stop accepted
  let emitted := s.emitted ++ tokens
  return ({
    cache
    prefixLength := s.prefixLength+accepted.length
    nextToken := accepted.getLastD s.nextToken
    emitted
    terminal
    marker :=
      if generationLength ≤ emitted.length then s.marker else R.thinkingBudget.due emitted },g)

def startSpec (stop : Bool) (prompt : List Token) (generationLength : Nat) (g : S.Generator) :
    Except NemotronFault (NemotronRunner.SpecState M × S.Generator) := do
  let totalLength := R.specLength prompt.length generationLength
  R.checkContext totalLength
  let (logits,cache) ← R.prefill prompt (List.replicate totalLength M.zero)
  let (nextToken,g) := S.seedFrom R g logits
  return ({
    cache
    prefixLength := prompt.length
    nextToken
    emitted := [nextToken]
    terminal := stop && R.decoder.isEos nextToken
    marker := R.thinkingBudget.due [nextToken] },g)

/-- `NemotronSelfSpecRunner._generate_one`; `stop` is its `early_stop`. -/
def specGenerateOne (fuel : Nat) (stop : Bool) (prompt : List Token) (generationLength : Nat)
    (g : S.Generator) : Option (Except NemotronFault (List Token)) :=
  if generationLength = 0 then some (pure [])
  else
    match S.startSpec R stop prompt generationLength g with
    | .error e => some (throw e)
    | .ok x => do
      let r ← tryLoop (fun x => NemotronRunner.specRemains generationLength x.1)
        (S.speculate R stop generationLength) fuel x
      return r >>= fun x => R.cutAtEos stop (x.1.emitted.take generationLength)

end Dense

section Rows

/-- The denoising forward of a row and the step, with the `sampling` of the row. -/
def denoiseRow (x : BlockRow M × S.Generator) :
    Except NemotronFault (BlockRow M × S.Generator) :=
  let (r,g) := x
  let (logits,cache) := commit false false r.block r.prefixLength r.cache
  let (block,g) := S.step R g logits r.block
  let denoiseSteps := r.denoiseSteps+1
  let terminal := r.stopOnEos && R.decoder.eosIsTerminal block
  if !R.decoder.hasMasks block || terminal then
    pure ({ r with block, denoiseSteps, cache, terminal, state := .commit },g)
  else if R.maxDenoiseSteps ≤ denoiseSteps then
    throw (.blockBudgetExceeded (block.count R.maskId) R.maxDenoiseSteps r.prefixLength)
  else pure ({ r with block, denoiseSteps, cache },g)

/-- The commit of a row and its next block, with the `sampling` of the row. -/
def commitRow (x : BlockRow M × S.Generator) :
    Except NemotronFault (BlockRow M × S.Generator) :=
  let (r,g) := x
  let (logits,cache) := commit false true r.block r.prefixLength r.cache
  let (seed,g) := S.seedFrom R g logits
  let r := { r with
    cache
    emitted := r.emitted ++ [r.block]
    prefixLength := r.prefixLength+R.blockLength
    seed
    denoiseSteps := 0 }
  if r.terminal || decide (r.blockBudget ≤ r.emitted.length) then pure ({ r with state := .done },g)
  else pure (R.enterBlock r,g)

/-- One turn of the loop of `_run_block_loop`. -/
def blockTurn (rows : List (BlockRow M × S.Generator)) :
    Except NemotronFault (List (BlockRow M × S.Generator)) :=
  twoPasses (fun x => x.1.state = .denoise) (fun x => x.1.state = .commit) (S.denoiseRow R)
    (S.commitRow R) rows

def runBlockLoop (fuel : Nat) (rows : List (BlockRow M × S.Generator)) :
    Option (Except NemotronFault (List (BlockRow M × S.Generator))) :=
  tryLoop (moreRows fun x => x.1.active) (S.blockTurn R) fuel rows

/-- A row of `_prefill_rows` with its entry of `_offline_sampling`. -/
def prefillBlockRow (x : OfflineRow × S.Generator) :
    Except NemotronFault (BlockRow M × S.Generator) := do
  let (row,g) := x
  let (logits,cache) ← R.prefill row.prompt []
  let (seed,g) := S.seedFrom R g logits
  let padded := R.paddedGeneration row.generationLength
  let r : BlockRow M := {
    generationLength := row.generationLength
    prefixLength := row.prompt.length
    blockBudget := padded/R.blockLength
    block := R.thinkingBudget.apply (R.maskedBlock seed) []
    seed
    stopOnEos := row.stopOnEos
    cache }
  return (if padded = 0 then { r with state := .done } else R.enterBlock r,g)

def startBlockRows (rows : List (OfflineRow × S.Generator)) :
    Except NemotronFault (List (BlockRow M × S.Generator)) := do
  R.checkContext (R.blockPositions (rows.map Prod.fst))
  rows.mapM (S.prefillBlockRow R)

/-- `NemotronFA4DiffusionRunner.generate`, up to the layout of its output. -/
def diffusionGenerate (fuel : Nat) (rows : List (OfflineRow × S.Generator)) :
    Option (Except NemotronFault (List (List Token))) :=
  match S.startBlockRows R rows with
  | .error e => some (throw e)
  | .ok rows => do
    let r ← S.runBlockLoop R fuel rows
    return r >>= fun rows => rows.mapM fun x => R.blockOutput x.1

/-- The draft forward of a row and the step, with the `sampling` of the row. -/
def draftRow (x : SpecRow M × S.Generator) : Except NemotronFault (SpecRow M × S.Generator) :=
  let (r,g) := x
  let (logits,cache) := commit true false r.block r.prefixLength r.cache
  let (block,g) := S.draftStep R g logits r.block
  let draftSteps := r.draftSteps+1
  if !R.draftDecoder.hasMasks block then
    pure ({ r with block, draftSteps, cache, state := .verify },g)
  else if R.maxDenoiseSteps ≤ draftSteps then
    throw (.draftLeftMasks (block.count R.maskId) draftSteps r.prefixLength)
  else pure ({ r with block, draftSteps, cache },g)

/-- The verification of a row, the roll back and the next block, with the `sampling` of the row. -/
def verifyRow (x : SpecRow M × S.Generator) : Except NemotronFault (SpecRow M × S.Generator) := do
  let (r,g) := x
  let (logits,cache) := commit false true r.block r.prefixLength r.cache
  let (verified,g) := S.categorical g logits
  let tokens := acceptedTokens verified r.block r.forced
  let (emitted,ends) := R.emit r.stopOnEos tokens
  let iterations := r.iterations+1
  let r := { r with
    cache
    forced := 0
    iterations
    draftSteps := 0
    prefixLength := r.prefixLength+tokens.length
    seed := tokens.getLastD r.seed
    emitted := r.emitted ++ emitted
    terminal := r.terminal || ends }
  if r.terminal || decide (r.generationLength ≤ r.emitted.length) ||
      r.maxIterations.any (fun n => decide (n ≤ iterations)) then
    return ({ r with state := .done },g)
  else
    let (block,forced) ← R.speculativeBlock r.seed (R.thinkingBudget.due r.emitted)
    return ({ r with block, forced, state := .draft },g)

/-- One turn of the loop of `_run_speculation`. -/
def speculationTurn (rows : List (SpecRow M × S.Generator)) :
    Except NemotronFault (List (SpecRow M × S.Generator)) :=
  twoPasses (fun x => x.1.state = .draft) (fun x => x.1.state = .verify) (S.draftRow R)
    (S.verifyRow R) rows

def runSpeculation (fuel : Nat) (rows : List (SpecRow M × S.Generator)) :
    Option (Except NemotronFault (List (SpecRow M × S.Generator))) :=
  tryLoop (moreRows fun x => x.1.active) (S.speculationTurn R) fuel rows

end Rows

section Online

/-- The settings of `NemotronFA4DiffusionRunner._plan_decode`, where `_sampling_for_request` gives
these generators. -/
def blockDiffusion (generators : RequestId → S.Generator) : PagedRunner M where
  Row := BlockRow M × S.Generator
  speculates := R.blockDiffusion.speculates
  enter rid state s := do return (← R.enterPlanBlock rid state s,generators rid)
  run := S.runBlockLoop R
  settle x s := R.blockDiffusion.settle x.1 s
  result rid state s x := R.blockDiffusion.result rid state s x.1

/-- The settings of `NemotronSelfSpecPagedRunner._plan_speculate`, where `_sampling_for_request`
gives these generators. -/
def speculation (generators : RequestId → S.Generator) : PagedRunner M where
  Row := SpecRow M × S.Generator
  speculates := R.speculation.speculates
  enter rid state s := do return (← R.enterSpecRow rid state s,generators rid)
  run := S.runSpeculation R
  settle x s := R.speculation.settle x.1 s
  result rid state s x := R.speculation.result rid state s x.1

/-- The seed of a prompt that this prefill row has brought to its end, drawn and not the argmax. -/
def reseed (p : PrefillRow) (seed : Token) (s : Slot M) : Slot M :=
  match s.state with
  | none => s
  | some state =>
    if p.offset+p.tokens.length < state.inputIds.length then s
    else { s with requestSeed := s.requestSeed.map fun _ => seed }

/-- `_execute_forward_op` with sampling. The seeds of its prefill rows are drawn from the logits of
their last positions; nothing else in the call reads them. -/
def executeForwardOp (K : PagedRunner M) (generators : RequestId → S.Generator) (fuel : Nat)
    (op : PlanOp) (w : Served M) : Option (List StepResult × Served M) := do
  let (results,w') ← K.executeForwardOp R fuel op w
  return (results,patch w' (op.prefills.map fun p =>
    (p.rid,reseed p (S.seedFrom R (generators p.rid)
      (commit false true p.tokens p.offset (w p.rid).cache).1).1 (w' p.rid))))

/-- One request in the plan calls of a runner that samples: its prompt in chunks, then decode rows,
with whatever concerns only others in between. At each call the generators of the requests may be
in any state. -/
inductive Serving (K : (RequestId → S.Generator) → PagedRunner M) (rid : RequestId)
    (prompt : List Token) (w₀ : Served M) : Nat → List StepResult → Served M → Prop
  | start : Serving K rid prompt w₀ 0 [] w₀
  | other {done : Nat} {results : List StepResult} {w w' : Served M}
      (run : Serving K rid prompt w₀ done results w) (same : w' rid = w rid) :
      Serving K rid prompt w₀ done results w'
  | prefill {done fuel : Nat} {results returned : List StepResult} {w w' : Served M}
      {op : PlanOp} {p : PrefillRow} {generators : RequestId → S.Generator}
      (run : Serving K rid prompt w₀ done results w)
      (row : p ∈ op.prefills) (own : p.rid = rid) (offset : p.offset = done)
      (chunk : p.tokens <+: prompt.drop done)
      (call : S.executeForwardOp R (K generators) generators fuel op w = some (returned,w')) :
      Serving K rid prompt w₀ (done+p.tokens.length) (results ++ resultsOf rid returned) w'
  | decode {fuel : Nat} {results returned : List StepResult} {w w' : Served M} {op : PlanOp}
      {generators : RequestId → S.Generator}
      (run : Serving K rid prompt w₀ prompt.length results w) (row : rid ∈ op.decodes)
      (call : S.executeForwardOp R (K generators) generators fuel op w = some (returned,w')) :
      Serving K rid prompt w₀ prompt.length (results ++ resultsOf rid returned) w'

end Online

end NemotronSampling

end FluxServe.Engine
