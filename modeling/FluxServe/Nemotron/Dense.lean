import FluxServe.Framework.RowLoop
import FluxServe.Nemotron.Decoder

namespace FluxServe.Engine

/-- The checkpoint as the runners use it on one row: a forward reads the row's own KV below its
offset and the tokens, and gives each token its KV and its logits. The draft adapter is on or off
and attention within the tokens is causal or not. -/
structure NemotronModel where
  Kv : Type
  Logits : Type
  Confidence : Type
  linear : LinearOrder Confidence
  zero : Kv
  forward : (adapter causal : Bool) → (past : List Kv) → (tokens : List Token) → List (Kv × Logits)
  forward_length : ∀ adapter causal past tokens,
    (forward adapter causal past tokens).length = tokens.length
  argmax : Logits → Token
  confidence : Logits → Confidence

attribute [instance] NemotronModel.linear

/-- What a Nemotron runner holds besides its model. Sampling is greedy. -/
structure NemotronRunner (M : NemotronModel) where
  blockLength : Nat
  blockLength_pos : 0 < blockLength
  /-- `steps` of the runner's configuration; zero stands for the block length. -/
  steps : Nat := 0
  prefillChunkSize : Nat := 1024
  prefillChunkSize_pos : 0 < prefillChunkSize
  decoder : ThresholdDecoder M.Confidence
  draftThreshold : M.Confidence
  thinkingBudget : ThinkingBudget := {}
  positionLimit : Nat

namespace NemotronRunner

theorem prefillChunk_pos : 0 < 1024 := by decide

variable {M : NemotronModel} (R : NemotronRunner M)

def maxDenoiseSteps : Nat := if 0 < R.steps then R.steps else R.blockLength

def draftDecoder : ThresholdDecoder M.Confidence := { R.decoder with threshold := R.draftThreshold }

def maskId : Token := R.decoder.maskId

def checkContext (totalLength : Nat) : Except NemotronFault Unit :=
  if totalLength ≤ R.positionLimit then pure () else throw (.contextLimit totalLength R.positionLimit)

/-- `sample_tokens` without a temperature. -/
def sampleTokens (logits : List M.Logits) : List Token := logits.map M.argmax

/-- `_seed_from`: the token after the last position; every forward has one. -/
def seedFrom (logits : List M.Logits) : Token := (sampleTokens logits).getLastD R.maskId

/-- `_commit_kv`: write the newly produced slots back into the prefix cache. -/
def commitKv (cache values : List M.Kv) (start : Nat) : List M.Kv :=
  cache.take start ++ values ++ cache.drop (start+values.length)

/-- One forward after `start` positions that writes its KV back. -/
def commit (adapter causal : Bool) (tokens : List Token) (start : Nat) (cache : List M.Kv) :
    List M.Logits × List M.Kv :=
  let out := M.forward adapter causal (cache.take start) tokens
  (out.map Prod.snd,commitKv cache (out.map Prod.fst) start)

/-- A denoising forward, which leaves the cache alone. -/
def denoise (adapter : Bool) (block : List Token) (prefixLength : Nat) (cache : List M.Kv) :
    List M.Logits :=
  (M.forward adapter false (cache.take prefixLength) block).map Prod.snd

/-- One chunk of the prefill, from `start`. -/
def prefillChunk (prompt : List Token) (done : List M.Logits × List M.Kv) (start : Nat) :
    List M.Logits × List M.Kv :=
  commit false true ((prompt.drop start).take R.prefillChunkSize) start done.2

/-- `range(0, length, chunk_size)`. -/
def chunkStarts (length : Nat) : List Nat :=
  (List.range ((length+R.prefillChunkSize-1)/R.prefillChunkSize)).map (· * R.prefillChunkSize)

/-- `_prefill`: the logits of the last chunk and the cache of the whole prompt. -/
def prefill (prompt : List Token) (cache : List M.Kv) :
    Except NemotronFault (List M.Logits × List M.Kv) :=
  if prompt.isEmpty then throw .emptyPrompt
  else pure ((R.chunkStarts prompt.length).foldl (R.prefillChunk prompt) ([],cache))

/-- A block of masks after the seed. -/
def maskedBlock (seed : Token) : List Token :=
  (List.replicate R.blockLength R.maskId).set 0 seed

/-- What is left of the generated tokens when they are cut at the first end of sequence. -/
def cutAtEos (stop : Bool) (generated : List Token) : Except NemotronFault (List Token) :=
  if stop then do
    let cut ← R.decoder.firstEosIndex generated
    return generated.take (min (cut+1) generated.length)
  else pure generated

section Diffusion

/-- The denoising steps of a block, at most `n` of them. -/
def denoiseSteps (stop : Bool) (prefixLength : Nat) (cache : List M.Kv) :
    Nat → List Token → List Token
  | 0,block => block
  | n+1,block =>
    if R.decoder.hasMasks block then
      let block := R.decoder.step M.argmax M.confidence (denoise false block prefixLength cache) block
      if !R.decoder.hasMasks block || (stop && R.decoder.eosIsTerminal block) then block
      else denoiseSteps stop prefixLength cache n block
    else block

def denoiseBlock (stop : Bool) (block : List Token) (prefixLength : Nat) (cache : List M.Kv) :
    Except NemotronFault (List Token) :=
  let block := R.denoiseSteps stop prefixLength cache R.maxDenoiseSteps block
  if R.decoder.hasMasks block && !(stop && R.decoder.eosIsTerminal block) then
    throw (.blockBudgetExceeded (block.count R.maskId) R.maxDenoiseSteps prefixLength)
  else pure block

/-- The variables of the block loop of `NemotronDiffusionRunner._generate_one`. -/
structure BlockState (M : NemotronModel) where
  cache : List M.Kv
  prefixLength : Nat
  seed : Token
  emitted : List (List Token) := []
  /-- Whether the loop was left at a terminal block. -/
  left : Bool := false

/-- The whole blocks that serve a generation length. -/
def paddedGeneration (generationLength : Nat) : Nat :=
  (generationLength+R.blockLength-1)/R.blockLength*R.blockLength

def blocksRemain (generationLength : Nat) (s : BlockState M) : Bool :=
  !s.left && decide (s.emitted.length*R.blockLength < R.paddedGeneration generationLength)

/-- One block: denoise it, unless its seed ends the sequence, then commit it. -/
def generateBlock (stop : Bool) (s : BlockState M) : Except NemotronFault (BlockState M) := do
  let block := R.thinkingBudget.apply (R.maskedBlock s.seed) s.emitted.flatten
  let (block,terminal) ←
    if stop && R.decoder.eosIsTerminal block then pure (block,true)
    else do
      let block ← R.denoiseBlock stop block s.prefixLength s.cache
      pure (block,R.decoder.eosIsTerminal block)
  let (logits,cache) := commit false true block s.prefixLength s.cache
  return {
    cache
    prefixLength := s.prefixLength+R.blockLength
    seed := R.seedFrom logits
    emitted := s.emitted ++ [block]
    left := stop && terminal }

def startBlocks (prompt : List Token) (generationLength : Nat) :
    Except NemotronFault (BlockState M) := do
  let totalLength := prompt.length+R.paddedGeneration generationLength
  R.checkContext totalLength
  let (logits,cache) ← R.prefill prompt (List.replicate totalLength M.zero)
  return { cache, prefixLength := prompt.length, seed := R.seedFrom logits }

/-- `NemotronDiffusionRunner._generate_one`; `stop` is its `early_stop`. -/
def diffusionGenerateOne (fuel : Nat) (stop : Bool) (prompt : List Token)
    (generationLength : Nat) : Option (Except NemotronFault (List Token)) :=
  if generationLength = 0 then some (pure [])
  else
    match R.startBlocks prompt generationLength with
    | .error e => some (throw e)
    | .ok s => do
      let r ← tryLoop (R.blocksRemain generationLength) (R.generateBlock stop) fuel s
      return r >>= fun s => R.cutAtEos stop (s.emitted.flatten.take generationLength)

end Diffusion

section SelfSpec

/-- A masked block, with the end-of-thinking marker after its seed if that is due; and how many
positions are forced so. -/
def speculativeBlock (seed : Token) (marker : Option Token) :
    Except NemotronFault (List Token × Nat) :=
  match marker with
  | none => pure (R.maskedBlock seed,0)
  | some t =>
    if 1 < R.blockLength then pure ((R.maskedBlock seed).set 1 t,1) else throw .indexOutOfRange

/-- One draft step, on the logits of a forward with the adapter. -/
def draftStep (logits : List M.Logits) (block : List Token) : List Token :=
  R.draftDecoder.step M.argmax M.confidence logits block

def draftSteps (prefixLength : Nat) (cache : List M.Kv) : Nat → List Token → List Token
  | 0,block => block
  | n+1,block =>
    if R.draftDecoder.hasMasks block then
      draftSteps prefixLength cache n (R.draftStep (denoise true block prefixLength cache) block)
    else block

def draftBlock (block : List Token) (prefixLength : Nat) (cache : List M.Kv) :
    Except NemotronFault (List Token) :=
  let block := R.draftSteps prefixLength cache R.maxDenoiseSteps block
  if R.draftDecoder.hasMasks block then
    throw (.draftLeftMasks (block.count R.maskId) R.maxDenoiseSteps prefixLength)
  else pure block

/-- The verified tokens up to and with the first that the draft does not guess. -/
def matching : (verified guesses : List Token) → List Token
  | [],_ => []
  | v :: _,[] => [v]
  | v :: verified,g :: guesses => if v = g then v :: matching verified guesses else [v]

/-- `accepted_tokens`: the token verified at a position is compared with the draft at the next. -/
def acceptedTokens (verified drafted : List Token) (forced : Nat) : List Token :=
  (drafted.drop 1).take forced ++ matching (verified.drop forced) (drafted.drop (forced+1))

/-- The tokens up to and with the first end of sequence, and whether there is one. -/
def emit (stop : Bool) : List Token → List Token × Bool
  | [] => ([],false)
  | t :: tokens =>
    if stop && R.decoder.isEos t then ([t],true)
    else (t :: (emit stop tokens).1,(emit stop tokens).2)

/-- The variables of the loop of `NemotronSelfSpecRunner._generate_one`; `marker` is what
`force_marker` says, with the token to be forced. -/
structure SpecState (M : NemotronModel) where
  cache : List M.Kv
  prefixLength : Nat
  nextToken : Token
  emitted : List Token
  terminal : Bool
  marker : Option Token

def specRemains (generationLength : Nat) (s : SpecState M) : Bool :=
  decide (s.emitted.length < generationLength) && !s.terminal

/-- One draft, its verification and the roll back to what was accepted. -/
def speculate (stop : Bool) (generationLength : Nat) (s : SpecState M) :
    Except NemotronFault (SpecState M) := do
  let (block,forced) ← R.speculativeBlock s.nextToken s.marker
  let drafted ← R.draftBlock block s.prefixLength s.cache
  let (logits,cache) := commit false true drafted s.prefixLength s.cache
  let accepted := acceptedTokens (sampleTokens logits) drafted forced
  let (tokens,terminal) := R.emit stop accepted
  let emitted := s.emitted ++ tokens
  return {
    cache
    prefixLength := s.prefixLength+accepted.length
    nextToken := accepted.getLastD s.nextToken
    emitted
    terminal
    marker :=
      if generationLength ≤ emitted.length then s.marker else R.thinkingBudget.due emitted }

/-- The length of the cache: one speculative block beyond the budget. -/
def specLength (promptLength generationLength : Nat) : Nat :=
  promptLength+generationLength+R.blockLength

def startSpec (stop : Bool) (prompt : List Token) (generationLength : Nat) :
    Except NemotronFault (SpecState M) := do
  let totalLength := R.specLength prompt.length generationLength
  R.checkContext totalLength
  let (logits,cache) ← R.prefill prompt (List.replicate totalLength M.zero)
  let nextToken := R.seedFrom logits
  return {
    cache
    prefixLength := prompt.length
    nextToken
    emitted := [nextToken]
    terminal := stop && R.decoder.isEos nextToken
    marker := R.thinkingBudget.due [nextToken] }

/-- `NemotronSelfSpecRunner._generate_one`; `stop` is its `early_stop`. -/
def specGenerateOne (fuel : Nat) (stop : Bool) (prompt : List Token) (generationLength : Nat) :
    Option (Except NemotronFault (List Token)) :=
  if generationLength = 0 then some (pure [])
  else
    match R.startSpec stop prompt generationLength with
    | .error e => some (throw e)
    | .ok s => do
      let r ← tryLoop (specRemains generationLength) (R.speculate stop generationLength) fuel s
      return r >>= fun s => R.cutAtEos stop (s.emitted.take generationLength)

end SelfSpec

end NemotronRunner

end FluxServe.Engine
