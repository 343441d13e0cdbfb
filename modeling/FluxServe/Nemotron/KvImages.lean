import FluxServe.Nemotron.BlockAgreement
import FluxServe.Nemotron.Speculation

namespace FluxServe.Engine

/-- The same checkpoint with another layout of its KV: what a forward gives over the images of the
KV is the image of what it gives. -/
structure KvImage (M : NemotronModel) where
  Kv : Type
  zero : Kv
  forward : (adapter causal : Bool) → List Kv → List Token → List (Kv × M.Logits)
  forward_length : ∀ adapter causal past tokens,
    (forward adapter causal past tokens).length = tokens.length
  image : M.Kv → Kv
  zero_eq : zero = image M.zero
  forward_eq : ∀ adapter causal past tokens, forward adapter causal (past.map image) tokens =
    (M.forward adapter causal past tokens).map fun x => (image x.1,x.2)

namespace KvImage

variable {M : NemotronModel} (I : KvImage M)

def model : NemotronModel := { M with
  Kv := I.Kv, zero := I.zero, forward := I.forward, forward_length := I.forward_length }

def toKv (kv : M.Kv) : I.model.Kv := I.image kv

def toLogits (logits : M.Logits) : I.model.Logits := logits

def toOut (x : M.Kv × M.Logits) : I.model.Kv × I.model.Logits := (I.toKv x.1,I.toLogits x.2)

theorem forward_map (adapter causal : Bool) (past : List M.Kv) (tokens : List Token) :
    I.model.forward adapter causal (past.map I.toKv) tokens =
      (M.forward adapter causal past tokens).map I.toOut :=
  I.forward_eq adapter causal past tokens

theorem map_fst (out : List (M.Kv × M.Logits)) :
    (out.map I.toOut).map Prod.fst = (out.map Prod.fst).map I.toKv := by
  rw [List.map_map,List.map_map]
  rfl

theorem map_snd (out : List (M.Kv × M.Logits)) :
    (out.map I.toOut).map Prod.snd = (out.map Prod.snd).map I.toLogits := by
  rw [List.map_map,List.map_map]
  rfl

/-- The runner with the same settings. -/
def runner (R : NemotronRunner M) : NemotronRunner I.model where
  blockLength := R.blockLength
  blockLength_pos := R.blockLength_pos
  steps := R.steps
  prefillChunkSize := R.prefillChunkSize
  prefillChunkSize_pos := R.prefillChunkSize_pos
  decoder := R.decoder
  draftThreshold := R.draftThreshold
  thinkingBudget := R.thinkingBudget
  positionLimit := R.positionLimit

theorem forward_nil (adapter causal : Bool) (tokens : List Token) :
    I.model.forward adapter causal [] tokens =
      (M.forward adapter causal [] tokens).map I.toOut :=
  I.forward_map adapter causal [] tokens

/-- A causal checkpoint is causal in any layout. -/
theorem causal (hm : M.Causal) : I.model.Causal := by
  intro ts tokens
  have hkv : I.model.causalKv ts = (M.causalKv ts).map I.toKv := by
    unfold NemotronModel.causalKv
    rw [forward_nil,map_fst]
  rw [forward_nil,forward_nil,hkv,forward_map,← List.map_append,← hm]

open NemotronRunner

variable (R : NemotronRunner M)

theorem commitKv_map (cache values : List M.Kv) (start : Nat) :
    commitKv (cache.map I.toKv) (values.map I.toKv) start =
      (commitKv cache values start).map I.toKv := by
  simp only [commitKv,List.map_append,List.map_take,List.map_drop,List.length_map]

/-- Logits and the KV of a row in the other layout. -/
def toRow (x : List M.Logits × List M.Kv) : List I.model.Logits × List I.model.Kv :=
  (x.1.map I.toLogits,x.2.map I.toKv)

theorem commit_map (adapter causal : Bool) (tokens : List Token) (start : Nat)
    (cache : List M.Kv) :
    commit adapter causal tokens start (cache.map I.toKv) =
      I.toRow (commit adapter causal tokens start cache) := by
  simp only [commit,← List.map_take,forward_map,map_fst,map_snd,commitKv_map,toRow]

theorem denoise_map (adapter : Bool) (block : List Token) (prefixLength : Nat)
    (cache : List M.Kv) :
    denoise adapter block prefixLength (cache.map I.toKv) =
      (denoise adapter block prefixLength cache).map I.toLogits := by
  simp only [denoise,← List.map_take,forward_map,map_snd]

theorem prefill_map (prompt : List Token) (cache : List M.Kv) :
    (I.runner R).prefill prompt (cache.map I.toKv) = (R.prefill prompt cache).map I.toRow := by
  have hchunks : ∀ (starts : List Nat) (done : List M.Logits × List M.Kv),
      starts.foldl ((I.runner R).prefillChunk prompt) (I.toRow done) =
        I.toRow (starts.foldl (R.prefillChunk prompt) done) := by
    intro starts
    induction starts with
    | nil => exact fun _ => rfl
    | cons start starts ih =>
      intro done
      rw [List.foldl_cons,List.foldl_cons,← ih]
      exact congrArg (starts.foldl ((I.runner R).prefillChunk prompt))
        (I.commit_map false true _ start done.2)
  unfold prefill
  split
  · rfl
  · exact congrArg Except.ok (hchunks (R.chunkStarts prompt.length) ([],cache))

theorem seedFrom_map (logits : List M.Logits) :
    (I.runner R).seedFrom (logits.map I.toLogits) = R.seedFrom logits := by
  simp only [seedFrom,sampleTokens,List.map_map]
  rfl

theorem step_map (logits : List M.Logits) (block : List Token) :
    (I.runner R).decoder.step I.model.argmax I.model.confidence (logits.map I.toLogits) block =
      R.decoder.step M.argmax M.confidence logits block := by
  have hid : logits.map I.toLogits = logits := List.map_id' logits
  rw [hid]
  rfl

theorem denoiseSteps_map (stop : Bool) (prefixLength : Nat) (cache : List M.Kv) (n : Nat)
    (block : List Token) :
    (I.runner R).denoiseSteps stop prefixLength (cache.map I.toKv) n block =
      R.denoiseSteps stop prefixLength cache n block := by
  induction n generalizing block with
  | zero => rfl
  | succ n ih =>
    simp only [denoiseSteps,denoise_map,step_map,ih]
    rfl

theorem denoiseBlock_map (stop : Bool) (block : List Token) (prefixLength : Nat)
    (cache : List M.Kv) :
    (I.runner R).denoiseBlock stop block prefixLength (cache.map I.toKv) =
      R.denoiseBlock stop block prefixLength cache := by
  simp only [denoiseBlock]
  rw [show (I.runner R).maxDenoiseSteps = R.maxDenoiseSteps from rfl,denoiseSteps_map]
  rfl

def toBlocks (s : BlockState M) : BlockState I.model :=
  ⟨s.cache.map I.toKv,s.prefixLength,s.seed,s.emitted,s.left⟩

theorem finalBlock_map (stop : Bool) (block : List Token) (prefixLength : Nat)
    (cache : List M.Kv) :
    (I.runner R).finalBlock stop block prefixLength (cache.map I.toKv) =
      R.finalBlock stop block prefixLength cache := by
  unfold finalBlock
  rw [denoiseBlock_map]
  rfl

theorem committed_map (stop : Bool) (s : BlockState M) (final : List Token) :
    (I.runner R).committed stop (I.toBlocks s) final = I.toBlocks (R.committed stop s final) := by
  simp only [committed,toBlocks,commit_map,toRow,seedFrom_map]
  rfl

theorem generateBlock_map (stop : Bool) (s : BlockState M) :
    (I.runner R).generateBlock stop (I.toBlocks s) =
      (R.generateBlock stop s).map I.toBlocks := by
  have hfinal := I.finalBlock_map R stop (R.nextBlock s.seed s.emitted.flatten) s.prefixLength
    s.cache
  have hcommitted : (I.runner R).committed stop (I.toBlocks s) =
      fun final => I.toBlocks (R.committed stop s final) :=
    funext (I.committed_map R stop s)
  rw [generateBlock_eq,generateBlock_eq,hcommitted]
  refine (congrArg (Except.map _) hfinal).trans ?_
  cases R.finalBlock stop (R.nextBlock s.seed s.emitted.flatten) s.prefixLength s.cache <;> rfl

theorem prefill_zeros (prompt : List Token) (n : Nat) :
    (I.runner R).prefill prompt (List.replicate n I.model.zero) =
      (R.prefill prompt (List.replicate n M.zero)).map I.toRow := by
  have hzeros : List.replicate n I.model.zero = (List.replicate n M.zero).map I.toKv := by
    rw [List.map_replicate]
    exact congrArg _ I.zero_eq
  rw [hzeros,prefill_map]

theorem startBlocks_map (prompt : List Token) (generationLength : Nat) :
    (I.runner R).startBlocks prompt generationLength =
      (R.startBlocks prompt generationLength).map I.toBlocks := by
  have hprefill := I.prefill_zeros R prompt (prompt.length+R.paddedGeneration generationLength)
  have hstart : ∀ {N : NemotronModel} (Q : NemotronRunner N),
      Q.startBlocks prompt generationLength =
      (Q.checkContext (prompt.length+Q.paddedGeneration generationLength) >>= fun _ =>
        Q.prefill prompt (List.replicate (prompt.length+Q.paddedGeneration generationLength)
          N.zero) >>= fun x => .ok (Q.enterBlocks prompt x)) := fun _ => rfl
  have henter : ∀ x : List M.Logits × List M.Kv,
      (I.runner R).enterBlocks prompt (I.toRow x) = I.toBlocks (R.enterBlocks prompt x) := by
    intro x
    simp only [enterBlocks,toRow,toBlocks,seedFrom_map]
  rw [hstart,hstart]
  show (R.checkContext (prompt.length+R.paddedGeneration generationLength) >>= fun _ =>
    (I.runner R).prefill prompt (List.replicate (prompt.length+R.paddedGeneration generationLength)
      I.model.zero) >>= fun x => .ok ((I.runner R).enterBlocks prompt x)) = _
  rw [hprefill]
  cases R.checkContext (prompt.length+R.paddedGeneration generationLength) with
  | error e => rfl
  | ok =>
    cases R.prefill prompt
      (List.replicate (prompt.length+R.paddedGeneration generationLength) M.zero) with
    | error e => rfl
    | ok x => exact congrArg Except.ok (henter x)

/-- A run of the diffusion runner is the same in any layout. -/
theorem diffusionGenerateOne_map (fuel : Nat) (stop : Bool) (prompt : List Token)
    (generationLength : Nat) :
    (I.runner R).diffusionGenerateOne fuel stop prompt generationLength =
      R.diffusionGenerateOne fuel stop prompt generationLength := by
  unfold diffusionGenerateOne
  rw [startBlocks_map]
  split
  · rfl
  · cases R.startBlocks prompt generationLength with
    | error e => rfl
    | ok s =>
      have hloop : tryLoop ((I.runner R).blocksRemain generationLength)
          ((I.runner R).generateBlock stop) fuel (I.toBlocks s) =
          (tryLoop (R.blocksRemain generationLength) (R.generateBlock stop) fuel s).map
            (Except.map I.toBlocks) :=
        tryLoop_map I.toBlocks (fun _ => rfl) (I.generateBlock_map R stop) fuel s
      show (tryLoop ((I.runner R).blocksRemain generationLength)
        ((I.runner R).generateBlock stop) fuel (I.toBlocks s) >>= fun r => some (r >>= fun s =>
          R.cutAtEos stop (s.emitted.flatten.take generationLength))) = _
      rw [hloop]
      cases hrun : tryLoop (R.blocksRemain generationLength) (R.generateBlock stop) fuel s with
      | none => simp [hrun]
      | some r =>
        simp only [hrun]
        cases r <;> rfl

theorem draftSteps_map (prefixLength : Nat) (cache : List M.Kv) (n : Nat) (block : List Token) :
    (I.runner R).draftSteps prefixLength (cache.map I.toKv) n block =
      R.draftSteps prefixLength cache n block := by
  have hstep : ∀ logits block, (I.runner R).draftStep (logits.map I.toLogits) block =
      R.draftStep logits block := by
    intro logits block
    have hid : logits.map I.toLogits = logits := List.map_id' logits
    rw [hid]
    rfl
  induction n generalizing block with
  | zero => rfl
  | succ n ih =>
    simp only [draftSteps,denoise_map,hstep,ih]
    rfl

theorem draftBlock_map (block : List Token) (prefixLength : Nat) (cache : List M.Kv) :
    (I.runner R).draftBlock block prefixLength (cache.map I.toKv) =
      R.draftBlock block prefixLength cache := by
  simp only [draftBlock]
  rw [show (I.runner R).maxDenoiseSteps = R.maxDenoiseSteps from rfl,draftSteps_map]
  rfl

def toSpec (s : SpecState M) : SpecState I.model :=
  ⟨s.cache.map I.toKv,s.prefixLength,s.nextToken,s.emitted,s.terminal,s.marker⟩

theorem sampleTokens_map (logits : List M.Logits) :
    sampleTokens (logits.map I.toLogits) = sampleTokens logits := by
  rw [sampleTokens,List.map_map]
  rfl

theorem accept_map (stop : Bool) (generationLength : Nat) (s : SpecState M) (cache : List M.Kv)
    (accepted : List Token) :
    (I.runner R).accept stop generationLength (I.toSpec s) (cache.map I.toKv) accepted =
      I.toSpec (R.accept stop generationLength s cache accepted) := rfl

theorem speculate_map (stop : Bool) (generationLength : Nat) (s : SpecState M) :
    (I.runner R).speculate stop generationLength (I.toSpec s) =
      (R.speculate stop generationLength s).map I.toSpec := by
  rw [speculate_eq,speculate_eq]
  show (R.speculativeBlock s.nextToken s.marker >>= fun x =>
    (I.runner R).draftBlock x.1 s.prefixLength (s.cache.map I.toKv) >>= fun drafted =>
      let y := commit false true drafted s.prefixLength (s.cache.map I.toKv)
      pure ((I.runner R).accept stop generationLength (I.toSpec s) y.2
        (acceptedTokens (sampleTokens y.1) drafted x.2))) = _
  cases R.speculativeBlock s.nextToken s.marker with
  | error e => rfl
  | ok x =>
    show ((I.runner R).draftBlock x.1 s.prefixLength (s.cache.map I.toKv) >>= fun drafted => _) = _
    rw [draftBlock_map]
    cases hdraft : R.draftBlock x.1 s.prefixLength s.cache with
    | error e => simp only [hdraft,Except.bind,bind,Except.map]
    | ok drafted =>
      simp only [hdraft,Except.bind,bind,Except.map,commit_map,toRow,sampleTokens_map,accept_map]
      rfl

theorem startSpec_map (stop : Bool) (prompt : List Token) (generationLength : Nat) :
    (I.runner R).startSpec stop prompt generationLength =
      (R.startSpec stop prompt generationLength).map I.toSpec := by
  have hprefill := I.prefill_zeros R prompt (R.specLength prompt.length generationLength)
  have henter : ∀ x : List M.Logits × List M.Kv,
      (I.runner R).enterSpec stop prompt (I.toRow x) = I.toSpec (R.enterSpec stop prompt x) := by
    intro x
    simp only [enterSpec,toRow,toSpec,seedFrom_map]
    rfl
  rw [startSpec_eq,startSpec_eq]
  show (R.checkContext (R.specLength prompt.length generationLength) >>= fun _ =>
    (I.runner R).prefill prompt (List.replicate (R.specLength prompt.length generationLength)
      I.model.zero) >>= fun x => .ok ((I.runner R).enterSpec stop prompt x)) = _
  rw [hprefill]
  cases R.checkContext (R.specLength prompt.length generationLength) with
  | error e => rfl
  | ok =>
    cases R.prefill prompt
      (List.replicate (R.specLength prompt.length generationLength) M.zero) with
    | error e => rfl
    | ok x => exact congrArg Except.ok (henter x)

/-- A run of the self-speculative runner is the same in any layout. -/
theorem specGenerateOne_map (fuel : Nat) (stop : Bool) (prompt : List Token)
    (generationLength : Nat) :
    (I.runner R).specGenerateOne fuel stop prompt generationLength =
      R.specGenerateOne fuel stop prompt generationLength := by
  unfold specGenerateOne
  rw [startSpec_map]
  split
  · rfl
  · cases R.startSpec stop prompt generationLength with
    | error e => rfl
    | ok s =>
      have hloop : tryLoop (specRemains generationLength)
          ((I.runner R).speculate stop generationLength) fuel (I.toSpec s) =
          (tryLoop (specRemains generationLength) (R.speculate stop generationLength) fuel s).map
            (Except.map I.toSpec) :=
        tryLoop_map I.toSpec (fun _ => rfl) (I.speculate_map R stop generationLength) fuel s
      show (tryLoop (specRemains generationLength) ((I.runner R).speculate stop generationLength)
        fuel (I.toSpec s) >>= fun r => some (r >>= fun s =>
          R.cutAtEos stop (s.emitted.take generationLength))) = _
      rw [hloop]
      cases hrun : tryLoop (specRemains generationLength) (R.speculate stop generationLength)
        fuel s with
      | none => simp [hrun]
      | some r =>
        simp only [hrun]
        cases r <;> rfl

end KvImage

end FluxServe.Engine
