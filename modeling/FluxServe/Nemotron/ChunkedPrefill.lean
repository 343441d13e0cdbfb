import FluxServe.Nemotron.BlockAgreement
import FluxServe.Nemotron.Speculation

namespace FluxServe.Engine.NemotronRunner

variable {M : NemotronModel} (R : NemotronRunner M) {prompt : List Token} {cache : List M.Kv}

/-- The runner with another prefill chunk. -/
def withChunk (size : Nat) (h : 0 < size) : NemotronRunner M :=
  { R with prefillChunkSize := size, prefillChunkSize_pos := h }

/-- The slots behind a write stay. -/
theorem commit_drop {adapter causal : Bool} {tokens : List Token} {start : Nat}
    (h : start ≤ cache.length) :
    (commit adapter causal tokens start cache).2.drop (start+tokens.length) =
      cache.drop (start+tokens.length) := by
  have hlen : (cache.take start ++ (M.forward adapter causal (cache.take start) tokens).map
      Prod.fst).length = start+tokens.length := by
    simp [M.forward_length,h]
  simp only [commit,commitKv,List.length_map,M.forward_length]
  exact List.drop_left' hlen

theorem prefillChunk_drop {n : Nat} {done : List M.Logits × List M.Kv}
    (hle : min prompt.length n ≤ done.2.length) (hn : n < prompt.length)
    (h : done.2.drop (min prompt.length n) = cache.drop (min prompt.length n)) :
    (R.prefillChunk prompt done n).2.drop (min prompt.length (n+R.prefillChunkSize)) =
      cache.drop (min prompt.length (n+R.prefillChunkSize)) := by
  have hmin : min prompt.length n = n := by omega
  have hsize : n+((prompt.drop n).take R.prefillChunkSize).length =
      min prompt.length (n+R.prefillChunkSize) := by
    rw [List.length_take,List.length_drop]
    omega
  rw [hmin] at h hle
  rw [← hsize,prefillChunk,commit_drop hle,← List.drop_drop,h,List.drop_drop]

theorem prefill_drop (hm : M.Causal) (prompt : List Token) (cache : List M.Kv) {n : Nat}
    (hn : n ≤ (prompt.length+R.prefillChunkSize-1)/R.prefillChunkSize) :
    (((List.range n).map (· * R.prefillChunkSize)).foldl (R.prefillChunk prompt)
      ([],cache)).2.drop (min prompt.length (n*R.prefillChunkSize)) =
      cache.drop (min prompt.length (n*R.prefillChunkSize)) := by
  induction n with
  | zero => rfl
  | succ n ih =>
    have hlt : n*R.prefillChunkSize < prompt.length := by
      have h := (Nat.le_div_iff_mul_le R.prefillChunkSize_pos).mp hn
      have hpos := R.prefillChunkSize_pos
      rw [Nat.add_mul] at h
      omega
    have hbefore := R.prefill_prefilled hm prompt cache (n := n) (by omega)
    have hle := hbefore.length ▸ Nat.le_max_right cache.length
      (min prompt.length (n*R.prefillChunkSize))
    rw [List.range_succ,List.map_append,List.foldl_append,Nat.add_mul,Nat.one_mul]
    exact R.prefillChunk_drop hle hlt (ih (by omega))

/-- The prefill writes the causal KV of the prompt and nothing else. -/
theorem prefill_eq (hm : M.Causal) (hp : prompt ≠ []) (cache : List M.Kv) :
    ∃ logits, R.prefill prompt cache =
        .ok (logits,M.causalKv prompt ++ cache.drop prompt.length) ∧
      R.seedFrom logits = R.next prompt := by
  have hcover : prompt.length ≤
      (prompt.length+R.prefillChunkSize-1)/R.prefillChunkSize*R.prefillChunkSize := by
    have h := Nat.lt_div_mul_add R.prefillChunkSize_pos (a := prompt.length+R.prefillChunkSize-1)
    omega
  have hdrop := R.prefill_drop hm prompt cache (Nat.le_refl _)
  rw [Nat.min_eq_left hcover] at hdrop
  obtain ⟨logits,cache',hrun,hseed,hcausal,_⟩ := R.prefill_spec hm hp cache
  have hfold : (R.chunkStarts prompt.length).foldl (R.prefillChunk prompt) ([],cache) =
      (logits,cache') := by
    rw [prefill,if_neg (by simp [hp])] at hrun
    exact Except.ok.inj hrun
  rw [← chunkStarts,hfold] at hdrop
  refine ⟨logits,?_,hseed⟩
  rw [hrun,← hcausal,← hdrop,List.take_append_drop]

section Chunk

variable {size : Nat} (h : 0 < size)

theorem denoiseSteps_withChunk (stop : Bool) (prefixLength : Nat) (cache : List M.Kv) (n : Nat)
    (block : List Token) :
    (R.withChunk size h).denoiseSteps stop prefixLength cache n block =
      R.denoiseSteps stop prefixLength cache n block := by
  induction n generalizing block with
  | zero => rfl
  | succ n ih =>
    simp only [denoiseSteps,ih]
    rfl

theorem generateBlock_withChunk (stop : Bool) :
    (R.withChunk size h).generateBlock stop = R.generateBlock stop := by
  funext s
  have hfinal : (R.withChunk size h).finalBlock stop (R.nextBlock s.seed s.emitted.flatten)
      s.prefixLength s.cache =
      R.finalBlock stop (R.nextBlock s.seed s.emitted.flatten) s.prefixLength s.cache := by
    simp only [finalBlock,denoiseBlock,denoiseSteps_withChunk]
    rfl
  rw [generateBlock_eq,generateBlock_eq]
  exact congrArg (Except.map (R.committed stop s)) hfinal

theorem draftSteps_withChunk (prefixLength : Nat) (cache : List M.Kv) (n : Nat)
    (block : List Token) :
    (R.withChunk size h).draftSteps prefixLength cache n block =
      R.draftSteps prefixLength cache n block := by
  induction n generalizing block with
  | zero => rfl
  | succ n ih =>
    simp only [draftSteps,ih]
    rfl

theorem speculate_withChunk (stop : Bool) (generationLength : Nat) :
    (R.withChunk size h).speculate stop generationLength = R.speculate stop generationLength := by
  funext s
  have hdraft : ∀ block, (R.withChunk size h).draftBlock block s.prefixLength s.cache =
      R.draftBlock block s.prefixLength s.cache := by
    intro block
    simp only [draftBlock,draftSteps_withChunk]
    rfl
  rw [speculate_eq,speculate_eq]
  simp only [hdraft]
  rfl

variable (hm : M.Causal)
include hm

/-- What both runners make of a prefill. -/
theorem prefill_withChunk {α : Type} (f : Token → List M.Kv → α) (prompt : List Token)
    (cache : List M.Kv) :
    ((R.withChunk size h).prefill prompt cache).map (fun x => f (R.seedFrom x.1) x.2) =
      (R.prefill prompt cache).map fun x => f (R.seedFrom x.1) x.2 := by
  by_cases hp : prompt = []
  · subst hp
    rfl
  · obtain ⟨logits,hrun,hseed⟩ := R.prefill_eq hm hp cache
    obtain ⟨logits',hrun',hseed'⟩ := (R.withChunk size h).prefill_eq hm hp cache
    have hseed' : R.seedFrom logits' = R.next prompt := hseed'
    rw [hrun,hrun']
    exact congrArg Except.ok (congrArg (f · _) (hseed'.trans hseed.symm))

theorem startBlocks_withChunk (generationLength : Nat) :
    (R.withChunk size h).startBlocks prompt generationLength =
      R.startBlocks prompt generationLength := by
  have hprefill := R.prefill_withChunk h hm
    (fun seed cache => BlockState.mk cache prompt.length seed [] false) prompt
    (List.replicate (prompt.length+R.paddedGeneration generationLength) M.zero)
  show (R.checkContext (prompt.length+R.paddedGeneration generationLength) >>= fun _ =>
    ((R.withChunk size h).prefill prompt (List.replicate
      (prompt.length+R.paddedGeneration generationLength) M.zero)).map
        fun x => BlockState.mk x.2 prompt.length (R.seedFrom x.1) [] false) = _
  rw [hprefill]
  rfl

theorem startSpec_withChunk (stop : Bool) (generationLength : Nat) :
    (R.withChunk size h).startSpec stop prompt generationLength =
      R.startSpec stop prompt generationLength := by
  have hprefill := R.prefill_withChunk h hm
    (fun seed cache => SpecState.mk cache prompt.length seed [seed]
      (stop && R.decoder.isEos seed) (R.thinkingBudget.due [seed])) prompt
    (List.replicate (R.specLength prompt.length generationLength) M.zero)
  show (R.checkContext (R.specLength prompt.length generationLength) >>= fun _ =>
    ((R.withChunk size h).prefill prompt (List.replicate
      (R.specLength prompt.length generationLength) M.zero)).map fun x =>
        SpecState.mk x.2 prompt.length (R.seedFrom x.1) [R.seedFrom x.1]
          (stop && R.decoder.isEos (R.seedFrom x.1))
          (R.thinkingBudget.due [R.seedFrom x.1])) = _
  rw [hprefill]
  rfl

/-- The chunks of the prefill do not show in a run of the diffusion runner. -/
theorem diffusionGenerateOne_withChunk (fuel : Nat) (stop : Bool) (prompt : List Token)
    (generationLength : Nat) :
    (R.withChunk size h).diffusionGenerateOne fuel stop prompt generationLength =
      R.diffusionGenerateOne fuel stop prompt generationLength := by
  unfold diffusionGenerateOne
  rw [R.startBlocks_withChunk h hm,R.generateBlock_withChunk h]
  rfl

theorem specGenerateOne_withChunk (fuel : Nat) (stop : Bool) (prompt : List Token)
    (generationLength : Nat) :
    (R.withChunk size h).specGenerateOne fuel stop prompt generationLength =
      R.specGenerateOne fuel stop prompt generationLength := by
  unfold specGenerateOne
  rw [R.startSpec_withChunk h hm,R.speculate_withChunk h]
  rfl

end Chunk

end FluxServe.Engine.NemotronRunner
