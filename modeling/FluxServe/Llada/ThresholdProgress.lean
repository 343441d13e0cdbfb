import FluxServe.Llada.Decomposition
import FluxServe.Llada.PagedProgress

namespace FluxServe.Llada

open Engine LladaRunner

variable {V : Nat} [NeZero V] {Logit Conf Kv : Type} [LinearOrder Logit] [OrderBot Logit]
  [LinearOrder Conf]

namespace ThresholdParallelDecoder

section Update

variable {L : Nat} {d : ThresholdParallelDecoder Conf} {softmax : (Fin V → Logit) → Fin V → Conf}
  {noise : Noise L V Logit} {logits : Fin L → Fin V → Logit} {block : Fin L → Token} {i : Fin L}

/-- A masked position whose candidate is another token than the mask. -/
def Candidate (d : ThresholdParallelDecoder Conf) (noise : Noise L V Logit)
    (logits : Fin L → Fin V → Logit) (block : Fin L → Token) (i : Fin L) : Prop :=
  block i = d.maskId ∧ ((x0 noise logits i : Nat) : Token) ≠ d.maskId

theorem confidence_ne_bot : d.confidence softmax noise logits block i ≠ ⊥ ↔
    d.Candidate noise logits block i := by
  unfold confidence Candidate
  split
  · next h => simpa using h
  · next h => simpa using h

/-- Only masked positions are written. -/
theorem masked_of_updated (h : d.updated softmax noise logits block i ≠ block i) :
    block i = d.maskId := by
  unfold updated at h
  split at h
  · next htransfer => exact (confidence_ne_bot.mp (transferred_candidate htransfer)).1
  · exact absurd rfl h

theorem masked_of_updated_masked (h : d.updated softmax noise logits block i = d.maskId) :
    block i = d.maskId := by
  unfold updated at h
  split at h
  · next htransfer => exact (confidence_ne_bot.mp (transferred_candidate htransfer)).1
  · exact h

/-- A pass replaces a mask if and only if at some masked position the candidate is another token. -/
theorem masks_updated_lt_iff (hslack : ∀ c, d.slack c ≤ c) :
    masks d.maskId (d.updated softmax noise logits block) < masks d.maskId block ↔
      ∃ i, d.Candidate noise logits block i := by
  constructor
  · intro hlt
    by_contra hnone
    have hsame : d.updated softmax noise logits block = block := by
      funext i
      unfold updated
      rw [if_neg]
      intro htransfer
      exact hnone ⟨i,confidence_ne_bot.mp (transferred_candidate htransfer)⟩
    rw [hsame] at hlt
    exact lt_irrefl _ hlt
  · rintro ⟨i,hi⟩
    obtain ⟨j,hj⟩ : ∃ j, transferred d.slack d.threshold
        (d.confidence softmax noise logits block) j = true :=
      exists_transferred hslack (confidence_ne_bot.mpr hi)
    obtain ⟨hmask,hother⟩ := confidence_ne_bot.mp (transferred_candidate hj)
    have hwritten : d.updated softmax noise logits block j ≠ d.maskId := by
      unfold updated
      rwa [if_pos hj]
    exact masks_lt (fun _ => masked_of_updated_masked) hmask hwritten

end Update

section Batch

variable {L : Nat} [NeZero L] {d : ThresholdParallelDecoder Conf}
  {softmax : (Fin V → Logit) → Fin V → Conf} {rows : List (DecoderRow (Fin L → Fin V → Logit))}
  {draws : Nat → Nat → Noise L V Logit} {row : DecoderRow (Fin L → Fin V → Logit)}

/-- What `batch_decode` leaves of a row. -/
theorem batchDecode_row (hnd : (rows.map DecoderRow.seqId).Nodup) (hrow : row ∈ rows) :
    ((d.samplingDecoder softmax).batchDecode rows draws).1 row.seqId =
      writeBlock row.row row.blockStart (d.updated softmax (draws row.seqId 0) row.logits
        (gatherBlock L row.row row.blockStart)) := by
  funext p
  simp only [samplingDecoder,BlockDecoder.ofRows,stepRow,findRow_of_mem hnd hrow,Option.map_some,
    Option.getD_some]

end Batch

section Runner

variable {c : RunnerConfig} {b : Backend c (Fin c.blockLength → Fin V → Logit) Kv}
  {d : ThresholdParallelDecoder Conf} {softmax : (Fin V → Logit) → Fin V → Conf}
  {σ : DecodeLoop Kv (Nat → Nat → Noise c.blockLength V Logit)} {seqIds : List Nat}
  {cacheLength : Nat} {call : DecodeCall}

/-- In each row of a batch that has masks some masked position has another candidate. -/
def Candidates (b : Backend c (Fin c.blockLength → Fin V → Logit) Kv)
    (d : ThresholdParallelDecoder Conf) (softmax : (Fin V → Logit) → Fin V → Conf)
    (σ : DecodeLoop Kv (Nat → Nat → Noise c.blockLength V Logit)) (seqIds : List Nat)
    (cacheLength : Nat) : Prop :=
  let R := b.runner (d.samplingDecoder softmax)
  ∀ r ∈ seqIds, (∃ i, R.block σ r i = d.maskId) →
    ∃ i, d.Candidate (σ.rowState r 0) (R.output σ seqIds cacheLength r).logits (R.block σ r) i

theorem tail_after_sampling (hnd : seqIds.Nodup) {r : Nat} (hr : r ∈ seqIds) :
    ((b.runner (d.samplingDecoder softmax)).tail call σ seqIds cacheLength).after r =
      d.updated softmax (σ.rowState r 0)
        ((b.runner (d.samplingDecoder softmax)).output σ seqIds cacheLength r).logits
        ((b.runner (d.samplingDecoder softmax)).block σ r) :=
  tail_after_ofRows (R := b.runner (d.samplingDecoder softmax)) rfl hnd hr

theorem candidates_fall (hmask : d.maskId = c.maskId) (hslack : ∀ c, d.slack c ≤ c)
    (hnd : seqIds.Nodup) (h : Candidates b d softmax σ seqIds cacheLength) :
    Falls (b.runner (d.samplingDecoder softmax)) call
      (fun σ r => masks d.maskId ((b.runner (d.samplingDecoder softmax)).block σ r))
      σ seqIds cacheLength := by
  let R := b.runner (d.samplingDecoder softmax)
  have hmasked (r : Nat) (hr : r ∈ seqIds)
      (hfin : R.blockFinished call σ seqIds cacheLength r = false) :
      ∃ i, R.block σ r i = d.maskId := by
    unfold blockFinished at hfin
    rw [Bool.and_eq_false_iff,Bool.not_eq_false',Bool.not_eq_false'] at hfin
    obtain hhad | hchanged := hfin
    · obtain ⟨i,hi⟩ := hadMask_eq_true.mp hhad
      exact ⟨i,hi.trans hmask.symm⟩
    · obtain ⟨i,hi⟩ := changed_eq_true.mp hchanged
      rw [tail_after_sampling hnd hr] at hi
      exact ⟨i,masked_of_updated hi⟩
  constructor
  · intro r hr hfin
    obtain ⟨i,hi⟩ := hmasked r hr hfin
    rw [Nat.pos_iff_ne_zero,Ne,masks_eq_zero]
    intro hnone
    exact hnone i hi
  · intro σ' hrun r hr hfin
    have hblock := block_of_unfinished (decodeBatch_passed hrun) hr hfin
    rw [hblock,tail_after_sampling hnd hr]
    exact (masks_updated_lt_iff hslack).mpr (h r hr (hmasked r hr hfin))
  · intro σ' hrun r hr
    rw [block_of_notMem (decodeBatch_passed hrun) hr]

/-- A pass of `batch_decode` writes masked positions of the block only, and leaves fewer masks if
and only if at some masked position the candidate, the token with the greatest logit of the pass,
is not the mask. Where that holds of each row with masks in each pass of a plan, and no batch that
is split leaves a row out, the blocks of the plan are finished in time. -/
theorem threshold_progress (b : Backend c (Fin c.blockLength → Fin V → Logit) Kv)
    (d : ThresholdParallelDecoder Conf) (softmax : (Fin V → Logit) → Fin V → Conf)
    (hmask : d.maskId = c.maskId) (hslack : ∀ c, d.slack c ≤ c) :
    (∀ (rows : List (DecoderRow (Fin c.blockLength → Fin V → Logit)))
      (draws : Nat → Nat → Noise c.blockLength V Logit), (rows.map DecoderRow.seqId).Nodup →
      ∀ row ∈ rows,
        let block := gatherBlock c.blockLength row.row row.blockStart
        let after := ((d.samplingDecoder softmax).batchDecode rows draws).1 row.seqId
        (∀ p, after p ≠ row.row p → row.blockStart ≤ p ∧ p < row.blockStart+c.blockLength ∧
          row.row p = d.maskId) ∧
        (masks d.maskId (gatherBlock c.blockLength after row.blockStart) < masks d.maskId block ↔
          ∃ i, d.Candidate (draws row.seqId 0) row.logits block i)) ∧
    ∀ (maxNumSeqs maxPostSteps : Nat) (draws : Nat → Nat → Noise c.blockLength V Logit)
      (rows : List PlanRow) (kv : Nat → Nat → Option Kv),
      let R := b.pagedRunner (d.samplingDecoder softmax) maxNumSeqs maxPostSteps false draws
      (rows.map PlanRow.seqId).Nodup →
      R.DecodeMeets rows (Candidates b d softmax) R.maxDecodeIters (rows.map PlanRow.seqId)
        (R.planLoop rows kv) →
      R.pagedDecode rows kv = .error .tooLong ∨ ∃ σ', R.pagedDecode rows kv = .ok σ' := by
  constructor
  · intro rows draws hnd row hrow
    dsimp only
    rw [batchDecode_row hnd hrow,gatherBlock_writeBlock]
    refine ⟨fun p hp => ?_,masks_updated_lt_iff hslack⟩
    by_cases hin : row.blockStart ≤ p ∧ p < row.blockStart+c.blockLength
    · obtain ⟨i,rfl⟩ : ∃ i : Fin c.blockLength, row.blockStart+i = p :=
        ⟨⟨p-row.blockStart,by omega⟩,by simp only; omega⟩
      rw [writeBlock_inside] at hp
      exact ⟨hin.1,hin.2,masked_of_updated hp⟩
    · exact absurd (writeBlock_outside hin) hp
  · intro maxNumSeqs maxPostSteps draws rows kv R hslots hmeets
    have hfall : R.DecodeMeets rows (Falls R.toLladaRunner (R.planCall rows)
        fun σ r => masks d.maskId (R.block σ r)) R.maxDecodeIters (rows.map PlanRow.seqId)
          (R.planLoop rows kv) :=
      hmeets.mono hslots fun σ part cacheLength hnd h => candidates_fall hmask hslack hnd h
    have hlimits : c.blockLength < R.maxBlockIters ∧ c.blockLength < R.maxDecodeIters := by
      have hblock : R.maxBlockIters = c.blockLength+maxPostSteps+1 := rfl
      have hiters : R.maxDecodeIters = if b.mode = .fa4 ∨ false = true then R.maxBlockIters
        else c.blockLength+1 := rfl
      rw [hiters,hblock]
      split <;> omega
    exact PagedLladaRunner.pagedDecode_ends (fun σ r => masks_le _ _) hslots hfall hlimits.1
      hlimits.2

end Runner

end ThresholdParallelDecoder

section Small

/-- Blocks of two tokens with mask 0. -/
abbrev smallConfig : RunnerConfig where
  blockLength := 2
  blockLength_pos := Nat.two_pos
  miniBatchSize := 1
  miniBatchSize_pos := Nat.one_pos
  maskId := 0
  eosIds := [3]

/-- A model that always predicts the same token. -/
def smallBackend (token : Token) : Backend smallConfig (Fin 2 → Fin 4 → Nat) Token where
  mode := .flashinferMaxBatch
  forwardWrites := false
  graphWrites _ _ h := by cases h
  selector := .byMaskNumber
  forward _ rows r :=
    { logits := fun _ v => if (v : Token) = token then 1 else 0
      kv := fun i => ((rows.find? fun row => row.seqId == r).map fun row => row.block i).getD 0 }

/-- A request of one prompt token that wants two more. -/
def smallPlan : List PlanRow := [⟨0,{ rid := [97], inputIds := [1], maxNewTokens := 2 }⟩]

def smallDecoder : ThresholdParallelDecoder Nat := ⟨0,0,fun c => c⟩

/-- A model that predicts another token has its block finished. -/
theorem smallPlan_ends : ∃ σ', ((smallBackend 2).pagedRunner
    (smallDecoder.samplingDecoder fun l v => l v) 1 16 false fun _ _ _ l => l).pagedDecode
      smallPlan (fun _ _ => none) = .ok σ' := by
  have hends := (ThresholdParallelDecoder.threshold_progress (smallBackend 2) smallDecoder
    (fun l v => l v) rfl fun _ => le_rfl).2 1 16 (fun _ _ _ l => l) smallPlan (fun _ _ => none)
    (by decide) (PagedLladaRunner.decodeMeets_of_keeps
      (fun σ => σ.rowState = fun _ _ _ l => l) ?_ ?_ ?_ rfl)
  · exact hends.resolve_left (by intro h; cases h)
  · intro σ σ' part cacheLength hkeeps hrun
    funext r
    have hstate := rowState_ofRows rfl hrun r
    rw [hkeeps] at hstate
    rw [hstate]
    unfold stepRow
    generalize findRow _ r = found
    cases found with
    | none => rfl
    | some row => rfl
  · intro σ part cacheLength hkeeps r hr hmasked
    obtain ⟨i,hi⟩ := hmasked
    refine ⟨i,hi,?_⟩
    rw [hkeeps]
    change ((argmax (fun v : Fin 4 => if (v : Token) = 2 then 1 else 0) : Nat) : Token) ≠ 0
    decide
  · intro pending
    simp [components,smallBackend]

/-- One that predicts the mask replaces no mask, and the block is not finished in time. -/
theorem smallPlan_unfinished : ((smallBackend 0).pagedRunner
    (smallDecoder.samplingDecoder fun l v => l v) 1 16 false fun _ _ _ l => l).pagedDecode
      smallPlan (fun _ _ => none) = .error (.unfinished [0]) := by
  rfl

end Small

end FluxServe.Llada
