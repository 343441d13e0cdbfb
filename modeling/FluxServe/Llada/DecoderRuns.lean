import FluxServe.Llada.PagedDecode
import FluxServe.Llada.Transfer

namespace FluxServe.Llada

open Engine

variable {Logits Kv S : Type}

/-- What a runner has besides its settings and its decoder. -/
structure Backend (c : RunnerConfig) (Logits Kv : Type) where
  mode : DecodeMode
  forwardWrites : Bool
  usesGraph : Nat → Nat → Bool := fun _ _ => false
  graphWrites : ∀ batchSize cacheLength, usesGraph batchSize cacheLength = true →
    forwardWrites = true
  captureSizes : Option (List Nat) := none
  selector : Selector
  forward : Nat → List (ForwardRow c.blockLength Kv) → Nat → ForwardOutput c.blockLength Logits Kv

/-- The runner with a decoder. -/
abbrev Backend.runner {c : RunnerConfig} (b : Backend c Logits Kv)
    (decoder : BlockDecoder c.blockLength Logits S) : LladaRunner Logits Kv S :=
  { c with
    mode := b.mode
    forwardWrites := b.forwardWrites
    usesGraph := b.usesGraph
    graphWrites := b.graphWrites
    captureSizes := b.captureSizes
    selector := b.selector
    forward := b.forward
    decoder }

/-- The runner of plans with a decoder. -/
abbrev Backend.pagedRunner {c : RunnerConfig} (b : Backend c Logits Kv)
    (decoder : BlockDecoder c.blockLength Logits S) (maxNumSeqs maxPostSteps : Nat)
    (needsEditingInputs : Bool) (makeRowState : S) : PagedLladaRunner Logits Kv S :=
  { b.runner decoder with maxNumSeqs, maxPostSteps, needsEditingInputs, makeRowState }

instance (c : RunnerConfig) : NeZero c.blockLength := ⟨c.blockLength_pos.ne'⟩

namespace DecodeEditBudget

variable {b b' : DecodeEditBudget} {numRows r : Nat} {seqIds : List Nat}
  {hadMask changed blockFinished : Nat → Bool}

theorem update_eq_some (h : b.update numRows seqIds hadMask changed blockFinished = some b') :
    b' = { b with
      postSteps := putRows seqIds
        (fun r => if blockFinished r then 0 else b.postSteps r + (!hadMask r && changed r).toNat)
        b.postSteps
      blockIters := putRows seqIds (fun r => if blockFinished r then 0 else b.blockIters r + 1)
        b.blockIters
      updateCalls := b.updateCalls+1 } := by
  unfold update at h
  dsimp only at h
  split at h
  · cases h
  · exact (Option.some.inj h).symm

theorem update_blockIters (h : b.update numRows seqIds hadMask changed blockFinished = some b') :
    b'.blockIters = putRows seqIds (fun r => if blockFinished r then 0 else b.blockIters r + 1)
      b.blockIters := by
  rw [update_eq_some h]

theorem update_postSteps (h : b.update numRows seqIds hadMask changed blockFinished = some b') :
    b'.postSteps = putRows seqIds
      (fun r => if blockFinished r then 0 else b.postSteps r + (!hadMask r && changed r).toNat)
      b.postSteps := by
  rw [update_eq_some h]

theorem update_ne_none (h : ∀ r, (putRows seqIds
      (fun r => if blockFinished r then 0 else b.blockIters r + 1) b.blockIters) r <
        b.maxBlockIters) : b.update numRows seqIds hadMask changed blockFinished ≠ none := by
  unfold update
  dsimp only
  rw [if_neg]
  · exact Option.some_ne_none _
  · rintro ⟨_,r,_,hle⟩
    exact absurd (h r) (not_lt.mpr hle)

end DecodeEditBudget

namespace LladaRunner

variable {R : LladaRunner Logits Kv S} {c : DecodeCall} {σ σ' : DecodeLoop Kv S}
  {seqIds : List Nat} {cacheLength r : Nat}

section Batch

theorem decodeBatch_budget (h : R.decodeBatch c σ seqIds cacheLength = .ok σ') :
    σ.editBudget.update c.numRows seqIds (R.hadMask σ) (R.changed c σ seqIds cacheLength)
      (R.blockFinished c σ seqIds cacheLength) = some σ'.editBudget := by
  unfold decodeBatch at h
  split at h
  · cases h
  · dsimp only at h
    split at h
    · cases h
    · next hupdate =>
      cases h
      exact hupdate

/-- A batch within the array goes through unless the budget reports rows that are stuck. -/
theorem decodeBatch_cases (cacheLength : Nat)
    (hfits : ∀ r ∈ seqIds, σ.decodingStart r + R.blockLength ≤ c.width) :
    R.decodeBatch c σ seqIds cacheLength = .error .stuck ∧
      σ.editBudget.update c.numRows seqIds (R.hadMask σ) (R.changed c σ seqIds cacheLength)
        (R.blockFinished c σ seqIds cacheLength) = none ∨
    ∃ σ', R.decodeBatch c σ seqIds cacheLength = .ok σ' := by
  have hwidth :
      ¬(seqIds.any fun r => decide (c.width < σ.decodingStart r + R.blockLength)) = true := by
    rw [List.any_eq_true]
    rintro ⟨r,hr,hlt⟩
    exact absurd (of_decide_eq_true hlt) (not_lt.mpr (hfits r hr))
  unfold decodeBatch
  rw [if_neg hwidth]
  dsimp only
  split
  · next hupdate => exact .inl ⟨rfl,hupdate⟩
  · exact .inr ⟨_,rfl⟩

theorem update_none_of_stuck (h : R.decodeBatch c σ seqIds cacheLength = .error .stuck) :
    σ.editBudget.update c.numRows seqIds (R.hadMask σ) (R.changed c σ seqIds cacheLength)
      (R.blockFinished c σ seqIds cacheLength) = none := by
  unfold decodeBatch at h
  split at h
  · cases h
  · dsimp only at h
    split at h
    · next hupdate => exact hupdate
    · cases h

theorem hadMask_eq_true : R.hadMask σ r = true ↔ ∃ i, R.block σ r i = R.maskId := by
  simp [hadMask]

theorem changed_eq_true : R.changed c σ seqIds cacheLength r = true ↔
    ∃ i, (R.tail c σ seqIds cacheLength).after r i ≠ R.block σ r i := by
  simp [changed]

theorem block_of_notMem (h : R.Passed c σ seqIds cacheLength σ') (hr : r ∉ seqIds) :
    R.block σ' r = R.block σ r := by
  unfold block
  rw [h.x,putRows_of_notMem hr,h.decodingStart_of_notMem hr]

/-- A row whose block is not finished stays at it. -/
theorem block_of_unfinished (h : R.Passed c σ seqIds cacheLength σ') (hr : r ∈ seqIds)
    (hfin : R.blockFinished c σ seqIds cacheLength r = false) :
    R.block σ' r = (R.tail c σ seqIds cacheLength).after r := by
  have hstart : σ'.decodingStart r = σ.decodingStart r := by
    obtain hsame | ⟨_,hfin',_⟩ := h.decodingStart_cases (r := r)
    · exact hsame
    · rw [hfin] at hfin'
      cases hfin'
  funext i
  rw [tail_after]
  unfold block gatherBlock
  rw [h.x,putRows_of_mem hr,hstart]

end Batch

section OfRows

variable {ρ : Type} {R : LladaRunner Logits Kv (Nat → ρ)} {σ σ' : DecodeLoop Kv (Nat → ρ)}
  {step : RowStep R.blockLength Logits ρ} {fused : Bool}

/-- Where the decoder works row by row, in the graph as after it, it does so on the row's block. -/
theorem tail_after_ofRows (hdecoder : R.decoder = .ofRows step fused) (hnd : seqIds.Nodup)
    (hr : r ∈ seqIds) : (R.tail c σ seqIds cacheLength).after r =
      (step (R.decoderRow c σ seqIds cacheLength r) (R.block σ r) (σ.rowState r)).1 := by
  have hids : (seqIds.map (R.decoderRow c σ seqIds cacheLength)).map DecoderRow.seqId = seqIds := by
    rw [List.map_map]
    exact List.map_id _
  have hfind : findRow (seqIds.map (R.decoderRow c σ seqIds cacheLength)) r =
      some (R.decoderRow c σ seqIds cacheLength r) :=
    findRow_of_mem (hids.symm ▸ hnd) (List.mem_map_of_mem hr)
  have hstep : stepRow step (seqIds.map (R.decoderRow c σ seqIds cacheLength)) σ.rowState r =
      some (writeBlock (σ.x r) (σ.decodingStart r)
        (step (R.decoderRow c σ seqIds cacheLength r) (R.block σ r) (σ.rowState r)).1,
        step (R.decoderRow c σ seqIds cacheLength r) (R.block σ r) (σ.rowState r)) := by
    unfold stepRow
    rw [hfind]
    rfl
  have heager : gatherBlock R.blockLength (fun p => ((stepRow step
      (seqIds.map (R.decoderRow c σ seqIds cacheLength)) σ.rowState r).map fun x => x.1 p).getD 0)
      (σ.decodingStart r) =
      (step (R.decoderRow c σ seqIds cacheLength r) (R.block σ r) (σ.rowState r)).1 := by
    simp only [hstep,Option.map_some,Option.getD_some]
    exact gatherBlock_writeBlock
  unfold tail
  rw [hdecoder]
  cases fused with
  | false => exact heager
  | true =>
    simp only [BlockDecoder.ofRows,if_true]
    split
    · simp only [hstep,Option.map_some,Option.getD_some]
    · exact heager

/-- and what it keeps of the rows it keeps row by row. -/
theorem rowState_ofRows (hdecoder : R.decoder = .ofRows step fused)
    (hrun : R.decodeBatch c σ seqIds cacheLength = .ok σ') (r : Nat) : σ'.rowState r =
      ((stepRow step (seqIds.map (R.decoderRow c σ seqIds cacheLength)) σ.rowState r).map
        fun x => x.2.2).getD (σ.rowState r) := by
  have htail : σ'.rowState = (R.tail c σ seqIds cacheLength).rowState := by
    unfold decodeBatch at hrun
    split at hrun
    · cases hrun
    · dsimp only at hrun
      split at hrun
      · cases hrun
      · cases hrun
        rfl
  rw [htail]
  unfold tail
  rw [hdecoder]
  cases fused with
  | false => rfl
  | true =>
    simp only [BlockDecoder.ofRows,if_true]
    split <;> rfl

end OfRows

section Measures

variable {measure : DecodeLoop Kv S → Nat → Nat} {bound : Nat}

/-- A pass finishes the block of each of its rows or takes from what is left to do in it. -/
structure Falls (R : LladaRunner Logits Kv S) (c : DecodeCall)
    (measure : DecodeLoop Kv S → Nat → Nat) (σ : DecodeLoop Kv S) (seqIds : List Nat)
    (cacheLength : Nat) : Prop where
  pending : ∀ r ∈ seqIds, R.blockFinished c σ seqIds cacheLength r = false → 0 < measure σ r
  rows : ∀ σ', R.decodeBatch c σ seqIds cacheLength = .ok σ' → ∀ r ∈ seqIds,
    R.blockFinished c σ seqIds cacheLength r = false → measure σ' r < measure σ r
  others : ∀ σ', R.decodeBatch c σ seqIds cacheLength = .ok σ' → ∀ r ∉ seqIds,
    measure σ' r = measure σ r

/-- The passes a block has had and what is left to do in it are within a bound. -/
def Budgeted (measure : DecodeLoop Kv S → Nat → Nat) (bound : Nat) (σ : DecodeLoop Kv S) : Prop :=
  ∀ r, σ.editBudget.blockIters r + measure σ r ≤ bound

theorem Falls.budgeted (h : R.Falls c measure σ seqIds cacheLength)
    (hbound : ∀ σ r, measure σ r ≤ bound) (hb : Budgeted measure bound σ)
    (hrun : R.decodeBatch c σ seqIds cacheLength = .ok σ') : Budgeted measure bound σ' := by
  have hiters := DecodeEditBudget.update_blockIters (decodeBatch_budget hrun)
  intro r
  have hb := hb r
  rw [hiters]
  by_cases hr : r ∈ seqIds
  · rw [putRows_of_mem hr]
    cases hfin : R.blockFinished c σ seqIds cacheLength r with
    | true =>
      rw [if_pos rfl,Nat.zero_add]
      exact hbound σ' r
    | false =>
      have hlt := h.rows σ' hrun r hr hfin
      rw [if_neg Bool.false_ne_true]
      omega
  · rw [putRows_of_notMem hr,h.others σ' hrun r hr]
    exact hb

theorem Falls.not_stuck (h : R.Falls c measure σ seqIds cacheLength)
    (hb : Budgeted measure bound σ) (hmax : bound < σ.editBudget.maxBlockIters) :
    R.decodeBatch c σ seqIds cacheLength ≠ .error .stuck := by
  intro hstuck
  refine DecodeEditBudget.update_ne_none (fun r => ?_) (update_none_of_stuck hstuck)
  have hb := hb r
  by_cases hr : r ∈ seqIds
  · rw [putRows_of_mem hr]
    cases hfin : R.blockFinished c σ seqIds cacheLength r with
    | true =>
      rw [if_pos rfl]
      omega
    | false =>
      have hpos := h.pending r hr hfin
      rw [if_neg Bool.false_ne_true]
      omega
  · rw [putRows_of_notMem hr]
    omega

theorem decodeBatch_limits (hrun : R.decodeBatch c σ seqIds cacheLength = .ok σ') :
    σ'.editBudget.maxBlockIters = σ.editBudget.maxBlockIters ∧
      σ'.editBudget.maxPostSteps = σ.editBudget.maxPostSteps := by
  rw [DecodeEditBudget.update_eq_some (decodeBatch_budget hrun)]
  exact ⟨rfl,rfl⟩

end Measures

end LladaRunner

end FluxServe.Llada
