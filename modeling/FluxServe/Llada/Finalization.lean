import FluxServe.Llada.LevenshteinSafety
import FluxServe.Llada.BlockCommit

namespace FluxServe.Llada

open Engine

variable {L V : Nat} [NeZero L] [NeZero V] {Logit Conf : Type} [LinearOrder Logit]
  [OrderBot Logit] [LinearOrder Conf] {d : LevenshteinJointDecoder V Conf}

section Predicates

/-- What a pass reports of a row. -/
structure Predicates where
  hadMask : Bool
  changed : Bool
  blockFinished : Bool
  deriving DecidableEq, Repr

/-- The predicate of the runner, from the block before the pass and the block read back after. -/
def eagerPredicates (maskId : Token) (before after : Fin L → Token) : Predicates :=
  let hadMask := any fun i => before i == maskId
  let changed := any fun i => after i != before i
  ⟨hadMask,changed,!hadMask && !changed⟩

end Predicates

namespace BlockRun

section Loop

variable (softmax : (Fin V → Logit) → Fin V → Conf)

/-- What the fused graph tail reports of a pass. -/
def fusedPredicates (r : BlockRun d L Logit) (n : Nat) : Predicates :=
  let step := r.stepAt softmax n
  ⟨step.hadMask,step.changed,step.blockFinished⟩

/-- What the runner reports of an eager pass over a row of the token array, in which the block
starts at a column. -/
def eagerAt (r : BlockRun d L Logit) (n : Nat) (tokens : Nat → Token) (start : Nat) : Predicates :=
  eagerPredicates d.maskId (r.inputAt softmax n).xBlock
    (gatherBlock L (writeBlock tokens start (r.stepAt softmax n).newBlock) start)

/-- A row whose block is not finished yet, with the passes that its edit budget has counted. -/
structure Pending (d : LevenshteinJointDecoder V Conf) (L : Nat) (Logit : Type) [LinearOrder Logit]
    [OrderBot Logit] where
  run : BlockRun d L Logit
  blockIters : Nat := 0

/-- The two errors that report a block which did not finish. -/
inductive DecodeFault
  | editBudget
  | didNotFinish
  deriving DecidableEq, Repr

/-- The rows that a pass leaves pending; those that finish leave the budget's count. -/
def unfinished (pending : List (Pending d L Logit)) : List (Pending d L Logit) :=
  (pending.filter fun p => !(p.run.stepAt softmax p.blockIters).blockFinished).map fun p =>
    { p with blockIters := p.blockIters+1 }

/-- The loop of `_execute_paged_decode` over the pending rows. `updates` counts the calls of
`DecodeEditBudget.update`, which looks for stuck rows every so often. -/
def decodeLoop (d : LevenshteinJointDecoder V Conf) (softmax : (Fin V → Logit) → Fin V → Conf) :
    Nat → Nat → List (Pending d L Logit) → Except DecodeFault Unit
  | 0,_,_ => throw .didNotFinish
  | iters+1,updates,pending =>
    let pending := unfinished softmax pending
    if (updates+1) % d.maxBlockIters = 0 ∧
        pending.any fun p => decide (d.maxBlockIters ≤ p.blockIters) then
      throw .editBudget
    else if pending.isEmpty then pure ()
    else decodeLoop d softmax iters (updates+1) pending

/-- The decode of a batch, each row in its block. -/
def executePagedDecode (rows : List (BlockRun d L Logit)) : Except DecodeFault Unit :=
  decodeLoop d softmax d.maxBlockIters 0 (rows.map fun r => { run := r })

end Loop

variable {r : BlockRun d L Logit} {softmax : (Fin V → Logit) → Fin V → Conf} {n : Nat} {i : Fin L}

theorem fusedPredicates_hadMask :
    (r.fusedPredicates softmax n).hadMask = (r.stepAt softmax n).hadMask := rfl

/-- Runner and graph tail report the same. -/
theorem eagerAt_eq (tokens : Nat → Token) (start : Nat) :
    r.eagerAt softmax n tokens start = r.fusedPredicates softmax n := by
  rw [eagerAt,gatherBlock_writeBlock]
  rfl

/-- The last pass but one leaves the row finalized. -/
theorem stepAt_last (hdistinct : [d.maskId,d.deleteTokenId,d.splitTokenId].Nodup)
    (hn : d.maxStepsPerBlock = n+1) : (r.stepAt softmax n).finalized = true := by
  rw [← finalized_succ (started hdistinct n),← hn]
  exact finalized_last hdistinct

/-- A finalized row whose prompt holds no mask is done with its next pass. -/
theorem fusedPredicates_finalized (h : Started r n (r.inputAt softmax n))
    (hfin : (r.inputAt softmax n).finalized = true)
    (hprompt : ∀ i, promptUpTo L r.promptLength i = true → r.block i ≠ d.maskId) :
    r.fusedPredicates softmax n = ⟨false,false,true⟩ := by
  have hmask := hadMask_finalized h hfin hprompt
  have hchanged : (r.stepAt softmax n).changed = false :=
    (LevenshteinJointDecoder.graphStep_finalized hfin).2.2.2.2.2.2
  have hfinished : (r.stepAt softmax n).blockFinished =
      (!(r.stepAt softmax n).hadMask && !(r.stepAt softmax n).changed) := rfl
  rw [fusedPredicates,hfinished,hmask,hchanged]
  rfl

/-- A mask in the prompt is reported by every pass. -/
theorem hadMask_prompt (hdistinct : [d.maskId,d.deleteTokenId,d.splitTokenId].Nodup)
    (hi : promptUpTo L r.promptLength i = true) (hmask : r.block i = d.maskId) :
    (r.stepAt softmax n).hadMask = true := by
  have hstarted : Started r n (r.inputAt softmax n) := started hdistinct n
  change any (fun i => (r.inputAt softmax n).xBlock i == d.maskId) = true
  rw [any_eq_true]
  exact ⟨i,by rw [hstarted.unmoved i hi,hmask,beq_self_eq_true]⟩

theorem not_blockFinished (h : (r.stepAt softmax n).hadMask = true) :
    (r.stepAt softmax n).blockFinished = false := by
  change (!(r.stepAt softmax n).hadMask && _) = false
  rw [h]
  rfl

variable {pending : List (Pending d L Logit)} {iters updates : Nat}

theorem mem_unfinished {p : Pending d L Logit} : p ∈ unfinished softmax pending ↔
    ∃ q ∈ pending, (q.run.stepAt softmax q.blockIters).blockFinished = false ∧
      p = { q with blockIters := q.blockIters+1 } := by
  simp only [unfinished,List.mem_map,List.mem_filter,Bool.not_eq_true']
  constructor
  · rintro ⟨q,⟨hq,hfin⟩,rfl⟩
    exact ⟨q,hq,hfin,rfl⟩
  · rintro ⟨q,hq,hfin,rfl⟩
    exact ⟨q,⟨hq,hfin⟩,rfl⟩

/-- A row that never finishes keeps the loop from coming to an end. -/
theorem decodeLoop_stuck (hr : ∃ p ∈ pending, p.run = r)
    (hstuck : ∀ n, (r.stepAt softmax n).blockFinished = false) :
    decodeLoop d softmax iters updates pending ≠ .ok () := by
  induction iters generalizing updates pending with
  | zero => exact fun h => nomatch h
  | succ iters ih =>
    obtain ⟨p,hp,rfl⟩ := hr
    have hleft : { p with blockIters := p.blockIters+1 } ∈ unfinished softmax pending :=
      mem_unfinished.mpr ⟨p,hp,hstuck _,rfl⟩
    rw [decodeLoop]
    split
    · exact fun h => nomatch h
    · rw [if_neg (by simpa using List.ne_nil_of_mem hleft)]
      exact ih ⟨_,hleft,rfl⟩

/-- Rows that finish in time do so before the budget runs out. -/
theorem decodeLoop_returns (hiters : updates+iters = d.maxBlockIters) (hpos : 0 < iters)
    (hcount : ∀ p ∈ pending, p.blockIters = updates)
    (hlast : ∀ p ∈ pending, (p.run.stepAt softmax d.maxStepsPerBlock).blockFinished = true) :
    decodeLoop d softmax iters updates pending = .ok () := by
  induction iters generalizing updates pending with
  | zero => omega
  | succ iters ih =>
    have hnext : ∀ p ∈ unfinished softmax pending, p.blockIters = updates+1 := by
      intro p hp
      obtain ⟨q,hq,_,rfl⟩ := mem_unfinished.mp hp
      rw [hcount q hq]
    rw [decodeLoop]
    by_cases hend : iters = 0
    · -- The last pass, over rows that are finalized by now.
      have hmax : updates = d.maxStepsPerBlock := by
        unfold LevenshteinJointDecoder.maxBlockIters at hiters
        omega
      have hnone : unfinished softmax pending = [] := by
        rw [List.eq_nil_iff_forall_not_mem]
        intro p hp
        obtain ⟨q,hq,hfin,_⟩ := mem_unfinished.mp hp
        rw [hcount q hq,hmax,hlast q hq] at hfin
        cases hfin
      rw [hnone,if_neg (by simp),List.isEmpty_nil,if_pos rfl]
      rfl
    · have hbelow : updates+1 < d.maxBlockIters := by omega
      rw [if_neg (by rw [Nat.mod_eq_of_lt hbelow]; omega)]
      split
      · rfl
      · apply ih (by omega) (by omega) hnext
        intro p hp
        obtain ⟨q,hq,_,rfl⟩ := mem_unfinished.mp hp
        exact hlast q hq

/-- The prompt of the row ends with a mask. -/
def maskedPrompt : BlockRun smallDecoder 2 Nat :=
  { smallRun with block := fun _ => 0, masked := by decide }

end BlockRun

end FluxServe.Llada
