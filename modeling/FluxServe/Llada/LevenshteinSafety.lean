import FluxServe.Llada.LevenshteinProof
import Mathlib.Order.Nat

namespace FluxServe.Llada

open Engine

variable {L V : Nat} [NeZero L] [NeZero V] {Logit Conf : Type} [LinearOrder Logit]
  [OrderBot Logit] [LinearOrder Conf] {d : LevenshteinJointDecoder V Conf}

/-- What a row meets while it refines one block: a new block whose generated positions are masks, and
for every pass the logits of its positions and the orders in which the scatters write. -/
structure BlockRun (d : LevenshteinJointDecoder V Conf) (L : Nat) (Logit : Type)
    [LinearOrder Logit] [OrderBot Logit] where
  promptLength : Int
  blockStart : Int
  row : LevenshteinRowState L d.maxBlockIters
  block : Fin L → Token
  logits : Nat → Fin L → Fin V → Logit
  order : Nat → ScatterOrder L := fun _ => {}
  enters : row.blockStart ≠ blockStart
  masked : ∀ i, promptUpTo L promptLength i = false → block i = d.maskId
  finite : ∀ n i, 4 ≤ finiteEntries (logits n i)

namespace BlockRun

section Run

variable (r : BlockRun d L Logit) (softmax : (Fin V → Logit) → Fin V → Conf)

/-- The arguments of a pass over the row and its block. -/
def input (n : Nat) (x : LevenshteinRowState L d.maxBlockIters × (Fin L → Token)) :
    StepInput L V d.maxBlockIters Logit :=
  { d.beginBlockRow x.1 r.blockStart x.2 with
    logits := r.logits n
    xBlock := x.2
    promptPositions := promptUpTo L r.promptLength
    order := r.order n }

/-- The row and its block after so many passes. -/
def states : Nat → LevenshteinRowState L d.maxBlockIters × (Fin L → Token)
  | 0 => (r.row,r.block)
  | n+1 =>
    let input := r.input n (states n)
    let step := d.graphStep softmax input
    (d.commitRowState input.toLevenshteinRowState step,step.newBlock)

/-- What a pass is given. -/
def inputAt (n : Nat) : StepInput L V d.maxBlockIters Logit := r.input n (r.states softmax n)

/-- What a pass returns. -/
def stepAt (n : Nat) : StepResult L := d.graphStep softmax (r.inputAt softmax n)

end Run

variable {r : BlockRun d L Logit} {softmax : (Fin V → Logit) → Fin V → Conf} {n : Nat} {i : Fin L}

/-- What holds whenever a pass starts. -/
structure Started (r : BlockRun d L Logit) (n : Nat) (s : StepInput L V d.maxBlockIters Logit) :
    Prop where
  blockStart : s.blockStart = r.blockStart
  unmoved : ∀ i, promptUpTo L r.promptLength i = true → s.xBlock i = r.block i
  clean : ∀ i, promptUpTo L r.promptLength i = false →
    s.xBlock i ≠ d.deleteTokenId ∧ s.xBlock i ≠ d.splitTokenId
  resolved : s.finalized = true → ∀ i, promptUpTo L r.promptLength i = false → s.xBlock i ≠ d.maskId
  steps : s.finalized = true ∨ s.stepId = n
  history : s.seenCount ≤ d.maxBlockIters

theorem started_zero (hdistinct : [d.maskId,d.deleteTokenId,d.splitTokenId].Nodup) :
    Started r 0 (r.inputAt softmax 0) := by
  simp only [List.nodup_cons,List.mem_cons,List.not_mem_nil,or_false,not_or] at hdistinct
  have hnew : (r.inputAt softmax 0).toLevenshteinRowState =
      d.beginBlockRow r.row r.blockStart r.block := rfl
  have hbegin := hnew
  rw [LevenshteinJointDecoder.beginBlockRow,if_neg r.enters] at hbegin
  constructor
  · rw [hbegin]
  · exact fun _ _ => rfl
  · intro i hi
    change r.block i ≠ _ ∧ r.block i ≠ _
    rw [r.masked i hi]
    exact ⟨hdistinct.1.1,hdistinct.1.2⟩
  · intro hfin i hi hmask
    rw [hbegin] at hfin
    have hzero := count_eq_zero.mp (beq_iff_eq.mp hfin) i
    rw [show r.block i = d.maskId from hmask,beq_self_eq_true] at hzero
    cases hzero
  · right
    rw [hbegin]
  · rw [hbegin]
    exact Nat.zero_le _

/-- A later pass starts with the row that the one before it commits. -/
theorem inputAt_succ (h : (r.inputAt softmax n).blockStart = r.blockStart) :
    (r.inputAt softmax (n+1)).toLevenshteinRowState =
      d.commitRowState (r.inputAt softmax n).toLevenshteinRowState (r.stepAt softmax n) := by
  change d.beginBlockRow (d.commitRowState (r.inputAt softmax n).toLevenshteinRowState
    (r.stepAt softmax n)) r.blockStart _ = _
  exact if_pos h

theorem Started.succ (hdistinct : [d.maskId,d.deleteTokenId,d.splitTokenId].Nodup)
    (h : Started r n (r.inputAt softmax n)) : Started r (n+1) (r.inputAt softmax (n+1)) := by
  have hrow := inputAt_succ h.blockStart
  have hblock : (r.inputAt softmax (n+1)).xBlock = (r.stepAt softmax n).newBlock := rfl
  have hds : d.deleteTokenId ≠ d.splitTokenId := by
    simp only [List.nodup_cons,List.mem_cons,List.not_mem_nil,or_false,not_or] at hdistinct
    exact hdistinct.2.1
  constructor
  · rw [hrow]
    exact h.blockStart
  · intro i hi
    rw [hblock,← h.unmoved i hi]
    exact LevenshteinJointDecoder.graphStep_prompt hds rfl hi
  · intro i hi
    rw [hblock]
    exact LevenshteinJointDecoder.graphStep_consumes hdistinct rfl h.clean hi
  · intro hfin i hi
    rw [hrow] at hfin
    change ((r.inputAt softmax n).finalized || d.finalRound softmax (r.inputAt softmax n)) = true
      at hfin
    rw [hblock]
    cases hbefore : (r.inputAt softmax n).finalized with
    | true =>
      rw [stepAt,(LevenshteinJointDecoder.graphStep_finalized hbefore).1]
      exact h.resolved hbefore i hi
    | false =>
      rw [hbefore,Bool.false_or] at hfin
      exact LevenshteinJointDecoder.graphStep_resolves hds rfl h.clean (r.finite n) hfin hi
  · cases hbefore : (r.inputAt softmax n).finalized with
    | true =>
      left
      rw [hrow]
      exact (LevenshteinJointDecoder.graphStep_finalized hbefore).2.2.2.2.1
    | false =>
      right
      obtain hfin | hsteps := h.steps
      · rw [hbefore] at hfin
        cases hfin
      · rw [hrow]
        change (r.inputAt softmax n).stepId + (if (r.inputAt softmax n).finalized then 0 else 1) = _
        rw [hbefore,hsteps]
        rfl
  · rw [hrow]
    exact Nat.min_le_right _ _

theorem started (hdistinct : [d.maskId,d.deleteTokenId,d.splitTokenId].Nodup) (n : Nat) :
    Started r n (r.inputAt softmax n) := by
  induction n with
  | zero => exact started_zero hdistinct
  | succ n ih => exact ih.succ hdistinct

/-- A pass over a finalized row commits it as it was. -/
theorem states_finalized (h : Started r n (r.inputAt softmax n))
    (hfin : (r.inputAt softmax n).finalized = true) :
    r.states softmax (n+1) =
      ((r.inputAt softmax n).toLevenshteinRowState,(r.states softmax n).2) := by
  obtain ⟨hblock,hmask,hstep,hpost,hfinal,happend,_⟩ :=
    LevenshteinJointDecoder.graphStep_finalized hfin
  apply Prod.ext
  · change d.commitRowState _ (d.graphStep softmax (r.inputAt softmax n)) = _
    have hcount : (d.graphStep softmax (r.inputAt softmax n)).seenCount =
        (r.inputAt softmax n).seenCount := rfl
    rw [LevenshteinJointDecoder.commitRowState,hmask,hstep,hpost,hfinal.trans hfin.symm,happend,
      hcount]
    simp only [Bool.false_eq_true,and_false,if_false,Bool.toNat_false,Nat.add_zero,
      Nat.min_eq_left h.history]
    rfl
  · exact hblock

theorem finalized_succ (h : Started r n (r.inputAt softmax n)) :
    (r.inputAt softmax (n+1)).finalized = (r.stepAt softmax n).finalized :=
  congrArg _ (inputAt_succ h.blockStart)

/-- The last pass but one finalizes the row, if none did before. -/
theorem finalized_last (hdistinct : [d.maskId,d.deleteTokenId,d.splitTokenId].Nodup) :
    (r.inputAt softmax d.maxStepsPerBlock).finalized = true := by
  have htwo := d.two_le_maxStepsPerBlock
  obtain ⟨k,hk⟩ : ∃ k, d.maxStepsPerBlock = k+1 := ⟨d.maxStepsPerBlock-1,by omega⟩
  have hstarted : Started r k (r.inputAt softmax k) := started hdistinct k
  rw [hk,finalized_succ hstarted]
  change ((r.inputAt softmax k).finalized || d.finalRound softmax (r.inputAt softmax k)) = true
  obtain hfin | hsteps := hstarted.steps
  · rw [hfin,Bool.true_or]
  · have hcap : d.maxStepsPerBlock-1 ≤ (r.inputAt softmax k).stepId := by omega
    cases hfin : (r.inputAt softmax k).finalized <;>
      simp [LevenshteinJointDecoder.finalRound,hcap,hfin]

/-- A finalized row reports no mask, unless its prompt holds one. -/
theorem hadMask_finalized (h : Started r n (r.inputAt softmax n))
    (hfin : (r.inputAt softmax n).finalized = true)
    (hprompt : ∀ i, promptUpTo L r.promptLength i = true → r.block i ≠ d.maskId) :
    (r.stepAt softmax n).hadMask = false := by
  change any (fun i => (r.inputAt softmax n).xBlock i == d.maskId) = false
  rw [any_eq_false]
  intro i
  rw [beq_eq_false_iff_ne]
  cases hi : promptUpTo L r.promptLength i with
  | true =>
    rw [h.unmoved i hi]
    exact hprompt i hi
  | false => exact h.resolved hfin i hi

/-- However the logits come out, the passes over a block keep its prompt, consume the edit tokens,
finalize it without a mask and never change it then; and they come to rest. -/
theorem block_safety (hdistinct : [d.maskId,d.deleteTokenId,d.splitTokenId].Nodup)
    (r : BlockRun d L Logit) (softmax : (Fin V → Logit) → Fin V → Conf) :
    (∀ n i, promptUpTo L r.promptLength i = true → (r.states softmax n).2 i = r.block i) ∧
    (∀ n i, promptUpTo L r.promptLength i = false →
      (r.stepAt softmax n).newBlock i ≠ d.deleteTokenId ∧
        (r.stepAt softmax n).newBlock i ≠ d.splitTokenId) ∧
    (∀ n, (r.stepAt softmax n).finalized = true → ∀ i, promptUpTo L r.promptLength i = false →
      (r.stepAt softmax n).newBlock i ≠ d.maskId) ∧
    (∀ n m, n < m → (r.inputAt softmax n).finalized = true →
      r.states softmax m =
        ((r.inputAt softmax n).toLevenshteinRowState,(r.states softmax n).2)) ∧
    ((∀ i, promptUpTo L r.promptLength i = true → r.block i ≠ d.maskId) →
      ∃ n < d.maxStepsPerBlock+1, (r.stepAt softmax n).hadMask = false ∧
        (r.stepAt softmax n).changed = false) := by
  have hstarted (n : Nat) : Started r n (r.inputAt softmax n) := started hdistinct n
  refine ⟨fun n => (hstarted n).unmoved,fun n => (hstarted (n+1)).clean,?_,?_,?_⟩
  · intro n hfin
    exact (hstarted (n+1)).resolved ((finalized_succ (hstarted n)).trans hfin)
  · intro n m hm hfin
    induction m, hm using Nat.le_induction with
    | base => exact states_finalized (hstarted n) hfin
    | succ m hm ih =>
      obtain ⟨k,rfl⟩ : ∃ k, m = k+1 := ⟨m-1,by omega⟩
      have hrow : (r.inputAt softmax (k+1)).toLevenshteinRowState =
          (r.inputAt softmax n).toLevenshteinRowState := by
        rw [inputAt_succ (hstarted k).blockStart]
        exact congrArg Prod.fst ih
      rw [states_finalized (hstarted (k+1)) ((congrArg _ hrow).trans hfin),hrow,ih]
  · intro hprompt
    have hlast : (r.inputAt softmax d.maxStepsPerBlock).finalized = true :=
      finalized_last hdistinct
    exact ⟨d.maxStepsPerBlock,Nat.lt_succ_self _,hadMask_finalized (hstarted _) hlast hprompt,
      (LevenshteinJointDecoder.graphStep_finalized hlast).2.2.2.2.2.2⟩

local instance smallLength_neZero : NeZero 2 := ⟨by decide⟩

local instance smallColumns_neZero : NeZero 5 := ⟨by decide⟩

/-- Blocks of two over five tokens. -/
def smallDecoder : LevenshteinJointDecoder 5 Nat where
  maskId := 0
  deleteTokenId := 1
  splitTokenId := 2
  threshold := 0
  editingThreshold := 0
  maxStepsPerBlock := 3
  steps_pos := by decide
  two_le_maxStepsPerBlock := by decide
  maskColumn := by decide
  deleteColumn := by decide
  splitColumn := by decide

/-- The masked position is split again and again. -/
def smallRun : BlockRun smallDecoder 2 Nat where
  promptLength := 1
  blockStart := 4
  row := {
    isOriginalMask := fun _ => false
    initialMaskCount := 0
    stepId := 0
    postSteps := 0
    finalized := false
    blockStart := -1
    seenBlocks := fun _ _ => 0
    seenCount := 0 }
  block i := if i = 0 then 7 else 0
  logits _ _ t := if t = 2 then 9 else if t = 4 then 8 else 1
  enters := by decide
  masked := by decide
  finite _ _ := by decide

theorem block_safety_small :
    (∀ n, (smallRun.states (fun _ _ => 1) n).2 0 = 7) ∧
    (smallRun.states (fun _ _ => 1) 1).2 1 = 0 ∧
    ∃ n < 4, (smallRun.stepAt (fun _ _ => 1) n).hadMask = false ∧
      (smallRun.stepAt (fun _ _ => 1) n).changed = false := by
  obtain ⟨hprompt,_,_,_,hrests⟩ := block_safety (by decide) smallRun fun _ _ => 1
  refine ⟨fun n => hprompt n 0 rfl,by decide +kernel,hrests ?_⟩
  decide

end BlockRun

end FluxServe.Llada
