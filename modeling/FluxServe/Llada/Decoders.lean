import FluxServe.Llada.BlockLoop
import FluxServe.Llada.Levenshtein

namespace FluxServe.Llada

open Engine

section Rowwise

variable {L : Nat} {Logits ρ : Type}

/-- A decoder's step on one row: the block it leaves and what it keeps of the row. -/
abbrev RowStep (L : Nat) (Logits ρ : Type) := DecoderRow Logits → (Fin L → Token) → ρ → (Fin L → Token) × ρ

def findRow (rows : List (DecoderRow Logits)) (r : Nat) : Option (DecoderRow Logits) :=
  rows.find? fun row => row.seqId == r

theorem findRow_of_mem {rows : List (DecoderRow Logits)} {row : DecoderRow Logits}
    (hnd : (rows.map DecoderRow.seqId).Nodup) (h : row ∈ rows) :
    findRow rows row.seqId = some row := by
  induction rows with
  | nil => cases h
  | cons head rows ih =>
    rw [List.map_cons,List.nodup_cons] at hnd
    unfold findRow
    rw [List.find?_cons]
    obtain rfl | h := List.mem_cons.mp h
    · simp
    · have hne : head.seqId ≠ row.seqId := fun heq =>
        hnd.1 (heq ▸ List.mem_map_of_mem h)
      rw [beq_false_of_ne hne]
      exact ih hnd.2 h

/-- What a row step makes of the rows. -/
def stepRow (step : RowStep L Logits ρ) (rows : List (DecoderRow Logits)) (s : Nat → ρ) (r : Nat) :
    Option ((Nat → Token) × (Fin L → Token) × ρ) :=
  (findRow rows r).map fun row =>
    let x := step row (gatherBlock L row.row row.blockStart) (s r)
    (writeBlock row.row row.blockStart x.1,x)

/-- A decoder all of whose operations stay within the rows. -/
def BlockDecoder.ofRows (step : RowStep L Logits ρ) (fused : Bool) : BlockDecoder L Logits (Nat → ρ) where
  batchDecode rows s :=
    (fun r p => ((stepRow step rows s r).map fun x => x.1 p).getD 0,
      fun r => ((stepRow step rows s r).map fun x => x.2.2).getD (s r))
  graphStep :=
    if fused then
      some fun rows s =>
        (fun r i => ((stepRow step rows s r).map fun x => x.2.1 i).getD 0,
          fun r => ((stepRow step rows s r).map fun x => x.2.2).getD (s r))
    else none
  inside rows s hnd row hrow p hp := by
    simp only [stepRow,findRow_of_mem hnd hrow,Option.map_some,Option.getD_some]
    exact dif_neg hp

end Rowwise

section Thresholds

variable {L V : Nat} [NeZero L] [NeZero V] {Logit Conf : Type} [LinearOrder Logit] [OrderBot Logit]
  [LinearOrder Conf]

/-- A confidence within the slack of the greatest one, or above the threshold. Positions that are no
candidates have a confidence below every bound. -/
def transferred (slack : Conf → Conf) (threshold : Conf) (conf : Fin L → WithBot Conf) (i : Fin L) :
    Bool :=
  match (List.finRange L).foldr (fun i m => max (conf i) m) ⊥,conf i with
  | some greatest,some c => decide (min (slack greatest) threshold ≤ c)
  | _,_ => false

/-- What the noise of a pass makes of the logits of each position. -/
abbrev Noise (L V : Nat) (Logit : Type) := Fin L → (Fin V → Logit) → Fin V → Logit

/-- The settings of `ThresholdParallelDecoder`. -/
structure ThresholdParallelDecoder (Conf : Type) where
  maskId : Token
  threshold : Conf
  slack : Conf → Conf

namespace ThresholdParallelDecoder

variable (d : ThresholdParallelDecoder Conf) (softmax : (Fin V → Logit) → Fin V → Conf)
  (noise : Noise L V Logit) (logits : Fin L → Fin V → Logit) (block : Fin L → Token)

def x0 (i : Fin L) : Fin V := argmax (noise i (logits i))

/-- The confidence of a masked position whose candidate is not the mask. -/
def confidence (i : Fin L) : WithBot Conf :=
  if block i = d.maskId ∧ ((x0 noise logits i : Nat) : Token) ≠ d.maskId then
    (softmax (logits i) (x0 noise logits i) : WithBot Conf)
  else ⊥

/-- The block after `get_transfer_index_threshold` and the write. -/
def updated (i : Fin L) : Token :=
  if transferred d.slack d.threshold (d.confidence softmax noise logits block) i then
    ((x0 noise logits i : Nat) : Token)
  else block i

/-- `batch_decode` at temperature 0. -/
def decoder : BlockDecoder L (Fin L → Fin V → Logit) (Nat → Unit) :=
  .ofRows (fun row block s => (d.updated softmax (fun _ logits => logits) row.logits block,s)) false

/-- `batch_decode` at any temperature: each pass of a row draws its noise. -/
def samplingDecoder : BlockDecoder L (Fin L → Fin V → Logit) (Nat → Nat → Noise L V Logit) :=
  .ofRows (fun row block draws =>
    (d.updated softmax (draws 0) row.logits block,fun n => draws (n+1))) false

end ThresholdParallelDecoder

/-- The settings of `JointThresholdDecoder`. -/
structure JointThresholdDecoder (Conf : Type) where
  maskId : Token
  threshold : Conf
  editingThreshold : Conf
  slack : Conf → Conf

namespace JointThresholdDecoder

variable (d : JointThresholdDecoder Conf) (softmax : (Fin V → Logit) → Fin V → Conf)
  (row : DecoderRow (Fin L → Fin V → Logit)) (block : Fin L → Token)

/-- The logits without the mask. -/
def maskedLogits (i : Fin L) : Fin V → Logit :=
  suppress (LevenshteinJointDecoder.column V d.maskId) (row.logits i)

def x0 (i : Fin L) : Fin V := argmax (d.maskedLogits row i)

def x0Prob (i : Fin L) : Conf := softmax (d.maskedLogits row i) (d.x0 row i)

def confidence (i : Fin L) : WithBot Conf :=
  if block i = d.maskId then (d.x0Prob softmax row i : WithBot Conf) else ⊥

/-- A token outside the prompt that is edited. -/
def t2t (i : Fin L) : Bool :=
  decide (block i ≠ d.maskId) && !promptUpTo L (row.promptLength-row.blockStart) i && row.allowEdit &&
    decide (((d.x0 row i : Nat) : Token) ≠ block i) &&
    decide (d.editingThreshold < d.x0Prob softmax row i)

/-- `joint_threshold_update`. -/
def updated (i : Fin L) : Token :=
  if transferred d.slack d.threshold (d.confidence softmax row block) i || d.t2t softmax row block i then
    ((d.x0 row i : Nat) : Token)
  else block i

/-- `batch_decode` and `graph_step`. -/
def decoder : BlockDecoder L (Fin L → Fin V → Logit) (Nat → Unit) :=
  .ofRows (fun row block s => (d.updated softmax row block,s)) true

end JointThresholdDecoder

namespace LevenshteinJointDecoder

variable (d : LevenshteinJointDecoder V Conf) (softmax : (Fin V → Logit) → Fin V → Conf)
  (order : ScatterOrder L)

/-- What a step of a row is given, after the reset of a new block. -/
def stepInput (row : DecoderRow (Fin L → Fin V → Logit)) (block : Fin L → Token)
    (s : LevenshteinRowState L d.maxBlockIters) : StepInput L V d.maxBlockIters Logit :=
  { d.beginBlockRow s row.blockStart block with
    logits := row.logits
    xBlock := block
    promptPositions := promptUpTo L (row.promptLength-row.blockStart)
    order }

/-- `batch_decode`, or `graph_inputs`, `graph_step` and `commit_row_state`. -/
def decoder : BlockDecoder L (Fin L → Fin V → Logit) (Nat → LevenshteinRowState L d.maxBlockIters) :=
  .ofRows (fun row block s =>
    let input := d.stepInput order row block s
    let step := d.graphStep softmax input
    (step.newBlock,d.commitRowState input.toLevenshteinRowState step)) true

end LevenshteinJointDecoder

end Thresholds

end FluxServe.Llada
